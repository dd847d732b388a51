import Phalanx.Raft.Outbox
import Phalanx.Safety.Election

/-! Whom a node takes for the leader. `leaderID` is written on four paths; the name on
each is the sender of an AppendEntries of the node's term, the node itself once it has
won, or none. Only a winner sends AppendEntries, so in a static cluster all hints of a
term name the same node. -/
namespace Phalanx

open Go Raft

def Cluster.Won (c : Cluster) (x : String) (term : Nat) : Prop :=
  ∃ r, (x, r) ∈ c.hist ∧ r.state = .leader ∧ r.currentTerm = term

theorem Cluster.Won.mono {c c' : Cluster} (hextends : c.Extends c') {x : String} {term : Nat}
    (h : c.Won x term) : c'.Won x term := by
  obtain ⟨r, hr, hrest⟩ := h
  exact ⟨r, hextends.mem_hist hr, hrest⟩

namespace Raft

variable {inbox : Message → Prop} {clock : Nat → Prop} {r r' : Raft} {won : String → Nat → Prop}

/-- The hint is a winner of the term, or the instance itself that leads it. -/
def Hinted (won : String → Nat → Prop) (r : Raft) : Prop :=
  r.leaderID ≠ None → won r.leaderID r.currentTerm ∨ r.leaderID = r.id ∧ r.state = .leader

theorem Move.hinted (hinbox : ∀ m, inbox m → m.type = .appendEntries → won m.sender m.term)
    (h : Hinted won r) (hmove : Move inbox clock r r') : Hinted won r' := by
  cases hmove with
  | stand => exact fun hno => absurd rfl hno
  | win => exact fun _ => .inr ⟨rfl, rfl⟩
  | broadcast _ _ hout =>
    obtain ⟨out, -, rfl⟩ := broadcastHeartbeat_eq hout
    exact h
  | observe msg hin _ =>
    intro hsome
    change (if msg.type = .appendEntries then msg.sender else None) ≠ None at hsome
    by_cases htype : msg.type = .appendEntries
    · left
      change won (if msg.type = .appendEntries then msg.sender else None) msg.term
      rw [if_pos htype]
      exact hinbox msg hin htype
    · rw [if_neg htype] at hsome
      exact absurd rfl hsome
  | heed msg hin htype hterm =>
    have hwon := hinbox msg hin htype
    unfold heeding
    split
    · exact fun _ => .inl (hterm ▸ hwon)
    · exact fun _ => .inl hwon
  | accept msg log =>
    rw [accepting_eq]
    exact h
  | _ => exact h

theorem Moves.hinted (hinbox : ∀ m, inbox m → m.type = .appendEntries → won m.sender m.term)
    (h : Hinted won r) (hmoves : Moves inbox clock r r') : Hinted won r' := by
  induction hmoves with
  | refl => exact h
  | tail _ hmove ih => exact hmove.hinted hinbox ih

end Raft

namespace Cluster

variable {w : World} {c c' : Cluster} {i : String} {stimulus : Stimulus} {input : Input}
variable {via : Option (Nat × Packet)} {n n' : Node}

def hints : Invariant where
  node := fun c _ n => n.raft.leaderID ≠ None → c.Won n.raft.leaderID n.raft.currentTerm
  packet := fun c pk => pk.msg.type = .appendEntries → c.Won pk.msg.sender pk.msg.term
  seen := fun c _ r => r.leaderID ≠ None → c.Won r.leaderID r.currentTerm
  node_mono := fun hextends h hsome => (h hsome).mono hextends
  packet_mono := fun hextends h htype => (h htype).mono hextends
  seen_mono := fun hextends h hsome => (h hsome).mono hextends

theorem stepped_won (h : hints.Holds c) (hinput : c.input i stimulus = some (input, via))
    {id : String} {m : Message} (hm : input.stepped id = some m)
    (htype : m.type = .appendEntries) : c.Won m.sender m.term := by
  obtain ⟨k, pk, -, -, hpk, -, ⟨hrequest, -, rfl⟩ | ⟨-, -, rfl⟩⟩ := stepped_packet hinput hm
  · obtain ⟨hsame, hsender, hterm, -⟩ := Message.received_frame hrequest id
    rw [hsender, hterm]
    exact h.packet pk (List.mem_of_getElem? hpk) (hsame ▸ htype)
  · exact h.packet pk (List.mem_of_getElem? hpk) htype

theorem acted_hinted (horderly : (orderly w).Holds c) (h : hints.Holds c)
    (hn : c.node i = some n) (hinput : c.input i stimulus = some (input, via))
    (hact : n.act w.env input = some n') (hextends : c.Extends c')
    (hnow : (i, { n'.raft with msgs := [] }) ∈ c'.hist) (hsome : n'.raft.leaderID ≠ None) :
    c'.Won n'.raft.leaderID n'.raft.currentTerm := by
  have hhinted : Hinted c.Won n.raft := fun hsome => .inl (h.node i n hn hsome)
  obtain ⟨-, hid, -⟩ := acted_sends horderly hn hinput hact
  have hhinted' : Hinted c.Won n'.raft := by
    rcases acted_cases horderly hinput hact with ⟨r₁, lastApplied, hmoves, hraft⟩ | ⟨peers, hraft⟩
    · have hr₁ : Hinted c.Won r₁ :=
        hmoves.hinted (fun m hm htype => stepped_won h hinput hm htype) hhinted
      rw [hraft]
      exact hr₁
    · rw [hraft]
      exact hhinted
  rcases hhinted' hsome with hwon | ⟨hself, hlead⟩
  · exact hwon.mono hextends
  · rw [hself, hid]
    exact ⟨_, hnow, hlead, rfl⟩

theorem hints_boot {store : Store} (hboot : w.boot i store = some n) : n.raft.leaderID = None := by
  obtain ⟨peerAddrs, rfl⟩ := World.boot_eq hboot
  rfl

theorem hints_kept (w : World) (ok : Cluster → Event → Prop) : hints.Kept w ok where
  boot := fun c i n _ hboot =>
    ⟨fun hsome => absurd (hints_boot hboot) hsome, fun hsome => absurd (hints_boot hboot) hsome⟩
  handle := by
    intro c i stimulus n input via n' hreach h _ hn hinput hact
    have horderly := hreach.orderly
    have hnow : (i, { n'.raft with msgs := [] }) ∈ (c.completed i n' via).hist :=
      List.mem_append_right _ (List.mem_singleton.mpr rfl)
    have hhint := acted_hinted horderly h hn hinput hact (extends_completed c i n' via) hnow
    refine ⟨hhint, hhint, fun pk hpk htype => ?_⟩
    rcases mem_emitted hpk with ⟨m, hm, -, rfl⟩ | ⟨k, req, m, -, -, -, -, rfl⟩
    · have hposted := Node.act_posts (horderly.node i n hn).drained hact m hm
      obtain ⟨-, hid, -, -, hsends⟩ := acted_sends horderly hn hinput hact
      change Won _ m.sender m.term
      rw [(hsends m hm).sender, hid, hposted.term]
      exact ⟨_, hnow, (hposted.broadcast htype).1, rfl⟩
    · exfalso
      unfold Message.answered at htype
      split at htype <;> cases htype
  interrupt := by
    intro c i stimulus n input via n' hreach h _ hn hinput hact
    exact acted_hinted hreach.orderly h hn hinput hact (extends_recorded c i n')
      (List.mem_append_right _ (List.mem_singleton.mpr rfl))
  crash := fun c c₁ i _ n n' _ _ _ _ hboot _ _ =>
    ⟨fun hsome => absurd (hints_boot hboot) hsome, fun hsome => absurd (hints_boot hboot) hsome⟩
  dial := fun c k pk n dest _ h _ hk _ _ _ => h.packet pk (List.mem_of_getElem? hk)
  answer := by
    intro c i call success n n' _ h _ hn hanswer
    obtain ⟨calls, rfl⟩ := Node.answer_frame hanswer
    exact h.node i n hn

end Cluster

variable {w : World} {c : Cluster}

/-- Every hint names the winner of its term, all hints of a term agree, and a redirect
gives the address of the winner if it knows of one. -/
theorem leader_hints_agree (hstatic : Static w)
    (hreach : Cluster.Reach w (fun _ e => e.joinless = true) c) (hbelow : c.TermsBelow) :
    (∀ i r, (i, r) ∈ c.hist → r.leaderID ≠ None → c.Won r.leaderID r.currentTerm) ∧
    (∀ i r j r', (i, r) ∈ c.hist → (j, r') ∈ c.hist → r.currentTerm = r'.currentTerm →
      r.leaderID ≠ None → r'.leaderID ≠ None → r.leaderID = r'.leaderID) ∧
    ∀ i n addr, c.node i = some n → n.redirect = some addr →
      addr = n.resolvePeerAddr n.raft.leaderID ∧
        (n.raft.leaderID = None ∨ c.Won n.raft.leaderID n.raft.currentTerm) := by
  have hhints := (Cluster.hints_kept w fun _ e => e.joinless = true).reach hreach
  refine ⟨hhints.seen, ?_, ?_⟩
  · intro i r j r' hi hj hterm hsome hsome'
    obtain ⟨won, hwon, hlead, hwonTerm⟩ := hhints.seen i r hi hsome
    obtain ⟨won', hwon', hlead', hwonTerm'⟩ := hhints.seen j r' hj hsome'
    exact static_leader_unique hstatic hreach hbelow hwon hwon' hlead hlead'
      (hwonTerm.trans (hterm.trans hwonTerm'.symm))
  · intro i n addr hn hredirect
    unfold Node.redirect at hredirect
    split at hredirect
    · cases hredirect
      refine ⟨rfl, ?_⟩
      by_cases hnone : n.raft.leaderID = None
      · exact .inl hnone
      · exact .inr (hhints.node i n hn hnone)
    · cases hredirect

/-- A wins term 1; B hears of it and sends clients to A, C has not heard. -/
theorem leader_hints_agree_redirect :
    ∃ c, Cluster.Reach (mesh ["a", "b", "c"] 1 1) (fun _ e => e.joinless = true) c ∧
      c.Won "a" 1 ∧
      (∀ i r, (i, r) ∈ c.hist → r.currentTerm = 1 → r.leaderID ≠ None → r.leaderID = "a") ∧
      ∃ n, c.node "b" = some n ∧ n.redirect = some "a" := by
  obtain ⟨c, hreach, hbelow, hhint, hredirect⟩ :
      ∃ c, Cluster.Reach (mesh ["a", "b", "c"] 1 1) (fun _ e => e.joinless = true) c ∧
        c.TermsBelow ∧ (∃ seen ∈ c.hist, seen.2.currentTerm = 1 ∧ seen.2.leaderID = "a") ∧
        (c.node "b").any (fun n => n.redirect = some "a") :=
    Reachable.of_any
      [.handle "a" .tick, .dial 0, .handle "b" (.packet 2), .handle "a" (.packet 3),
        .dial 4, .handle "b" (.packet 6), .crash "c" none] rfl
  obtain ⟨⟨i, r⟩, hi, hterm, hleader⟩ := hhint
  simp only at hterm hleader
  obtain ⟨hwon, hagree, -⟩ := leader_hints_agree (mesh_static (by decide) (by decide) 1 1) hreach
    hbelow
  have hsome : r.leaderID ≠ None := by
    rw [hleader]
    decide
  obtain ⟨n, hn, haddr⟩ := (Option.any_eq_true _ _).mp hredirect
  refine ⟨c, hreach, ?_, fun j r' hj hterm' hsome' => ?_, n, hn, of_decide_eq_true haddr⟩
  · have := hwon i r hi hsome
    rwa [hleader, hterm] at this
  · exact (hagree j r' i r hj hi (hterm'.trans hterm.symm) hsome' hsome).trans hleader

end Phalanx
