import Phalanx.Record
import Phalanx.Safety.Ballots

/-! Whom a node supports. `becomeFollower` clears the vote even where a candidate steps
down in its own term. While the node runs, `leaderActive` then keeps it from voting
again in that term; the store does not know of it. -/
namespace Phalanx

open Go Raft

namespace Raft

variable {inbox : Message → Prop} {clock : Nat → Prop} {r r' : Raft}
variable {old : Nat → String → Prop} {term : Nat} {x : String}

/-- Support given before (`old`), in a vote that is in the outbox, or as a candidate. -/
def Pledged (old : Nat → String → Prop) (r : Raft) (term : Nat) (x : String) : Prop :=
  old term x ∨
  (∃ m ∈ r.msgs, m.type = .requestVoteResp ∧ m.reject = false ∧ m.term = term ∧
    m.recipient = x) ∨
  x = r.id ∧ r.state ≠ .follower ∧ r.currentTerm = term

/-- Support for `x` in `term` is remembered. -/
def Remembers (r : Raft) (term : Nat) (x : String) : Prop :=
  term < r.currentTerm ∨
    term = r.currentTerm ∧ (r.votedFor = x ∨ x = r.id ∧ r.leaderActive = true)

structure Single (old : Nat → String → Prop) (r : Raft) : Prop where
  office : r.state ≠ .follower → r.votedFor = r.id
  named : ∀ term x, Pledged old r term x → x ≠ None
  bound : ∀ term x, Pledged old r term x → r.Remembers term x
  once : ∀ term x y, Pledged old r term x → Pledged old r term y → x = y

theorem Single.frame {new : Nat → String → Prop} (h : Single old r)
    (hoffice : r'.state ≠ .follower → r'.votedFor = r'.id)
    (hpledged : ∀ term x, Pledged new r' term x → Pledged old r term x)
    (hbound : ∀ term x, r.Remembers term x → r'.Remembers term x) : Single new r' where
  office := hoffice
  named := fun term x hx => h.named term x (hpledged term x hx)
  bound := fun term x hx => hbound term x (h.bound term x (hpledged term x hx))
  once := fun term x y hx hy => h.once term x y (hpledged term x hx) (hpledged term y hy)

theorem Single.send (h : Single old r) {out : List Message}
    (hout : ∀ m ∈ out, m.type = .requestVoteResp → m.reject = true) :
    Single old { r with msgs := r.msgs ++ out } := by
  refine h.frame h.office ?_ (fun _ _ hb => hb)
  rintro term x (hold | ⟨m, hm, htype, hreject, hrest⟩ | hoffice)
  · exact .inl hold
  · rcases List.mem_append.mp hm with hm | hm
    · exact .inr (.inl ⟨m, hm, htype, hreject, hrest⟩)
    · rw [hout m hm htype] at hreject
      cases hreject
  · exact .inr (.inr hoffice)

theorem Single.later (h : Single old r) (hmsgs : r'.msgs = r.msgs)
    (hterm : r.currentTerm < r'.currentTerm) (hfollower : r'.state = .follower) :
    Single old r' := by
  refine h.frame (fun hno => absurd hfollower hno) ?_ ?_
  · rintro term x (hold | hvote | ⟨-, hno, -⟩)
    · exact .inl hold
    · exact .inr (.inl (hmsgs ▸ hvote))
    · exact absurd hfollower hno
  · rintro term x (hlt | ⟨rfl, -⟩)
    · exact .inl (hlt.trans hterm)
    · exact .inl hterm

theorem Single.stand (h : Single old r) (hnamed : r.id ≠ None)
    (hterm : r.currentTerm < uint64Size - 1) :
    Single old { r with electionElapsed := 0, leaderActive := false }.candidacy := by
  have hsucc : succ64 r.currentTerm = r.currentTerm + 1 := succ64_of_lt hterm
  have hcase : ∀ term x,
      Pledged old { r with electionElapsed := 0, leaderActive := false }.candidacy term x →
      Pledged old r term x ∧ term ≤ r.currentTerm ∨ term = r.currentTerm + 1 ∧ x = r.id := by
    have hle : ∀ {term x}, Pledged old r term x → Pledged old r term x ∧ term ≤ r.currentTerm := by
      intro term x hx
      rcases h.bound term x hx with hlt | ⟨heq, -⟩
      · exact ⟨hx, hlt.le⟩
      · exact ⟨hx, heq.le⟩
    rintro term x (hold | hvote | ⟨hx, -, heq⟩)
    · exact .inl (hle (.inl hold))
    · exact .inl (hle (.inr (.inl hvote)))
    · exact .inr ⟨heq.symm.trans hsucc, hx⟩
  refine { office := fun _ => rfl, named := ?_, bound := ?_, once := ?_ }
  · intro term x hx
    rcases hcase term x hx with ⟨hx, -⟩ | ⟨-, rfl⟩
    · exact h.named term x hx
    · exact hnamed
  · intro term x hx
    unfold Remembers
    change term < succ64 r.currentTerm ∨ term = succ64 r.currentTerm ∧ (r.id = x ∨ _)
    rw [hsucc]
    rcases hcase term x hx with ⟨-, hle⟩ | ⟨heq, rfl⟩
    · exact .inl (by omega)
    · exact .inr ⟨heq, .inl rfl⟩
  · intro term x y hx hy
    rcases hcase term x hx with ⟨hx, hle⟩ | ⟨heq, rfl⟩ <;>
      rcases hcase term y hy with ⟨hy, hle'⟩ | ⟨heq', rfl⟩
    · exact h.once term x y hx hy
    · omega
    · omega
    · rfl

theorem Single.grant (h : Single old r) {sender : String}
    (hsender : sender ≠ None) (hidle : r.leaderActive = false)
    (hvote : r.votedFor = None ∨ r.votedFor = sender) :
    Single old ({ r with votedFor := sender, electionElapsed := 0 }.send
      { type := .requestVoteResp, sender := r.id, recipient := sender,
        term := r.currentTerm }) := by
  have hsame : ∀ {x}, Pledged old r r.currentTerm x → x = sender := by
    intro x hx
    rcases h.bound _ x hx with hlt | ⟨-, rfl | ⟨-, hactive⟩⟩
    · exact absurd hlt (lt_irrefl _)
    · exact hvote.resolve_left (h.named _ _ hx)
    · rw [hidle] at hactive
      cases hactive
  have hcase : ∀ term x, Pledged old ({ r with votedFor := sender, electionElapsed := 0 }.send
      { type := .requestVoteResp, sender := r.id, recipient := sender,
        term := r.currentTerm }) term x →
      Pledged old r term x ∨ term = r.currentTerm ∧ x = sender := by
    rintro term x (hold | ⟨m, hm, htype, hreject, hterm, hrecipient⟩ | hoffice)
    · exact .inl (.inl hold)
    · rcases List.mem_append.mp hm with hm | hm
      · exact .inl (.inr (.inl ⟨m, hm, htype, hreject, hterm, hrecipient⟩))
      · cases List.mem_singleton.mp hm
        exact .inr ⟨hterm.symm, hrecipient.symm⟩
    · exact .inl (.inr (.inr hoffice))
  refine { office := ?_, named := ?_, bound := ?_, once := ?_ }
  · intro hstate
    exact (hsame (.inr (.inr ⟨rfl, hstate, rfl⟩))).symm
  · intro term x hx
    rcases hcase term x hx with hx | ⟨-, rfl⟩
    · exact h.named term x hx
    · exact hsender
  · intro term x hx
    rcases hcase term x hx with hx | ⟨rfl, rfl⟩
    · rcases h.bound term x hx with hlt | ⟨rfl, -⟩
      · exact .inl hlt
      · exact .inr ⟨rfl, .inl (hsame hx).symm⟩
    · exact .inr ⟨rfl, .inl rfl⟩
  · intro term x y hx hy
    rcases hcase term x hx with hx' | ⟨rfl, hx'⟩
    · rcases hcase term y hy with hy' | ⟨rfl, hy'⟩
      · exact h.once term x y hx' hy'
      · rw [hy', hsame hx']
    · rcases hcase _ y hy with hy' | ⟨-, hy'⟩
      · rw [hx', hsame hy']
      · rw [hx', hy']

theorem Single.heed (h : Single old r) {msg : Message} (hsender : msg.sender ≠ None)
    (hterm : msg.term = r.currentTerm) : Single old (r.heeding msg) := by
  have hactive : (r.heeding msg).leaderActive = true := by
    unfold heeding
    split
    · rfl
    · exact decide_eq_true hsender
  have hframe : (r.heeding msg).id = r.id ∧ (r.heeding msg).msgs = r.msgs ∧
      (r.heeding msg).currentTerm = r.currentTerm := by
    unfold heeding
    split
    · exact ⟨rfl, rfl, rfl⟩
    · exact ⟨rfl, rfl, hterm⟩
  refine h.frame (fun hno => absurd (heeding_state r msg) hno) ?_ ?_
  · rintro term x (hold | hvote | ⟨-, hno, -⟩)
    · exact .inl hold
    · exact .inr (.inl (hframe.2.1 ▸ hvote))
    · exact absurd (heeding_state r msg) hno
  · intro term x hx
    unfold Remembers
    rw [hframe.1, hframe.2.2, hactive]
    rcases hx with hlt | ⟨heq, hvote | ⟨hx, -⟩⟩
    · exact .inl hlt
    · refine .inr ⟨heq, ?_⟩
      by_cases hstate : r.state = .follower
      · left
        rw [heeding, if_pos hstate]
        exact hvote
      · exact .inr ⟨hvote.symm.trans (h.office hstate), rfl⟩
    · exact .inr ⟨heq, .inr ⟨hx, rfl⟩⟩

theorem Move.single (hnamed : r.id ≠ None)
    (hinbox : ∀ m, inbox m → m.isRequest = true → m.sender ≠ None)
    (hclock : ∀ t, clock t → t < uint64Size - 1) (h : Single old r)
    (hmove : Move inbox clock r r') : Single old r' := by
  cases hmove with
  | stand _ hticks => exact h.stand hnamed (hclock _ hticks)
  | canvass =>
    refine h.send fun m hm htype => ?_
    obtain ⟨peer, -, rfl⟩ := List.mem_map.mp hm
    cases htype
  | win hstate =>
    have hoffice : r.state ≠ .follower := by simp [hstate]
    refine h.frame (fun _ => h.office hoffice) ?_ (fun _ _ hb => hb)
    rintro term x (hold | hvote | ⟨hx, -, hterm⟩)
    · exact .inl hold
    · exact .inr (.inl hvote)
    · exact .inr (.inr ⟨hx, hoffice, hterm⟩)
  | broadcast _ _ hcast =>
    obtain ⟨out, hout, rfl⟩ := broadcastHeartbeat_eq hcast
    refine h.send fun m hm htype => ?_
    obtain ⟨peer, -, hpeer⟩ := exists_of_mem_mapM hout hm
    obtain ⟨entries, rfl⟩ := appendEntriesFor_eq hpeer
    cases htype
  | observe msg hin hterm => exact h.later rfl hterm rfl
  | refuse msg reply _ _ _ _ _ _ hreject =>
    refine h.send fun m hm _ => ?_
    rw [List.mem_singleton.mp hm]
    exact hreject
  | grant msg hin htype _ hidle hvote =>
    exact h.grant (hinbox msg hin (isRequest_of_type (.inl htype))) hidle hvote
  | heed msg hin htype hterm =>
    exact h.heed (hinbox msg hin (isRequest_of_type (.inr htype))) hterm
  | accept msg log _ _ _ hstate =>
    rw [accepting_eq]
    have hlog : Single old
        { r with log, commitIndex := (followCommit { r with log } msg).commitIndex } :=
      h.frame h.office (fun _ _ hp => hp) (fun _ _ hb => hb)
    refine hlog.send fun m hm htype => ?_
    rw [List.mem_singleton.mp hm] at htype
    cases htype
  | _ => exact h.frame h.office (fun _ _ hp => hp) (fun _ _ hb => hb)

theorem Moves.single (hnamed : r.id ≠ None)
    (hinbox : ∀ m, inbox m → m.isRequest = true → m.sender ≠ None)
    (hclock : ∀ t, clock t → t < uint64Size - 1) (h : Single old r)
    (hmoves : Moves inbox clock r r') : Single old r' := by
  induction hmoves with
  | refl => exact h
  | tail hmoves hmove ih =>
    refine hmove.single ?_ hinbox hclock ih
    rw [(Moves.same hmoves).id]
    exact hnamed

theorem Single.restart {new : Nat → String → Prop} (h : Single old r)
    (hnew : ∀ term x, new term x → Pledged old r term x) (hfollower : r'.state = .follower)
    (hempty : r'.msgs = []) (hbound : ∀ term x, new term x → r'.Remembers term x) :
    Single new r' := by
  have hcase : ∀ {term x}, Pledged new r' term x → new term x := by
    rintro term x (hx | ⟨m, hm, -⟩ | ⟨-, hno, -⟩)
    · exact hx
    · rw [hempty] at hm
      cases hm
    · exact absurd hfollower hno
  refine { office := fun hno => absurd hfollower hno, named := ?_, bound := ?_, once := ?_ }
  · exact fun term x hx => h.named term x (hnew term x (hcase hx))
  · exact fun term x hx => hbound term x (hcase hx)
  · exact fun term x y hx hy => h.once term x y (hnew term x (hcase hx)) (hnew term y (hcase hy))

end Raft

/-- Node `i`, by what it was and what it sent, supports `x` in `term`: itself as soon as it
is a candidate, and whoever it sends a vote. -/
def Supports (i : String) (past : List Raft) (sent : List Packet) (term : Nat) (x : String) :
    Prop :=
  (x = i ∧ ∃ r ∈ past, r.state ≠ .follower ∧ r.currentTerm = term) ∨
    ∃ pk ∈ sent, pk.Grants x term

instance (i : String) (past : List Raft) (sent : List Packet) (term : Nat) (x : String) :
    Decidable (Supports i past sent term x) := inferInstanceAs (Decidable (_ ∨ _))

namespace Cluster

abbrev SupportsIn (c : Cluster) (i : String) (term : Nat) (x : String) : Prop :=
  Supports i (c.past i) (c.sent i) term x

def ownTerms (c : Cluster) (i : String) : List Nat :=
  ((c.past i).filter fun r => r.state ≠ .follower).map (fun r => r.currentTerm) ++
    ((c.sent i).filter fun pk => pk.Grants i pk.msg.term).map fun pk => pk.msg.term

/-- Whenever a node crashes, each term in which it has supported itself is below the saved
term, or it is the saved term and the saved vote is the node's own. -/
def Recalled (w : World) (c : Cluster) : Event → Prop
  | .crash i during => ∀ n ∈ c.node i,
    (∀ term ∈ c.ownTerms i, term < n.store.term ∨ term = n.store.term ∧ n.store.votedFor = i) ∧
    ∀ stimulus ∈ during, ∀ io ∈ c.input i stimulus, ∀ n' ∈ n.act w.env io.1,
      n'.raft.state ≠ .follower → n'.raft.currentTerm < n.store.term ∨
        n'.raft.currentTerm = n.store.term ∧ n.store.votedFor = i
  | _ => True

instance (w : World) (c : Cluster) (e : Event) : Decidable (c.Recalled w e) := by
  unfold Recalled
  split <;> infer_instance

variable {w : World} {c : Cluster} {i x : String} {term : Nat} {n n' : Node}
variable {stimulus : Stimulus} {input : Input} {via : Option (Nat × Packet)}

theorem mem_ownTerms (h : c.SupportsIn i term i) : term ∈ c.ownTerms i := by
  rcases h with ⟨-, r, hr, hstate, rfl⟩ | ⟨pk, hpk, hgrants⟩
  · refine List.mem_append_left _ (List.mem_map.mpr ⟨r, List.mem_filter.mpr ⟨hr, ?_⟩, rfl⟩)
    exact decide_eq_true hstate
  · obtain ⟨-, -, -, rfl, -⟩ := id hgrants
    refine List.mem_append_right _ (List.mem_map.mpr ⟨pk, List.mem_filter.mpr ⟨hpk, ?_⟩, rfl⟩)
    exact decide_eq_true hgrants

theorem supports_concat {past : List Raft} {sent : List Packet} {r : Raft}
    (h : Supports i (past ++ [r]) sent term x) :
    Supports i past sent term x ∨ x = i ∧ r.state ≠ .follower ∧ r.currentTerm = term := by
  rcases h with ⟨hx, r', hr', hstate, hterm⟩ | hgranted
  · rcases List.mem_append.mp hr' with hold | hnew
    · exact .inl (.inl ⟨hx, r', hold, hstate, hterm⟩)
    · rw [List.mem_singleton.mp hnew] at hstate hterm
      exact .inr ⟨hx, hstate, hterm⟩
  · exact .inl (.inr hgranted)

theorem pledged_of_supports {past : List Raft} {sent : List Packet} {r : Raft} (hid : r.id = i)
    (h : Supports i (past ++ [{ r with msgs := [] }]) (sent ++ emitted i r.msgs via) term x) :
    Pledged (Supports i past sent) r term x := by
  rcases h with ⟨rfl, r', hr', hstate, hterm⟩ | ⟨pk, hpk, hgrants⟩
  · rcases List.mem_append.mp hr' with hold | hnew
    · exact .inl (.inl ⟨rfl, r', hold, hstate, hterm⟩)
    · rw [List.mem_singleton.mp hnew] at hstate hterm
      exact .inr (.inr ⟨hid.symm, hstate, hterm⟩)
  · rcases List.mem_append.mp hpk with hold | hnew
    · exact .inl (.inr ⟨pk, hold, hgrants⟩)
    · obtain ⟨htype, -, hreject, hterm, hrecipient⟩ := hgrants
      rcases mem_emitted hnew with ⟨m, -, hrequest, rfl⟩ | ⟨k, req, m, -, -, hm, hreply, rfl⟩
      · rw [not_isRequest_of_type (.inl htype)] at hrequest
        cases hrequest
      · obtain ⟨hback, htypes⟩ := of_decide_eq_true hreply
        obtain ⟨-, hrecipient', hterm', hreject'⟩ := Message.answered_frame req.msg m
        refine .inr (.inl ⟨m, hm, ?_, hreject'.symm.trans hreject, hterm'.symm.trans hterm, ?_⟩)
        · rcases htypes with ⟨hreq, -⟩ | ⟨-, hvote⟩
          · rw [Message.answered, if_pos hreq] at htype
            cases htype
          · exact hvote
        · rw [hback, ← hrecipient', hrecipient]

theorem acted_single {ok : Cluster → Event → Prop} (hnamed : ∀ i ∈ w.members, i ≠ None)
    (hreach : Reach w ok c) (hbelow : c.TermsBelow) (hn : c.node i = some n)
    (hinput : c.input i stimulus = some (input, via)) (hact : n.act w.env input = some n')
    (h : Single (c.SupportsIn i) n.raft) : Single (c.SupportsIn i) n'.raft := by
  have horderly := hreach.orderly
  have hhoused := horderly.node i n hn
  rcases acted_cases horderly hinput hact with ⟨r₁, lastApplied, hmoves, hraft⟩ | ⟨peers, hraft⟩
  · have hsender : ∀ m, input.stepped n.id = some m → m.isRequest = true → m.sender ≠ None := by
      intro m hm hrequest
      obtain ⟨k, pk, -, -, hpk, -, ⟨hpkRequest, -, rfl⟩ | ⟨hno, -, rfl⟩⟩ := stepped_packet hinput hm
      · have hmem := List.mem_of_getElem? hpk
        rw [(Message.received_frame hpkRequest n.id).2.1,
          ← (horderly.packet pk hmem).request hpkRequest]
        exact hnamed _ (hreach.origin_member hmem)
      · rw [hno] at hrequest
        cases hrequest
    have hclock : ∀ t, input = .tick ∧ t = n.raft.currentTerm → t < uint64Size - 1 := by
      rintro t ⟨-, rfl⟩
      exact hbelow _ hhoused.now
    have hself : n.raft.id ≠ None := hhoused.raftId ▸ hnamed i hhoused.member
    have hsingle := Moves.single hself hsender hclock h hmoves
    rw [hraft]
    exact hsingle.frame hsingle.office (fun _ _ hp => hp) (fun _ _ hb => hb)
  · rw [hraft]
    exact h.frame h.office (fun _ _ hp => hp) (fun _ _ hb => hb)

theorem boot_idle {store : Store} (hboot : w.boot i store = some n') :
    n'.raft.state = .follower ∧ n'.raft.msgs = [] := by
  obtain ⟨peerAddrs, rfl⟩ := World.boot_eq hboot
  exact ⟨rfl, rfl⟩

theorem remembers_boot (horderly : (orderly w).Holds c) (hn : c.node i = some n)
    (h : Single (c.SupportsIn i) n.raft) (hboot : w.boot i n.store = some n')
    (hown : ∀ term ∈ c.ownTerms i,
      term < n.store.term ∨ term = n.store.term ∧ n.store.votedFor = i)
    (hx : c.SupportsIn i term x) : n'.raft.Remembers term x := by
  obtain ⟨peerAddrs, rfl⟩ := World.boot_eq hboot
  have hhoused := horderly.node i n hn
  change term < n.store.term ∨ term = n.store.term ∧ (n.store.votedFor = x ∨ _)
  by_cases hself : x = i
  · subst hself
    exact (hown term (mem_ownTerms hx)).imp_right fun hvote => ⟨hvote.1, .inl hvote.2⟩
  · rw [hhoused.term, hhoused.vote]
    rcases h.bound term x (.inl hx) with hlt | ⟨heq, hvote | ⟨hno, -⟩⟩
    · exact .inl hlt
    · exact .inr ⟨heq, .inl hvote⟩
    · exact absurd (hno.trans hhoused.raftId) hself

theorem votes_kept (hnamed : ∀ i ∈ w.members, i ≠ None) {ok : Cluster → Event → Prop}
    (hrecalled : ∀ c e, ok c e → c.Recalled w e) (hbelow : ∀ c e, ok c e → c.TermsBelow) :
    Keeps w ok fun i past sent n => Single (Supports i past sent) n.raft where
  boot := by
    intro i n past _ hboot hidle
    obtain ⟨peerAddrs, rfl⟩ := World.boot_eq hboot
    have hnone : ∀ term x, ¬ Supports i past [] term x := by
      rintro term x (⟨-, r, hr, hstate, -⟩ | ⟨pk, hpk, -⟩)
      · exact hstate (hidle r hr)
      · cases hpk
    have hpledged : ∀ term x, ¬ Pledged (Supports i past []) (w.fresh i {}) term x := by
      rintro term x (hx | ⟨m, hm, -⟩ | ⟨-, hno, -⟩)
      · exact hnone term x hx
      · cases hm
      · exact hno rfl
    exact
      { office := fun hno => absurd rfl hno
        named := fun term x hx => absurd hx (hpledged term x)
        bound := fun term x hx => absurd hx (hpledged term x)
        once := fun term x _ hx => absurd hx (hpledged term x) }
  handle := by
    intro c i stimulus n input via n' hreach hok hn hinput hact h
    have hsingle := acted_single hnamed hreach (hbelow _ _ hok) hn hinput hact h
    obtain ⟨-, hid, -⟩ := acted_sends hreach.orderly hn hinput hact
    refine hsingle.frame hsingle.office ?_ (fun _ _ hb => hb)
    rintro term x (hx | ⟨m, hm, -⟩ | hoffice)
    · exact pledged_of_supports hid hx
    · cases hm
    · exact .inr (.inr hoffice)
  crash := by
    intro c i n n' hreach hok hn hboot h
    obtain ⟨hidle, hempty⟩ := boot_idle hboot
    have hsame : ∀ term x,
        Supports i (c.past i ++ [{ n'.raft with msgs := [] }]) (c.sent i) term x →
        c.SupportsIn i term x :=
      fun _ _ hx => (supports_concat hx).resolve_right fun hnew => hnew.2.1 hidle
    have hown := (hrecalled _ _ hok n hn).1
    exact h.restart (fun term x hx => .inl (hsame term x hx)) hidle hempty
      fun term x hx => remembers_boot hreach.orderly hn h hboot hown (hsame term x hx)
  interrupt := by
    intro c i stimulus n input via n₁ n' hreach hok hn hinput hact hboot h
    have hsingle := acted_single hnamed hreach (hbelow _ _ hok) hn hinput hact h
    obtain ⟨-, hid, -⟩ := acted_sends hreach.orderly hn hinput hact
    obtain ⟨hown, hduring⟩ := hrecalled _ _ hok n hn
    obtain ⟨hidle, hempty⟩ := boot_idle hboot
    have hcase : ∀ term x, Supports i (c.past i ++ [{ n₁.raft with msgs := [] }] ++
        [{ n'.raft with msgs := [] }]) (c.sent i) term x →
        c.SupportsIn i term x ∨ x = i ∧ n₁.raft.state ≠ .follower ∧ n₁.raft.currentTerm = term := by
      intro term x hx
      have hx := (supports_concat hx).resolve_right fun hnew => hnew.2.1 hidle
      exact supports_concat (r := { n₁.raft with msgs := [] }) hx
    refine hsingle.restart (fun term x hx => ?_) hidle hempty (fun term x hx => ?_)
    · rcases hcase term x hx with hold | ⟨rfl, hoffice⟩
      · exact .inl hold
      · exact .inr (.inr ⟨hid.symm, hoffice⟩)
    · rcases hcase term x hx with hold | ⟨rfl, hstate, rfl⟩
      · exact remembers_boot hreach.orderly hn h hboot hown hold
      · have hvote := hduring stimulus rfl _ hinput n₁ hact hstate
        obtain ⟨peerAddrs, rfl⟩ := World.boot_eq hboot
        exact hvote.imp_right fun hvote => ⟨hvote.1, .inl hvote.2⟩
  dial := by
    intro c k pk n dest _ _ hk _ _ h
    refine h.frame h.office ?_ (fun _ _ hb => hb)
    have hmem : pk ∈ c.sent pk.origin := mem_sent.mpr ⟨List.mem_of_getElem? hk, rfl⟩
    rintro term x ((hself | ⟨pk', hpk', hgrants⟩) | hrest)
    · exact .inl (.inl hself)
    · rcases List.mem_append.mp hpk' with hold | hnew
      · exact .inl (.inr ⟨pk', hold, hgrants⟩)
      · rw [List.mem_singleton.mp hnew] at hgrants
        exact .inl (.inr ⟨pk, hmem, hgrants⟩)
    · exact .inr hrest
  answer := by
    intro c i call success n n' _ _ hanswer h
    obtain ⟨calls, rfl⟩ := Node.answer_frame hanswer
    exact h

theorem supports_unique {ok : Cluster → Event → Prop}
    (hkept : Keeps w ok fun i past sent n => Single (Supports i past sent) n.raft)
    (hreach : Reach w ok c) {y : String} (hx : c.SupportsIn i term x)
    (hy : c.SupportsIn i term y) : x = y := by
  rcases hkept.reach hreach i with ⟨-, hpast, hsent⟩ | ⟨n, -, hsingle⟩
  · rw [SupportsIn, hpast, hsent] at hx
    rcases hx with ⟨-, r, hr, -⟩ | ⟨pk, hpk, -⟩
    · cases hr
    · cases hpk
  · exact hsingle.once term x y (.inl hx) (.inl hy)

end Cluster

variable {w : World} {c : Cluster} {i x y : String} {term : Nat}

theorem TermsBelow.reach {ok : Cluster → Event → Prop} (hreach : Cluster.Reach w ok c)
    (hbelow : c.TermsBelow) : Cluster.Reach w (fun c e => ok c e ∧ c.TermsBelow) c :=
  hreach.before (fun _ _ _ hstep h => h.before hstep) hbelow

theorem one_vote_per_term (hnamed : ∀ i ∈ w.members, i ≠ None)
    (hreach : Cluster.Reach w (fun c e => c.Recalled w e) c) (hbelow : c.TermsBelow)
    (hx : c.SupportsIn i term x) (hy : c.SupportsIn i term y) : x = y := by
  have hkept : Cluster.Keeps w (fun c e => c.Recalled w e ∧ c.TermsBelow) _ :=
    Cluster.votes_kept hnamed (fun _ _ hok => hok.1) (fun _ _ hok => hok.2)
  exact Cluster.supports_unique hkept (TermsBelow.reach hreach hbelow) hx hy

/-- A stands in term 1, restarts, and refuses B its vote. -/
theorem one_vote_per_term_restart :
    ∃ c, Cluster.Reach (mesh ["a", "b", "c"] 1 1)
        (fun c e => c.Recalled (mesh ["a", "b", "c"] 1 1) e) c ∧
      c.SupportsIn "a" 1 "a" ∧ ∀ y, c.SupportsIn "a" 1 y → "a" = y := by
  obtain ⟨c, hreach, hbelow, hself⟩ :
      ∃ c, Cluster.Reach (mesh ["a", "b", "c"] 1 1)
          (fun c e => c.Recalled (mesh ["a", "b", "c"] 1 1) e) c ∧
        c.TermsBelow ∧ c.SupportsIn "a" 1 "a" :=
    Reachable.of_any
      [.handle "a" .tick, .crash "a" none, .handle "b" .tick, .dial 2, .handle "a" (.packet 4)] rfl
  have hnamed : ∀ i ∈ (mesh ["a", "b", "c"] 1 1).members, i ≠ None := by decide
  exact ⟨c, hreach, hself, fun y hy => one_vote_per_term hnamed hreach hbelow hself hy⟩

/-- B stands in term 1, steps down for A, restarts, and votes for A in term 1. -/
theorem second_vote_after_restart :
    ∃ c, Cluster.Reach (mesh ["a", "b", "c"] 1 1) (fun _ e => e.joinless = true) c ∧
      c.TermsBelow ∧ c.SupportsIn "b" 1 "b" ∧ c.SupportsIn "b" 1 "a" :=
  Reachable.of_any
    [.handle "a" .tick, .handle "b" .tick, .dial 1, .handle "c" (.packet 4),
      .handle "a" (.packet 5), .dial 6, .handle "b" (.packet 8), .crash "b" none, .dial 0,
      .handle "b" (.packet 10)] rfl

end Phalanx
