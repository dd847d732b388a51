import Phalanx.Refinement.Cluster
import Phalanx.Traffic

/-! Whose votes a leader has. A candidate counts names: a vote is entered under the
peer the request was meant for. Who answered is decided by the address the request
was sent to, and nothing in the request or the response tells. -/
namespace Phalanx

open Go Raft

namespace Raft

variable {inbox : Message → Prop} {clock : Nat → Prop} {r r' : Raft}
variable {granted : String → Nat → Prop}

/-- Every vote of a candidate or leader is its own or was granted in its term. -/
def Backed (granted : String → Nat → Prop) (r : Raft) : Prop :=
  r.state ≠ .follower → ∀ q ∈ r.votes.trueKeys, q = r.id ∨ granted q r.currentTerm

theorem Backed.mono {granted' : String → Nat → Prop} (h : Backed granted r)
    (hmono : ∀ q t, granted q t → granted' q t) : Backed granted' r :=
  fun hstate q hq => (h hstate q hq).imp_right (hmono q r.currentTerm)

theorem Move.backed (hinbox : ∀ m, inbox m → m.type = .requestVoteResp → m.reject = false →
      granted m.sender m.term) (h : Backed granted r) (hmove : Move inbox clock r r') :
    Backed granted r' := by
  cases hmove with
  | stand =>
    intro _ q hq
    change q ∈ (⟨some (Finmap.insert r.id true ∅)⟩ : GoMap String Bool).trueKeys at hq
    rw [GoMap.mem_trueKeys, GoMap.lookup_write (GoMap.write_make r.id true)] at hq
    split at hq
    next heq => exact .inl heq
    next =>
      rw [GoMap.lookup_make] at hq
      cases hq
  | win hstate => exact fun _ q hq => h (by simp [hstate]) q hq
  | broadcast _ hstate hout =>
    obtain ⟨out, -, rfl⟩ := broadcastHeartbeat_eq hout
    exact h
  | observe => exact fun hno => absurd rfl hno
  | tally msg votes hin htype hstate hterm hvotes =>
    intro _ q hq
    change q ∈ votes.trueKeys at hq
    rw [GoMap.mem_trueKeys, GoMap.lookup_write hvotes] at hq
    split at hq
    next heq =>
      have hreject : msg.reject = false := by simpa using hq
      have hgranted := hinbox msg hin htype hreject
      rw [hterm] at hgranted
      exact .inr (heq ▸ hgranted)
    next => exact h (by simp [hstate]) q (GoMap.mem_trueKeys.mpr hq)
  | heed msg => exact fun hno => absurd (heeding_state r msg) hno
  | accept msg log _ _ _ hstate =>
    rw [accepting_eq]
    exact fun hno => absurd hstate hno
  | _ => exact h

theorem Moves.backed (hinbox : ∀ m, inbox m → m.type = .requestVoteResp → m.reject = false →
      granted m.sender m.term) (h : Backed granted r) (hmoves : Moves inbox clock r r') :
    Backed granted r' := by
  induction hmoves with
  | refl => exact h
  | tail _ hmove ih => exact hmove.backed hinbox ih

theorem Move.won (h : r.state = .leader → r.quorum = true) (hmove : Move inbox clock r r') :
    r'.state = .leader → r'.quorum = true := by
  cases hmove with
  | stand => exact fun hno => by cases hno
  | win _ hquorum => exact fun _ => hquorum
  | broadcast _ _ hout =>
    obtain ⟨out, -, rfl⟩ := broadcastHeartbeat_eq hout
    exact h
  | observe => exact fun hno => by cases hno
  | tally _ _ _ _ hstate =>
    intro hno
    change r.state = .leader at hno
    rw [hstate] at hno
    cases hno
  | heed msg =>
    intro hno
    rw [heeding_state] at hno
    cases hno
  | accept msg log =>
    rw [accepting_eq]
    exact h
  | _ => exact h

theorem Moves.won (h : r.state ≠ .leader) (hmoves : Moves inbox clock r r') :
    r'.state = .leader → r'.quorum = true := by
  induction hmoves with
  | refl => exact fun hno => absurd hno h
  | tail _ hmove ih => exact hmove.won ih

end Raft

def Packet.Grants (pk : Packet) (candidate : String) (term : Nat) : Prop :=
  pk.msg.type = .requestVoteResp ∧ pk.msg.isPreVote = false ∧ pk.msg.reject = false ∧
    pk.msg.term = term ∧ pk.msg.recipient = candidate

instance (pk : Packet) (candidate : String) (term : Nat) : Decidable (pk.Grants candidate term) :=
  inferInstanceAs (Decidable (_ ∧ _))

namespace Cluster

variable {w : World} {c : Cluster} {i : String} {stimulus : Stimulus} {input : Input}
variable {via : Option (Nat × Packet)} {n n' : Node}

/-- A response came back under the name of `q` that grants `i` a vote. -/
def GrantedAs (c : Cluster) (i q : String) (term : Nat) : Prop :=
  ∃ pk ∈ c.net, pk.msg.sender = q ∧ pk.Grants i term

theorem stepped_grant (h : (orderly w).Holds c)
    (hinput : c.input i stimulus = some (input, via)) {id : String} {m : Message}
    (hm : input.stepped id = some m) (htype : m.type = .requestVoteResp)
    (hreject : m.reject = false) : c.GrantedAs i m.sender m.term := by
  obtain ⟨k, pk, -, hpk, hdest, hreply, -, rfl⟩ := stepped_response hinput hm (.inl htype)
  have hmem := List.mem_of_getElem? hpk
  obtain ⟨_, req, -, hreq, hrequest, -, hback, -, hrecipient, -⟩ :=
    (h.packet pk hmem).reply hreply
  have horigin := (h.packet req (List.mem_of_getElem? hreq)).request hrequest
  rw [hdest] at hback
  cases hback
  exact ⟨pk, hmem, rfl, htype, (h.packet pk hmem).real, hreject, rfl,
    hrecipient.trans horigin.symm⟩

def counted : Invariant where
  node := fun c i n => Backed (c.GrantedAs i) n.raft
  packet := fun _ _ => True
  seen := fun c i r => r.id = i ∧ Backed (c.GrantedAs i) r
  node_mono := by
    intro c c' i n hextends h
    apply h.mono
    rintro q t ⟨pk, hpk, hgrants⟩
    exact ⟨pk, hextends.mem_net hpk, hgrants⟩
  packet_mono := fun _ h => h
  seen_mono := by
    rintro c c' i r hextends ⟨hid, h⟩
    refine ⟨hid, h.mono ?_⟩
    rintro q t ⟨pk, hpk, hgrants⟩
    exact ⟨pk, hextends.mem_net hpk, hgrants⟩

theorem acted_backed (horderly : (orderly w).Holds c) (h : Backed (c.GrantedAs i) n.raft)
    (hinput : c.input i stimulus = some (input, via)) (hact : n.act w.env input = some n') :
    Backed (c.GrantedAs i) n'.raft := by
  rcases acted_cases horderly hinput hact with ⟨r₁, lastApplied, hmoves, hraft⟩ | ⟨peers, hraft⟩
  · have hbacked := hmoves.backed (fun m hm => stepped_grant horderly hinput hm) h
    rw [hraft]
    exact hbacked
  · rw [hraft]
    exact h

theorem acted_won (horderly : (orderly w).Holds c) (hn : c.node i = some n)
    (hinput : c.input i stimulus = some (input, via)) (hact : n.act w.env input = some n')
    (hold : n.raft.state ≠ .leader) (hlead : n'.raft.state = .leader) :
    n'.raft.quorum = true ∧ n'.raft.peers = n.raft.peers := by
  rcases acted_cases horderly hinput hact with ⟨r₁, lastApplied, hmoves, hraft⟩ | ⟨peers, hraft⟩
  · have hwon := hmoves.won hold
    have hpeers := (hmoves.sends (horderly.node i n hn).drained).2.1
    rw [hraft] at hlead ⊢
    exact ⟨hwon hlead, hpeers⟩
  · rw [hraft] at hlead
    exact absurd hlead hold

theorem counted_kept (w : World) (ok : Cluster → Event → Prop) : counted.Kept w ok where
  boot := by
    intro c i n _ hboot
    obtain ⟨peerAddrs, rfl⟩ := World.boot_eq hboot
    exact ⟨fun hno => absurd rfl hno, rfl, fun hno => absurd rfl hno⟩
  handle := by
    intro c i stimulus n input via n' hreach h _ hn hinput hact
    have hbacked := acted_backed hreach.orderly (h.node i n hn) hinput hact
    have hcompleted : Backed ((c.completed i n' via).GrantedAs i) n'.raft := by
      apply hbacked.mono
      rintro q t ⟨pk, hpk, hgrants⟩
      exact ⟨pk, List.mem_append_left _ hpk, hgrants⟩
    obtain ⟨-, hid, -⟩ := acted_sends hreach.orderly hn hinput hact
    exact ⟨hcompleted, ⟨hid, hcompleted⟩, fun _ _ => trivial⟩
  interrupt := by
    intro c i stimulus n input via n' hreach h _ hn hinput hact
    obtain ⟨-, hid, -⟩ := acted_sends hreach.orderly hn hinput hact
    have hbacked := acted_backed hreach.orderly (h.node i n hn) hinput hact
    exact ⟨hid, hbacked⟩
  crash := by
    intro c c₁ i _ n n' _ _ _ _ hboot _ _
    obtain ⟨peerAddrs, rfl⟩ := World.boot_eq hboot
    exact ⟨fun hno => absurd rfl hno, rfl, fun hno => absurd rfl hno⟩
  dial := fun _ _ _ _ _ _ _ _ _ _ _ _ => trivial
  answer := by
    intro c i call success n n' _ h _ hn hanswer
    obtain ⟨calls, rfl⟩ := Node.answer_frame hanswer
    exact h.node i n hn

/-- Every vote request of `i` in `term` that left went to another node than `i`, and those
that went to one node were meant for one peer. -/
def VotesRouted (c : Cluster) (i : String) (term : Nat) : Prop :=
  ∀ pk ∈ c.net, pk.msg.type = .requestVote → pk.msg.sender = i → pk.msg.term = term →
    pk.dest ≠ some i ∧ ∀ pk' ∈ c.net, pk'.msg.type = .requestVote → pk'.msg.sender = i →
      pk'.msg.term = term → pk.dest ≠ none → pk'.dest = pk.dest →
      pk'.msg.recipient = pk.msg.recipient

instance (c : Cluster) (i : String) (term : Nat) : Decidable (c.VotesRouted i term) :=
  inferInstanceAs (Decidable (∀ pk ∈ c.net, _))

theorem granted_request (h : (orderly w).Holds c) {q : String} {term : Nat}
    (hgranted : c.GrantedAs i q term) :
    ∃ pk ∈ c.net, pk.Grants i term ∧ ∃ req ∈ c.net, req.msg.type = .requestVote ∧
      req.msg.sender = i ∧ req.msg.term = term ∧ req.msg.recipient = q ∧
      req.dest = some pk.origin := by
  obtain ⟨pk, hpk, hsender, hgrants⟩ := hgranted
  obtain ⟨htype, -, hreject, hterm, hrecipient⟩ := id hgrants
  obtain ⟨_, req, -, hreq, hrequest, hdest, -, hname, hback, hanswers⟩ :=
    (h.packet pk hpk).reply (not_isRequest_of_type (.inl htype))
  refine ⟨pk, hpk, hgrants, req, List.mem_of_getElem? hreq, ?_, ?_, ?_, ?_, hdest⟩
  · rcases hanswers.type with ⟨hvote, -⟩ | ⟨-, hno⟩
    · exact hvote
    · rw [htype] at hno
      cases hno
  · rw [← hback, hrecipient]
  · rw [← hanswers.term hreject, hterm]
  · rw [← hname, hsender]

end Cluster

open Cluster

variable {w : World} {c : Cluster} {i : String} {stimulus : Stimulus} {input : Input}
variable {via : Option (Nat × Packet)} {n n' : Node}

theorem leader_has_real_votes {ok : Cluster → Event → Prop} (hreach : Cluster.Reach w ok c)
    (hn : c.node i = some n) (hinput : c.input i stimulus = some (input, via))
    (hact : n.act w.env input = some n') (hold : n.raft.state ≠ .leader)
    (hlead : n'.raft.state = .leader) (hrouted : c.VotesRouted i n'.raft.currentTerm) :
    ∃ voters : Finset String, n'.raft.quorumSize ≤ voters.card ∧ i ∈ voters ∧
      ∀ v ∈ voters, v ≠ i → ∃ pk ∈ c.net, pk.origin = v ∧ pk.Grants i n'.raft.currentTerm := by
  have horderly := hreach.orderly
  have hbacked := acted_backed horderly (((counted_kept w ok).reach hreach).node i n hn) hinput
    hact (by simp [hlead])
  obtain ⟨-, hid, -⟩ := acted_sends horderly hn hinput hact
  have hquorum : n'.raft.quorumSize ≤ n'.raft.votes.trueKeys.card :=
    of_decide_eq_true (acted_won horderly hn hinput hact hold hlead).1
  -- Behind every vote under another name than its own there is a node that sent it.
  have hvoter : ∀ q ∈ n'.raft.votes.trueKeys.erase i, ∃ v, v ≠ i ∧
      (∃ pk ∈ c.net, pk.origin = v ∧ pk.Grants i n'.raft.currentTerm) ∧
      ∃ req ∈ c.net, req.msg.type = .requestVote ∧ req.msg.sender = i ∧
        req.msg.term = n'.raft.currentTerm ∧ req.msg.recipient = q ∧ req.dest = some v := by
    intro q hq
    obtain ⟨hne, hq⟩ := Finset.mem_erase.mp hq
    have hgranted := (hbacked q hq).resolve_left (hid ▸ hne)
    obtain ⟨pk, hpk, hgrants, req, hreq, htype, hsender, hterm, hrecipient, hdest⟩ :=
      granted_request horderly hgranted
    refine ⟨pk.origin, ?_, ⟨pk, hpk, rfl, hgrants⟩, req, hreq, htype, hsender, hterm,
      hrecipient, hdest⟩
    rintro horigin
    exact (hrouted req hreq htype hsender hterm).1 (horigin ▸ hdest)
  choose! voter hself hgrant hrequest using hvoter
  have hinjective : Set.InjOn voter (n'.raft.votes.trueKeys.erase i) := by
    intro q hq q' hq' heq
    obtain ⟨req, hreq, htype, hsender, hterm, hrecipient, hdest⟩ := hrequest q hq
    obtain ⟨req', hreq', htype', hsender', hterm', hrecipient', hdest'⟩ := hrequest q' hq'
    have hsame := (hrouted req hreq htype hsender hterm).2 req' hreq' htype' hsender' hterm'
      (by simp [hdest]) (by rw [hdest, hdest', heq])
    rw [← hrecipient, ← hrecipient', hsame]
  refine ⟨insert i ((n'.raft.votes.trueKeys.erase i).image voter), ?_,
    Finset.mem_insert_self .., ?_⟩
  · have hfresh : i ∉ (n'.raft.votes.trueKeys.erase i).image voter := by
      intro hmem
      obtain ⟨q, hq, heq⟩ := Finset.mem_image.mp hmem
      exact hself q hq heq
    rw [Finset.card_insert_of_notMem hfresh, Finset.card_image_of_injOn hinjective]
    have hcard := Finset.pred_card_le_card_erase (s := n'.raft.votes.trueKeys) (a := i)
    omega
  · intro v hv hne
    obtain ⟨q, hq, rfl⟩ := Finset.mem_image.mp (Finset.mem_of_mem_insert_of_ne hv hne)
    exact hgrant q hq

/-- A wins term 1 with the vote of B. -/
theorem leader_has_real_votes_mesh :
    ∃ c, Cluster.Reach (mesh ["a", "b", "c"] 1 1) (fun _ _ => True) c ∧
      ∃ n ∈ c.node "a", ∃ io ∈ c.input "a" (.packet 3),
        ∃ n' ∈ n.act (mesh ["a", "b", "c"] 1 1).env io.1, n'.raft.state = .leader ∧
          ∃ voters : Finset String, n'.raft.quorumSize ≤ voters.card ∧ "a" ∈ voters ∧
            ∀ v ∈ voters, v ≠ "a" →
              ∃ pk ∈ c.net, pk.origin = v ∧ pk.Grants "a" n'.raft.currentTerm := by
  obtain ⟨c, hreach, n, hn, io, hio, n', hact, hold, hlead, hrouted⟩ :
      ∃ c, Cluster.Reach (mesh ["a", "b", "c"] 1 1) (fun _ _ => True) c ∧
        ∃ n ∈ c.node "a", ∃ io ∈ c.input "a" (.packet 3),
        ∃ n' ∈ n.act (mesh ["a", "b", "c"] 1 1).env io.1, n.raft.state ≠ .leader ∧
          n'.raft.state = .leader ∧ c.VotesRouted "a" n'.raft.currentTerm :=
    Reachable.of_any [.handle "a" .tick, .dial 0, .handle "b" (.packet 2)] rfl
  have hvoters := leader_has_real_votes hreach hn hio hact hold hlead hrouted
  exact ⟨c, hreach, n, hn, io, hio, n', hact, hlead, hvoters⟩

/-- Nodes that know nobody at first. The address that a server advertises by default is
an address of whoever dials it. -/
def strangers (members : List String) (electionTimeout heartbeatTimeout : Int) : World :=
  { mesh members electionTimeout heartbeatTimeout with
    env :=
      { (mesh members electionTimeout heartbeatTimeout).env with
        dial := fun i addr => if addr = "[::]:9000" then i else addr }
    peers := fun _ => [] }

/-- A hears of B under the default address, stands, and gets its own vote as that of B. -/
theorem own_vote_counted_twice :
    ∃ c, Cluster.Reach (strangers ["a", "b"] 1 1) (fun _ _ => True) c ∧
      ∃ n ∈ c.node "a", ∃ io ∈ c.input "a" (.packet 2),
        ∃ n' ∈ n.act (strangers ["a", "b"] 1 1).env io.1, n.raft.state ≠ .leader ∧
          n'.raft.state = .leader ∧
          ¬ ∃ voters : Finset String, n'.raft.quorumSize ≤ voters.card ∧ "a" ∈ voters ∧
            ∀ v ∈ voters, v ≠ "a" →
              ∃ pk ∈ c.net, pk.origin = v ∧ pk.Grants "a" n'.raft.currentTerm := by
  obtain ⟨c, hreach, n, hn, io, hio, n', hact, hold, hlead, hsize, hown⟩ :
      ∃ c, Cluster.Reach (strangers ["a", "b"] 1 1) (fun _ _ => True) c ∧
        ∃ n ∈ c.node "a", ∃ io ∈ c.input "a" (.packet 2),
        ∃ n' ∈ n.act (strangers ["a", "b"] 1 1).env io.1, n.raft.state ≠ .leader ∧
          n'.raft.state = .leader ∧ n'.raft.quorumSize = 2 ∧
          ∀ pk ∈ c.net, pk.Grants "a" n'.raft.currentTerm → pk.origin = "a" :=
    Reachable.of_any
      [.handle "a" (.join "b" "[::]:9000"), .handle "a" .tick, .dial 0,
        .handle "a" (.packet 1)] rfl
  refine ⟨c, hreach, n, hn, io, hio, n', hact, hold, hlead, ?_⟩
  rintro ⟨voters, hcard, -, hvoters⟩
  have hsub : voters ⊆ {"a"} := by
    intro v hv
    rw [Finset.mem_singleton]
    by_contra hne
    obtain ⟨pk, hpk, horigin, hgrants⟩ := hvoters v hv hne
    exact hne (horigin.symm.trans (hown pk hpk hgrants))
  have hle := Finset.card_le_card hsub
  rw [Finset.card_singleton] at hle
  omega

end Phalanx
