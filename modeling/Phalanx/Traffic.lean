import Phalanx.Invariant
import Phalanx.Refinement.Node

/-! What holds in every run, whoever the peers are and wherever the addresses lead:
no pre-vote is ever sent, every response answers a request that reached its sender,
and a node keeps its own ID and has saved its term and its vote. -/
namespace Phalanx

open Go Raft

structure Answers (msg m : Message) : Prop where
  type : msg.type = .requestVote ∧ m.type = .requestVoteResp ∨
    msg.type = .appendEntries ∧ m.type = .appendEntriesResp
  term : m.reject = false → m.term = msg.term

structure Sends (inbox : Message → Prop) (r : Raft) (m : Message) : Prop where
  real : m.isPreVote = false
  sender : m.sender = r.id
  kind : m.isRequest = true ∧ m.recipient ∈ r.peers ∨
    m.isRequest = false ∧ ∃ msg, inbox msg ∧ Answers msg m

namespace Raft

variable {inbox : Message → Prop} {clock : Nat → Prop} {r r' : Raft}

theorem isRequest_of_type {m : Message} (h : m.type = .requestVote ∨ m.type = .appendEntries) :
    m.isRequest = true := by
  unfold Message.isRequest
  rcases h with h | h <;> simp [h]

theorem not_isRequest_of_type {m : Message}
    (h : m.type = .requestVoteResp ∨ m.type = .appendEntriesResp) : m.isRequest = false := by
  unfold Message.isRequest
  rcases h with h | h <;> simp [h]

theorem broadcast_sends {out : List Message} (hout : r.peers.mapM r.appendEntriesFor = some out)
    {m : Message} (hm : m ∈ out) : Sends inbox r m := by
  obtain ⟨peer, hpeer, hfor⟩ := exists_of_mem_mapM hout hm
  obtain ⟨entries, rfl⟩ := appendEntriesFor_eq hfor
  exact ⟨rfl, rfl, .inl ⟨isRequest_of_type (.inr rfl), hpeer⟩⟩

theorem Move.sends (hmove : Move inbox clock r r') :
    r'.id = r.id ∧ r'.peers = r.peers ∧ ∀ m ∈ r'.msgs, m ∈ r.msgs ∨ Sends inbox r m := by
  have hadd : ∀ {m₀ : Message}, Sends inbox r m₀ → ∀ m ∈ r.msgs ++ [m₀],
      m ∈ r.msgs ∨ Sends inbox r m := by
    intro m₀ h₀ m hm
    rcases List.mem_append.mp hm with hold | hnew
    · exact .inl hold
    · rw [List.mem_singleton.mp hnew]
      exact .inr h₀
  cases hmove with
  | canvass hstate =>
    refine ⟨rfl, rfl, ?_⟩
    intro m hm
    rcases List.mem_append.mp hm with hold | hnew
    · exact .inl hold
    · obtain ⟨peer, hpeer, rfl⟩ := List.mem_map.mp hnew
      exact .inr ⟨rfl, rfl, .inl ⟨isRequest_of_type (.inl rfl), hpeer⟩⟩
  | broadcast _ hstate h =>
    obtain ⟨out, hout, rfl⟩ := broadcastHeartbeat_eq h
    refine ⟨rfl, rfl, ?_⟩
    intro m hm
    rcases List.mem_append.mp hm with hold | hnew
    · exact .inl hold
    · exact .inr (broadcast_sends hout hnew)
  | refuse msg reply hin hsender hrecipient hterm htype hreal hreject =>
    refine ⟨rfl, rfl, hadd ⟨hreal, hsender, .inr ⟨not_isRequest_of_type ?_, msg, hin, htype, ?_⟩⟩⟩
    · exact htype.imp (·.2) (·.2)
    · simp [hreject]
  | grant msg hin htype hterm hidle hvote hlog =>
    exact ⟨rfl, rfl, hadd ⟨rfl, rfl, .inr ⟨not_isRequest_of_type (.inl rfl), msg, hin,
      .inl ⟨htype, rfl⟩, fun _ => hterm.symm⟩⟩⟩
  | heed msg =>
    unfold heeding
    split <;> exact ⟨rfl, rfl, fun m hm => .inl hm⟩
  | accept msg log hin htype hterm hstate hactive hpasses hlog =>
    rw [accepting_eq]
    exact ⟨rfl, rfl, hadd ⟨rfl, rfl, .inr ⟨not_isRequest_of_type (.inr rfl), msg, hin,
      .inr ⟨htype, rfl⟩, fun _ => hterm.symm⟩⟩⟩
  | _ => exact ⟨rfl, rfl, fun m hm => .inl hm⟩

theorem Moves.sends (hmoves : Moves inbox clock r r') (hempty : r.msgs = []) :
    r'.id = r.id ∧ r'.peers = r.peers ∧ ∀ m ∈ r'.msgs, Sends inbox r m := by
  induction hmoves with
  | refl => exact ⟨rfl, rfl, by simp [hempty]⟩
  | @tail r₁ r₂ _ hmove ih =>
    obtain ⟨hid, hpeers, hmsgs⟩ := hmove.sends
    refine ⟨hid.trans ih.1, hpeers.trans ih.2.1, ?_⟩
    intro m hm
    rcases hmsgs m hm with hold | ⟨hreal, hsender, hkind⟩
    · exact ih.2.2 m hold
    · exact ⟨hreal, hsender.trans ih.1, by rwa [ih.2.1] at hkind⟩

end Raft

theorem Message.received_frame {msg : Message} (h : msg.isRequest = true) (id : String) :
    (msg.received id).type = msg.type ∧ (msg.received id).sender = msg.sender ∧
      (msg.received id).term = msg.term ∧
      (msg.isPreVote = false → (msg.received id).isPreVote = false) := by
  have htype : msg.type = .appendEntries ∨ msg.type = .requestVote := of_decide_eq_true h
  unfold Message.received
  split
  next heq => exact ⟨heq.symm, rfl, rfl, fun _ => rfl⟩
  next hne => exact ⟨(htype.resolve_left hne).symm, rfl, rfl, fun h => h⟩

theorem Message.answered_frame (msg m : Message) :
    (msg.answered m).sender = msg.recipient ∧ (msg.answered m).recipient = msg.sender ∧
      (msg.answered m).term = m.term ∧ (msg.answered m).reject = m.reject := by
  unfold Message.answered
  split <;> exact ⟨rfl, rfl, rfl, rfl⟩

theorem Message.answered_isRequest (msg m : Message) : (msg.answered m).isRequest = false := by
  unfold Message.answered
  split <;> rfl

namespace Cluster

variable {w : World} {c : Cluster} {i : String} {stimulus : Stimulus} {input : Input}
variable {via : Option (Nat × Packet)} {n n' : Node}

theorem stepped_packet (hinput : c.input i stimulus = some (input, via)) {id : String}
    {m : Message} (hm : input.stepped id = some m) :
    ∃ k pk, stimulus = .packet k ∧ via = some (k, pk) ∧ c.net[k]? = some pk ∧
      pk.dest = some i ∧
      (pk.msg.isRequest = true ∧ input = .request pk.msg ∧ m = pk.msg.received id ∨
        pk.msg.isRequest = false ∧ input = .response pk.msg ∧ m = pk.msg) := by
  rcases input_cases hinput with ⟨-, -, rfl⟩ | ⟨data, -, -, rfl⟩ | ⟨a, b, -, -, rfl⟩ |
    ⟨k, pk, hstimulus, hpk, hdest, hvia, rfl⟩
  · cases hm
  · cases hm
  · cases hm
  · refine ⟨k, pk, hstimulus, hvia, hpk, hdest, ?_⟩
    cases hrequest : pk.msg.isRequest with
    | true =>
      rw [hrequest] at hm
      exact .inl ⟨rfl, rfl, (Option.some.inj hm).symm⟩
    | false =>
      rw [hrequest] at hm
      exact .inr ⟨rfl, rfl, (Option.some.inj hm).symm⟩

theorem stepped_response (hinput : c.input i stimulus = some (input, via)) {id : String}
    {m : Message} (hm : input.stepped id = some m)
    (htype : m.type = .requestVoteResp ∨ m.type = .appendEntriesResp) :
    ∃ k pk, stimulus = .packet k ∧ c.net[k]? = some pk ∧ pk.dest = some i ∧
      pk.msg.isRequest = false ∧ input = .response pk.msg ∧ m = pk.msg := by
  obtain ⟨k, pk, hstimulus, -, hk, hdest, ⟨hrequest, -, rfl⟩ | hreply⟩ := stepped_packet hinput hm
  · rw [(Message.received_frame hrequest id).1] at htype
    rw [not_isRequest_of_type htype] at hrequest
    cases hrequest
  · exact ⟨k, pk, hstimulus, hk, hdest, hreply⟩

theorem input_ne_tick (hstimulus : stimulus ≠ .tick)
    (hinput : c.input i stimulus = some (input, via)) : input ≠ .tick := by
  rcases input_cases hinput with ⟨-, htick, -⟩ | ⟨_, -, -, rfl⟩ | ⟨_, _, -, -, rfl⟩ |
    ⟨_, pk, -, -, -, -, rfl⟩
  · exact absurd htick hstimulus
  · exact nofun
  · exact nofun
  · split <;> exact nofun

/-- Where a packet comes from. -/
structure Mailed (c : Cluster) (pk : Packet) : Prop where
  real : pk.msg.isPreVote = false
  request : pk.msg.isRequest = true → pk.origin = pk.msg.sender
  reply : pk.msg.isRequest = false → ∃ k req, pk.cause = some k ∧ c.net[k]? = some req ∧
    req.msg.isRequest = true ∧ req.dest = some pk.origin ∧ pk.dest = some req.origin ∧
    pk.msg.sender = req.msg.recipient ∧ pk.msg.recipient = req.msg.sender ∧
    Answers req.msg pk.msg

structure Housed (w : World) (c : Cluster) (i : String) (n : Node) : Prop where
  member : i ∈ w.members
  id : n.id = i
  raftId : n.raft.id = i
  drained : n.raft.msgs = []
  term : n.store.term = n.raft.currentTerm
  vote : n.store.votedFor = n.raft.votedFor
  log : n.store.log = []
  now : (i, n.raft) ∈ c.hist

def orderly (w : World) : Invariant where
  node := Housed w
  packet := Mailed
  seen := fun _ i _ => i ∈ w.members
  node_mono := fun hextends h => { h with now := hextends.mem_hist h.now }
  packet_mono := by
    intro c c' pk hextends h
    refine { h with reply := fun hreply => ?_ }
    obtain ⟨k, req, hcause, hk, hrest⟩ := h.reply hreply
    exact ⟨k, req, hcause, hextends.packet hk, hrest⟩
  seen_mono := fun _ h => h

theorem housed_boot (hi : i ∈ w.members) {store : Store} (hlog : store.log = [])
    (hboot : w.boot i store = some n) : Housed w (c.setNode i n) i n := by
  obtain ⟨peerAddrs, rfl⟩ := World.boot_eq hboot
  exact { member := hi, id := rfl, raftId := rfl, drained := rfl, term := rfl, vote := rfl
          log := hlog, now := List.mem_append_right _ (List.mem_singleton.mpr rfl) }

theorem stepped_real (h : (orderly w).Holds c) (hinput : c.input i stimulus = some (input, via))
    {id : String} {m : Message} (hm : input.stepped id = some m) : m.isPreVote = false := by
  obtain ⟨k, pk, -, -, hpk, -, ⟨hrequest, -, rfl⟩ | ⟨-, -, rfl⟩⟩ := stepped_packet hinput hm
  · have hreal := (h.packet pk (List.mem_of_getElem? hpk)).real
    exact (Message.received_frame hrequest id).2.2.2 hreal
  · exact (h.packet pk (List.mem_of_getElem? hpk)).real

theorem acted_closes (h : (orderly w).Holds c) (hinput : c.input i stimulus = some (input, via))
    (hjoin : ∀ a b, input ≠ .join a b) (hact : n.act w.env input = some n') :
    ∃ r, Moves (fun m => input.stepped n.id = some m)
      (fun t => input = .tick ∧ t = n.raft.currentTerm) n.raft r ∧ Node.Closes w.env n r n' :=
  Node.act_closes hjoin (fun htick => ⟨htick, rfl⟩) (fun _ hm => stepped_real h hinput hm)
    (fun _ hm => reply_of_input hinput hm) hact

theorem acted_moves (h : (orderly w).Holds c) (hinput : c.input i stimulus = some (input, via))
    (hjoin : ∀ a b, input ≠ .join a b) (hact : n.act w.env input = some n') :
    (∃ r₁ lastApplied, Moves (fun m => input.stepped n.id = some m)
      (fun t => input = .tick ∧ t = n.raft.currentTerm) n.raft r₁ ∧
      n'.raft = { r₁ with lastApplied }) ∧ Node.SameHost n n' := by
  obtain ⟨r, hmoves, hcloses⟩ := acted_closes h hinput hjoin hact
  obtain ⟨⟨lastApplied, hraft⟩, hsame⟩ := hcloses.frame
  exact ⟨⟨r, lastApplied, hmoves, hraft⟩, hsame⟩

theorem act_join {nodeID raftAddr : String}
    (hact : n.act w.env (.join nodeID raftAddr) = some n') :
    ∃ peerAddrs, n' = { n with raft := n.raft.addPeer nodeID, peerAddrs } := by
  obtain ⟨peerAddrs, -, hact⟩ := Option.bind_eq_some_iff.mp hact
  cases hact
  exact ⟨peerAddrs, rfl⟩

/-- A discovery event touches the peers of the instance at most; any other handler makes moves
and then advances `lastApplied` at most. -/
theorem acted_cases (h : (orderly w).Holds c) (hinput : c.input i stimulus = some (input, via))
    (hact : n.act w.env input = some n') :
    (∃ r₁ lastApplied, Moves (fun m => input.stepped n.id = some m)
      (fun t => input = .tick ∧ t = n.raft.currentTerm) n.raft r₁ ∧
      n'.raft = { r₁ with lastApplied }) ∨ ∃ peers, n'.raft = { n.raft with peers } := by
  by_cases hjoin : ∀ a b, input ≠ .join a b
  · exact .inl (acted_moves h hinput hjoin hact).1
  · push Not at hjoin
    obtain ⟨a, b, rfl⟩ := hjoin
    obtain ⟨peerAddrs, rfl⟩ := act_join hact
    exact .inr ⟨_, (addPeer_frame n.raft a).1⟩

theorem acted_sends (h : (orderly w).Holds c) (hn : c.node i = some n)
    (hinput : c.input i stimulus = some (input, via)) (hact : n.act w.env input = some n') :
    n'.id = i ∧ n'.raft.id = i ∧ n'.store = n.store ∧ (∀ p ∈ n.raft.peers, p ∈ n'.raft.peers) ∧
      ∀ m ∈ n'.raft.msgs, Sends (fun m => input.stepped i = some m) n'.raft m := by
  have hhoused := h.node i n hn
  by_cases hjoin : ∀ a b, input ≠ .join a b
  · obtain ⟨⟨r₁, lastApplied, hmoves, hraft⟩, hsame⟩ := acted_moves h hinput hjoin hact
    obtain ⟨hid, hpeers, hmsgs⟩ := hmoves.sends hhoused.drained
    rw [hhoused.id] at hmsgs
    rw [hraft]
    refine ⟨hsame.id.trans hhoused.id, hid.trans hhoused.raftId, hsame.store, ?_, ?_⟩
    · intro p hp
      change p ∈ r₁.peers
      rwa [hpeers]
    · intro m hm
      obtain ⟨hreal, hsender, hkind⟩ := hmsgs m hm
      exact ⟨hreal, hsender.trans hid.symm, by rwa [← hpeers] at hkind⟩
  · push Not at hjoin
    obtain ⟨a, b, rfl⟩ := hjoin
    obtain ⟨peerAddrs, rfl⟩ := act_join hact
    obtain ⟨hframe, hpeers⟩ := addPeer_frame n.raft a
    refine ⟨hhoused.id, ?_, rfl, hpeers, ?_⟩
    · rw [hframe]
      exact hhoused.raftId
    · intro m hm
      rw [hframe] at hm
      change m ∈ n.raft.msgs at hm
      rw [hhoused.drained] at hm
      cases hm

theorem acted_response (h : (orderly w).Holds c) (hn : c.node i = some n)
    (hinput : c.input i stimulus = some (input, via)) (hact : n.act w.env input = some n')
    {m : Message} (hm : m ∈ n'.raft.msgs) (htype : m.type = .appendEntriesResp) :
    ∃ msg r lastApplied, input.stepped i = some msg ∧ msg.type = .appendEntries ∧
      n.raft.step msg = some r ∧ n'.raft = { r with lastApplied } := by
  obtain ⟨-, -, -, -, hsends⟩ := acted_sends h hn hinput hact
  obtain ⟨msg, hin, hanswers⟩ : ∃ msg, input.stepped i = some msg ∧ Answers msg m := by
    rcases (hsends m hm).kind with ⟨hno, -⟩ | ⟨-, hreply⟩
    · rw [not_isRequest_of_type (.inr htype)] at hno
      cases hno
    · exact hreply
  have hmsg : msg.type = .appendEntries := by
    rcases hanswers.type with ⟨-, hno⟩ | ⟨hyes, -⟩
    · rw [htype] at hno
      cases hno
    · exact hyes
  obtain ⟨r, lastApplied, hperforms, hraft, -⟩ := Node.act_performs hact
  refine ⟨msg, r, lastApplied, hin, hmsg, ?_, hraft⟩
  cases hperforms with
  | tick => cases hin
  | propose => cases hin
  | join => cases hin
  | step hstepped hstep =>
    rw [(h.node i n hn).id] at hstepped
    cases hin.symm.trans hstepped
    exact hstep

theorem mailed_emitted (h : (orderly w).Holds c) (hn : c.node i = some n)
    (hinput : c.input i stimulus = some (input, via)) (hact : n.act w.env input = some n')
    {pk : Packet} (hpk : pk ∈ emitted i n'.raft.msgs via) : Mailed c pk := by
  obtain ⟨hid, hraftId, -, -, hsends⟩ := acted_sends h hn hinput hact
  rcases mem_emitted hpk with ⟨m, hm, hrequest, rfl⟩ | ⟨k, req, m, rfl, hrequest, hm, hreply, rfl⟩
  · obtain ⟨hreal, hsender, -⟩ := hsends m hm
    refine ⟨hreal, fun _ => (hsender.trans hraftId).symm, fun hno => ?_⟩
    rw [hrequest] at hno
    cases hno
  · obtain ⟨hreal, hsender, hkind⟩ := hsends m hm
    obtain ⟨hrecipient, htypes⟩ := of_decide_eq_true hreply
    obtain ⟨hsender', hrecipient', hterm', hreject'⟩ := Message.answered_frame req.msg m
    have hnot : m.isRequest = false := not_isRequest_of_type (htypes.imp (·.2) (·.2)).symm
    obtain ⟨-, msg, hin, htype, hterm⟩ := hkind.resolve_left (by simp [hnot])
    obtain ⟨k', pk', -, hvia, hk, hdest, hcase⟩ := stepped_packet hinput hin
    cases hvia
    obtain ⟨-, -, rfl⟩ := hcase.resolve_right (by simp [hrequest])
    obtain ⟨htypeR, hsenderR, htermR, -⟩ := Message.received_frame hrequest i
    rw [htypeR] at htype
    rw [htermR] at hterm
    have hanswers : Answers req.msg (req.msg.answered m) ∧
        (req.msg.answered m).isPreVote = false := by
      refine ⟨⟨?_, fun hno => hterm'.trans (hterm (hreject'.symm.trans hno))⟩, ?_⟩
      · unfold Message.answered
        split
        next heq => exact .inr ⟨heq, rfl⟩
        next hne => exact .inl ⟨(htype.resolve_right (fun h => hne h.1)).1, rfl⟩
      · unfold Message.answered
        split
        · rfl
        · exact hreal
    refine ⟨hanswers.2, fun hyes => ?_, fun _ => ?_⟩
    · rw [not_isRequest_of_type (hanswers.1.type.imp (·.2) (·.2))] at hyes
      cases hyes
    · exact ⟨k, req, rfl, hk, hrequest, hdest, rfl, hsender', hrecipient', hanswers.1⟩

theorem orderly_kept (w : World) (ok : Cluster → Event → Prop) : (orderly w).Kept w ok where
  boot := fun c i n hi hboot => ⟨housed_boot hi rfl hboot, hi⟩
  handle := by
    intro c i stimulus n input via n' _ h _ hn hinput hact
    have hhoused := h.node i n hn
    obtain ⟨hid, hraftId, hstore, -⟩ := acted_sends h hn hinput hact
    refine ⟨?_, hhoused.member, fun pk hpk => ?_⟩
    · refine { member := hhoused.member, id := hid, raftId := hraftId, drained := rfl, term := rfl
               vote := rfl, log := ?_, now := ?_ }
      · change n'.store.log = []
        rw [hstore]
        exact hhoused.log
      · exact List.mem_append_right _ (List.mem_singleton.mpr rfl)
    · exact (orderly w).packet_mono (extends_completed c i n' via)
        (mailed_emitted h hn hinput hact hpk)
  interrupt := fun c i _ n _ _ _ _ h _ hn _ _ => (h.node i n hn).member
  crash := by
    intro c c₁ i during n n' _ h _ hn hboot _ _
    have hhoused := h.node i n hn
    exact ⟨housed_boot hhoused.member hhoused.log hboot, hhoused.member⟩
  dial := by
    intro c k pk n dest _ h _ hk _ hnone _
    have hmailed := h.packet pk (List.mem_of_getElem? hk)
    refine ⟨hmailed.real, hmailed.request, fun hno => ?_⟩
    obtain ⟨k', req, -, -, -, -, hdest, -⟩ := hmailed.reply hno
    rw [hnone] at hdest
    cases hdest
  answer := by
    intro c i call success n n' _ h _ hn hanswer
    have hhoused := h.node i n hn
    obtain ⟨calls, rfl⟩ := Node.answer_frame hanswer
    exact { hhoused with }

theorem Reach.orderly {ok : Cluster → Event → Prop} (h : Reach w ok c) :
    (Cluster.orderly w).Holds c := (orderly_kept w ok).reach h

end Cluster
end Phalanx
