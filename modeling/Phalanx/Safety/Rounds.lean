import Phalanx.Raft.Operations
import Phalanx.Raft.Timers
import Phalanx.Traffic

/-! What the count behind `HasLeaderQuorum` stands for, over the time that one leader is in
office. The code keeps a number where the rule speaks of a set of nodes and of a round:
a reply that comes late or twice is counted like any other. -/
namespace Phalanx

open Raft

/-- A leader in office, with every AppendEntries it sent, how many it had sent when it last
reset its count, and the replies it was stepped with, each with the number of its request. -/
structure Office where
  raft : Raft
  sent : List Message
  mark : Nat := 0
  heard : List (Nat × Message) := []

inductive Duty where
  | tick
  | propose (data : List UInt8)
  /-- The reply `answer` to AppendEntries number `k` comes back. -/
  | reply (k : Nat) (answer : Message)
deriving DecidableEq

namespace Office

def dispatch (s : Office) (raft : Raft) (mark : Nat) : Office :=
  { s with raft := raft.messages.2, sent := s.sent ++ raft.messages.1, mark }

def hears (s : Office) (raft : Raft) (k : Nat) (response : Message) : Office :=
  { s.dispatch raft s.mark with heard := s.heard ++ [(k, response)] }

def elected (candidate : Raft) : Option Office := do
  let raft ← { candidate with msgs := [] }.becomeLeader
  pure { raft := raft.messages.2, sent := raft.messages.1 }

def perform (s : Office) (duty : Duty) : Option Office :=
  if s.raft.state ≠ .leader then none
  else match duty with
    | .tick => do
      let raft ← s.raft.tick
      let due := s.raft.heartbeatTimeout ≤ s.raft.heartbeatElapsed + 1
      pure (s.dispatch raft (if due then s.sent.length else s.mark))
    | .propose data => do
      let result ← s.raft.propose data
      pure (s.dispatch result.2 s.mark)
    | .reply k answer => do
      let request ← s.sent[k]?
      let raft ← s.raft.step (request.answered answer)
      pure (s.hears raft k (request.answered answer))

abbrev Run (candidate : Raft) (ok : Office → Duty → Prop) : Office → Prop :=
  Reachable (elected candidate) perform ok

/-- A success of this term in reply to something sent since the last reset. -/
def acknowledges (s : Office) (reply : Nat × Message) : Bool :=
  s.mark ≤ reply.1 ∧ reply.2.reject = false ∧ reply.2.term = s.raft.currentTerm

def acks (s : Office) : Finset String :=
  ((s.heard.filter s.acknowledges).map fun reply => reply.2.sender).toFinset

/-- A reply that counts is to a request of this round and the first of its node, which is
not the leader itself. -/
def Fresh (s : Office) : Duty → Prop
  | .reply k answer => ∀ request ∈ s.sent[k]?, answer.reject = false →
      answer.term = s.raft.currentTerm →
      s.mark ≤ k ∧ request.recipient ≠ s.raft.id ∧ request.recipient ∉ s.acks
  | _ => True

instance (s : Office) : (duty : Duty) → Decidable (s.Fresh duty)
  | .reply k _ => inferInstanceAs (Decidable (∀ request ∈ s.sent[k]?, _))
  | .tick | .propose _ => inferInstanceAs (Decidable True)

variable {s s' : Office} {candidate : Raft}

theorem mem_acks {p : String} :
    p ∈ s.acks ↔ ∃ reply ∈ s.heard, s.acknowledges reply = true ∧ reply.2.sender = p := by
  simp only [acks, List.mem_toFinset, List.mem_map, List.mem_filter, and_assoc]

/-- The count is covered by different nodes, none of them the leader. -/
structure Counted (s : Office) : Prop where
  drained : s.raft.msgs = []
  requests : ∀ m ∈ s.sent, m.type = .appendEntries
  mark : s.mark ≤ s.sent.length
  answers : ∀ reply ∈ s.heard, ∃ request, s.sent[reply.1]? = some request ∧
    request.recipient = reply.2.sender
  self : s.raft.state = .leader → s.raft.id ∉ s.acks
  acked : s.raft.state = .leader → s.raft.heartbeatAcked ≤ 1 + s.acks.card

theorem broadcastHeartbeat_requests {r r' : Raft} (h : r.broadcastHeartbeat = some r')
    (hempty : r.msgs = []) : ∀ m ∈ r'.msgs, m.type = .appendEntries := by
  obtain ⟨out, hout, rfl⟩ := broadcastHeartbeat_eq h
  intro m hm
  rw [hempty] at hm
  obtain ⟨peer, -, hfor⟩ := exists_of_mem_mapM hout hm
  obtain ⟨entries, rfl⟩ := appendEntriesFor_eq hfor
  rfl

theorem Counted.sends (h : s.Counted) {raft : Raft}
    (hout : ∀ m ∈ raft.msgs, m.type = .appendEntries) :
    ∀ m ∈ s.sent ++ raft.msgs, m.type = .appendEntries := by
  intro m hm
  rcases List.mem_append.mp hm with hold | hnew
  · exact h.requests m hold
  · exact hout m hnew

theorem Counted.answered (h : s.Counted) (out : List Message) :
    ∀ reply ∈ s.heard, ∃ request, (s.sent ++ out)[reply.1]? = some request ∧
      request.recipient = reply.2.sender := by
  intro reply hreply
  obtain ⟨request, hrequest, hrecipient⟩ := h.answers reply hreply
  refine ⟨request, ?_, hrecipient⟩
  rw [List.getElem?_append_left (List.getElem?_eq_some_iff.mp hrequest).1, hrequest]

theorem acks_subset (hheard : s'.heard = s.heard) (hmark : s.mark ≤ s'.mark)
    (hterm : s'.raft.currentTerm = s.raft.currentTerm) : s'.acks ⊆ s.acks := by
  intro p hp
  obtain ⟨reply, hreply, hack, hsender⟩ := mem_acks.mp hp
  rw [hheard] at hreply
  obtain ⟨hlate, hsuccess, hsame⟩ := of_decide_eq_true hack
  exact mem_acks.mpr ⟨reply, hreply, decide_eq_true ⟨hmark.trans hlate, hsuccess,
    hsame.trans hterm⟩, hsender⟩

theorem elected_counted (h : elected candidate = some s) : s.Counted := by
  obtain ⟨raft, hraft, h⟩ := Option.bind_eq_some_iff.mp h
  cases h
  have hcrowned : (crowned { candidate with msgs := [] }).broadcastHeartbeat = some raft := hraft
  refine ⟨rfl, broadcastHeartbeat_requests hcrowned rfl, Nat.zero_le _, nofun, ?_, ?_⟩
  · exact fun _ => by simp [acks]
  · obtain ⟨out, -, rfl⟩ := broadcastHeartbeat_eq hcrowned
    exact fun _ => by simp [messages, crowned]

theorem acks_congr (hheard : s'.heard = s.heard) (hmark : s'.mark = s.mark)
    (hterm : s'.raft.currentTerm = s.raft.currentTerm) : s'.acks = s.acks := by
  have hsame : s'.acknowledges = s.acknowledges := by
    funext reply
    unfold acknowledges
    rw [hmark, hterm]
  unfold acks
  rw [hheard, hsame]

theorem mem_acks_hears {raft : Raft} {k : Nat} {response : Message} {p : String}
    (hterm : raft.currentTerm = s.raft.currentTerm) :
    p ∈ (s.hears raft k response).acks ↔
      p ∈ s.acks ∨ s.acknowledges (k, response) = true ∧ response.sender = p := by
  have hsame : (s.hears raft k response).acknowledges = s.acknowledges := by
    funext reply
    unfold acknowledges
    rw [show (s.hears raft k response).raft.currentTerm = raft.currentTerm from rfl, hterm]
    rfl
  rw [mem_acks, mem_acks, hsame]
  change (∃ reply ∈ s.heard ++ [(k, response)], _) ↔ _
  simp [or_and_right, exists_or]

theorem Counted.dispatch (h : s.Counted) {raft : Raft} {mark : Nat} (hid : raft.id = s.raft.id)
    (hterm : raft.currentTerm = s.raft.currentTerm)
    (hout : ∀ m ∈ raft.msgs, m.type = .appendEntries) (hlead : s.raft.state = .leader)
    (hcount : mark = s.mark ∧ raft.heartbeatAcked = s.raft.heartbeatAcked ∨
      mark = s.sent.length ∧ raft.heartbeatAcked = 1) : (s.dispatch raft mark).Counted where
  drained := rfl
  requests := h.sends hout
  mark := by
    have hmark := h.mark
    change mark ≤ (s.sent ++ _).length
    rw [List.length_append]
    omega
  answers := h.answered raft.msgs
  self := by
    have hmark := h.mark
    have hsub : (s.dispatch raft mark).acks ⊆ s.acks :=
      acks_subset rfl (show s.mark ≤ mark by omega) hterm
    intro _ hself
    change raft.id ∈ _ at hself
    rw [hid] at hself
    exact h.self hlead (hsub hself)
  acked := by
    intro _
    change raft.heartbeatAcked ≤ _
    rcases hcount with ⟨hsame, hacked⟩ | ⟨-, hreset⟩
    · have hsub : (s.dispatch raft mark).acks = s.acks := acks_congr rfl hsame hterm
      rw [hsub, hacked]
      exact h.acked hlead
    · rw [hreset]
      omega

theorem tick_counted (h : s.Counted) (hlead : s.raft.state = .leader) {raft : Raft}
    (htick : s.raft.tick = some raft) :
    (s.dispatch raft (if s.raft.heartbeatTimeout ≤ s.raft.heartbeatElapsed + 1 then s.sent.length
      else s.mark)).Counted := by
  have hmoves : Moves (fun _ => False) (fun _ => True) s.raft raft := tick_moves trivial htick
  obtain ⟨-, hterm, hpaced⟩ := tick_paced hlead htick
  have hout : ∀ m ∈ raft.msgs, m.type = .appendEntries := by
    rcases tick_cases htick with ⟨-, htick⟩ | ⟨hno, -⟩
    · unfold tickHeartbeat at htick
      simp only at htick
      split at htick
      · exact broadcastHeartbeat_requests htick h.drained
      · cases htick
        intro m hm
        rw [show ({ s.raft with heartbeatElapsed := _ } : Raft).msgs = s.raft.msgs from rfl,
          h.drained] at hm
        cases hm
    · exact absurd hlead hno
  refine h.dispatch hmoves.same.id hterm hout hlead ?_
  rcases hpaced with ⟨hdue, -, hacked⟩ | ⟨hearly, -, hacked⟩
  · exact .inr ⟨if_pos hdue, hacked⟩
  · exact .inl ⟨if_neg (by omega), hacked⟩

theorem propose_counted (h : s.Counted) (hlead : s.raft.state = .leader) {data : List UInt8}
    {index : Option Nat} {raft : Raft} (hpropose : s.raft.propose data = some (index, raft)) :
    (s.dispatch raft s.mark).Counted := by
  rcases propose_cases hpropose with ⟨-, rfl⟩ | ⟨-, -, matchIndex, -, hcast⟩
  · refine h.dispatch rfl rfl ?_ hlead (.inl ⟨rfl, rfl⟩)
    rw [h.drained]
    exact nofun
  · have hout := broadcastHeartbeat_requests hcast h.drained
    obtain ⟨out, -, rfl⟩ := broadcastHeartbeat_eq hcast
    exact h.dispatch rfl rfl hout hlead (.inl ⟨rfl, rfl⟩)

theorem step_response_msgs {r r' : Raft} {msg : Message} (htype : msg.type = .appendEntriesResp)
    (hstep : r.step msg = some r') : r'.msgs = r.msgs := by
  obtain ⟨r₁, hr₁, hresp⟩ := Option.bind_eq_some_iff.mp hstep
  rw [handle, htype] at hresp
  have hobserve : r₁.msgs = r.msgs := by
    rcases observeTerm_cases hr₁ with rfl | ⟨-, leaderID, rfl⟩ <;> rfl
  rw [← hobserve]
  rcases handleAppendEntriesResp_cases hresp with ⟨rfl, -⟩ | ⟨-, -, -, -, -, -, rfl⟩ |
    ⟨-, -, -, matchIndex, nextIndex, -, rfl⟩
  · rfl
  · rfl
  · rw [maybeAdvanceCommit_frame]

theorem reply_counted (h : s.Counted) (hlead : s.raft.state = .leader) {k : Nat}
    {answer request : Message} {raft : Raft} (hfresh : s.Fresh (.reply k answer))
    (hrequest : s.sent[k]? = some request)
    (hstep : s.raft.step (request.answered answer) = some raft) :
    (s.hears raft k (request.answered answer)).Counted := by
  have htype := h.requests request (List.mem_of_getElem? hrequest)
  obtain ⟨hsender, -, hterm, hreject⟩ := Message.answered_frame request answer
  obtain ⟨hresp, hreal⟩ : (request.answered answer).type = .appendEntriesResp ∧
      (request.answered answer).isPreVote = false := by
    rw [Message.answered, if_pos htype]
    exact ⟨rfl, rfl⟩
  have hmsgs : raft.msgs = [] := (step_response_msgs hresp hstep).trans h.drained
  have hmoves : Moves (fun m => m = request.answered answer) (fun _ => False) s.raft raft :=
    step_moves rfl hreal hstep
  have hheard : raft.state = .leader → ∀ p,
      p ∈ (s.hears raft k (request.answered answer)).acks ↔
        p ∈ s.acks ∨ s.acknowledges (k, request.answered answer) = true ∧
          (request.answered answer).sender = p := fun hlead' _ =>
    mem_acks_hears (hmoves.keeps_office (fun _ hno => hno) (by simp [hlead'])).2
  refine ⟨rfl, h.sends (by simp [hmsgs]), ?_, ?_, ?_, ?_⟩
  · change s.mark ≤ (s.sent ++ _).length
    rw [List.length_append]
    exact h.mark.trans (Nat.le_add_right _ _)
  · intro reply hreply
    rcases List.mem_append.mp hreply with hprev | hnew
    · exact h.answered raft.msgs reply hprev
    · rw [List.mem_singleton.mp hnew]
      refine ⟨request, ?_, hsender.symm⟩
      change (s.sent ++ raft.msgs)[k]? = some request
      rw [hmsgs, List.append_nil, hrequest]
  · intro hlead' hself
    change raft.id ∈ _ at hself
    rw [hmoves.same.id] at hself
    rcases (hheard hlead' _).mp hself with hold | ⟨hack, hown⟩
    · exact h.self hlead hold
    · obtain ⟨-, hsuccess, hsame⟩ := of_decide_eq_true hack
      obtain ⟨-, hother, -⟩ := hfresh request hrequest (hreject.symm.trans hsuccess)
        (hterm.symm.trans hsame)
      exact hother (hsender.symm.trans hown)
  · intro hlead'
    change raft.heartbeatAcked ≤ _
    obtain ⟨-, hacked⟩ := step_paced hresp hlead hstep hlead'
    have hbefore := h.acked hlead
    have hold : s.acks ⊆ (s.hears raft k (request.answered answer)).acks :=
      fun p hp => (hheard hlead' p).mpr (.inl hp)
    rw [hacked]
    split
    next hcounts =>
      obtain ⟨-, -, hsame, hsuccess⟩ := of_decide_eq_true hcounts
      obtain ⟨hlate, -, hnew⟩ := hfresh request hrequest (hreject.symm.trans hsuccess)
        (hterm.symm.trans hsame)
      have hack : request.recipient ∈ (s.hears raft k (request.answered answer)).acks :=
        (hheard hlead' _).mpr (.inr ⟨decide_eq_true ⟨hlate, hsuccess, hsame⟩, hsender⟩)
      have hcard := Finset.card_le_card (Finset.insert_subset hack hold)
      rw [Finset.card_insert_of_notMem hnew] at hcard
      omega
    next =>
      have hcard := Finset.card_le_card hold
      omega

theorem perform_counted {duty : Duty} (h : s.Counted) (hfresh : s.Fresh duty)
    (hperform : s.perform duty = some s') : s'.Counted := by
  unfold perform at hperform
  split at hperform
  · cases hperform
  next hlead =>
    simp only [ne_eq, Decidable.not_not] at hlead
    cases duty with
    | tick =>
      obtain ⟨raft, htick, hperform⟩ := Option.bind_eq_some_iff.mp hperform
      cases hperform
      exact tick_counted h hlead htick
    | propose data =>
      obtain ⟨⟨index, raft⟩, hpropose, hperform⟩ := Option.bind_eq_some_iff.mp hperform
      cases hperform
      exact propose_counted h hlead hpropose
    | reply k answer =>
      obtain ⟨request, hrequest, hperform⟩ := Option.bind_eq_some_iff.mp hperform
      obtain ⟨raft, hstep, hperform⟩ := Option.bind_eq_some_iff.mp hperform
      cases hperform
      exact reply_counted h hlead hfresh hrequest hstep

theorem Run.counted (hrun : Run candidate (fun s duty => s.Fresh duty) s) : s.Counted := by
  induction hrun with
  | start h => exact elected_counted h
  | step _ hok hperform ih => exact perform_counted ih hok hperform

end Office

/-- Where every reply that counts is the first of its node to a request of the round, a
quorum of nodes is behind `HasLeaderQuorum`. -/
theorem quorum_of_current_round {candidate : Raft} {s : Office}
    (hrun : Office.Run candidate (fun s duty => s.Fresh duty) s)
    (hquorum : s.raft.hasLeaderQuorum = true) :
    s.raft.quorumSize ≤ (insert s.raft.id s.acks).card ∧
      ∀ p ∈ s.acks, ∃ k request response, s.mark ≤ k ∧ s.sent[k]? = some request ∧
        request.recipient = p ∧ (k, response) ∈ s.heard ∧ response.reject = false ∧
        response.term = s.raft.currentTerm := by
  have hcounted := hrun.counted
  obtain ⟨hlead, hacked⟩ := of_decide_eq_true hquorum
  refine ⟨?_, fun p hp => ?_⟩
  · have hcard := hcounted.acked hlead
    rw [Finset.card_insert_of_notMem (hcounted.self hlead)]
    omega
  · obtain ⟨⟨k, response⟩, hreply, hack, rfl⟩ := Office.mem_acks.mp hp
    obtain ⟨hlate, hsuccess, hterm⟩ := of_decide_eq_true hack
    obtain ⟨request, hrequest, hrecipient⟩ := hcounted.answers _ hreply
    exact ⟨k, request, response, hlate, hrequest, hrecipient, hreply, hsuccess, hterm⟩

/-- Two replies of the first round, one of them after a proposal. -/
theorem quorum_of_current_round_five :
    ∃ s, Office.Run
        { id := "a", currentTerm := 1, state := .candidate, heartbeatTimeout := 1
          baseElectionTimeout := 1, peers := ["b", "c", "d", "e"], rand := fun _ => 0 }
        (fun s duty => s.Fresh duty) s ∧
      s.raft.hasLeaderQuorum = true ∧ 3 ≤ (insert "a" s.acks).card := by
  obtain ⟨s, hrun, hquorum, hid, hsize⟩ :
      ∃ s, Office.Run
          { id := "a", currentTerm := 1, state := .candidate, heartbeatTimeout := 1
            baseElectionTimeout := 1, peers := ["b", "c", "d", "e"], rand := fun _ => 0 }
          (fun s duty => s.Fresh duty) s ∧
        s.raft.hasLeaderQuorum = true ∧ s.raft.id = "a" ∧ s.raft.quorumSize = 3 :=
    Reachable.of_any
      [.reply 0
          { type := .appendEntriesResp, sender := "b", recipient := "a", term := 1, index := 1 },
        .propose [1],
        .reply 5
          { type := .appendEntriesResp, sender := "c", recipient := "a", term := 1
            index := 2 }] rfl
  refine ⟨s, hrun, hquorum, ?_⟩
  have hcard := (quorum_of_current_round hrun hquorum).1
  rwa [hid, hsize] at hcard

/-- A reply to the first heartbeat arrives in the second round and opens the gate. -/
theorem late_reply_makes_quorum :
    ∃ s, Office.Run
        { id := "a", currentTerm := 1, state := .candidate, heartbeatTimeout := 1
          baseElectionTimeout := 1, peers := ["b", "c"], rand := fun _ => 0 }
        (fun _ _ => True) s ∧
      s.raft.hasLeaderQuorum = true ∧ s.acks = ∅ ∧
      ¬ s.raft.quorumSize ≤ (insert s.raft.id s.acks).card :=
  Reachable.of_any
    [.tick, .reply 0 { type := .appendEntriesResp, sender := "b", recipient := "a", term := 1
                       index := 1 }] rfl

end Phalanx
