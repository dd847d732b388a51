import Phalanx.FSM.Text
import Phalanx.Safety.Acks
import Phalanx.Safety.Logs
import Phalanx.Safety.Service

/-! Where the contents of the state machines come from. An entry with a payload enters a log
through one call of `HandlePropose` and no other, and stands at one index wherever it is
applied. So the map that a node holds is what the clients' commands make of an empty one, each
performed at most once and in one order for all nodes. -/
namespace Phalanx

open Consensus Go Raft

namespace Raft

variable {r r' : Raft} {msg : Message}

/-- What a call that is neither a proposal nor an AppendEntries does to a log: nothing, unless
a leader begins its term with an entry without a payload. -/
def Notes (log : List LogEntry) (r' : Raft) : Prop := ∀ e ∈ r'.log, e ∈ log ∨ e.data = []

theorem Notes.of_log {log : List LogEntry} (h : r'.log = log) : Notes log r' :=
  fun _ he => .inl (h ▸ he)

theorem becomeLeader_notes (h : r.becomeLeader = some r') : Notes r.log r' := by
  obtain ⟨out, -, rfl⟩ := broadcastHeartbeat_eq h
  intro e he
  rcases List.mem_append.mp he with hold | hnew
  · exact .inl hold
  · rw [List.mem_singleton.mp hnew]
    exact .inr rfl

theorem becomeCandidate_notes (h : r.becomeCandidate = some r') : Notes r.log r' := by
  rcases becomeCandidate_cases h with ⟨-, hlead⟩ | ⟨-, rfl⟩
  · exact fun e he => becomeLeader_notes hlead e he
  · exact .of_log rfl

theorem tick_notes (h : r.tick = some r') : Notes r.log r' := by
  rcases tick_cases h with ⟨-, h⟩ | ⟨-, h⟩
  · obtain ⟨heartbeatElapsed, heartbeatAcked, msgs, rfl⟩ := tickHeartbeat_frame h
    exact .of_log rfl
  · rcases tickElection_cases h with ⟨-, rfl⟩ | ⟨-, h⟩
    · exact .of_log rfl
    · exact fun e he => becomeCandidate_notes h e he

theorem step_notes (htype : msg.type ≠ .appendEntries) (h : r.step msg = some r') :
    Notes r.log r' := by
  obtain ⟨r₁, hr₁, h⟩ := Option.bind_eq_some_iff.mp h
  have hsame : r₁.log = r.log := by
    rcases observeTerm_cases hr₁ with rfl | ⟨-, leaderID, rfl⟩ <;> rfl
  rw [← hsame]
  unfold handle at h
  split at h
  · cases h
    obtain ⟨votedFor, electionElapsed, msgs, hframe⟩ := handleRequestVote_frame r₁ msg
    rw [hframe]
    exact .of_log rfl
  · rcases handleRequestVoteResp_cases h with rfl | ⟨-, ⟨-, hpre⟩ | ⟨-, -, votes, -, hvotes⟩⟩
    · exact .of_log rfl
    · obtain ⟨tally, preVotes, -, -, ⟨-, hcand⟩ | ⟨-, rfl⟩⟩ := handlePreVoteResp_cases hpre
      · exact fun e he => becomeCandidate_notes hcand e he
      · exact .of_log rfl
    · rcases hvotes with rfl | hlead
      · exact .of_log rfl
      · exact fun e he => becomeLeader_notes hlead e he
  next hno => exact absurd hno htype
  · rcases handleAppendEntriesResp_cases h with ⟨rfl, -⟩ | ⟨-, -, -, -, -, -, rfl⟩ |
      ⟨-, -, -, matchIndex, nextIndex, -, rfl⟩
    · exact .of_log rfl
    · exact .of_log rfl
    · rw [maybeAdvanceCommit_frame]
      exact .of_log rfl
  · cases h
    exact .of_log rfl

theorem mem_appendLoop {idx : Nat} {entries log : List LogEntry}
    (h : r.appendLoop idx entries = some log) : ∀ e ∈ log, e ∈ r.log ∨ e ∈ entries := by
  induction entries generalizing idx with
  | nil =>
    cases h
    exact fun e he => .inl he
  | cons entry rest ih =>
    intro e he
    rw [appendLoop] at h
    split at h
    · split at h
      · split at h
        · cases h
          exact (List.mem_append.mp he).imp_left List.mem_of_mem_take
        · cases h
      · exact (ih h e he).imp_right (List.mem_cons_of_mem entry)
    · cases h
      exact List.mem_append.mp he

theorem mem_entries_appendEntriesFor {peer : String} (h : r.appendEntriesFor peer = some msg) :
    ∀ e ∈ msg.entries, e ∈ r.log ∨ e.data = [] := by
  intro e he
  have hslots : e ∈ r.slots := by
    unfold Raft.appendEntriesFor at h
    simp only at h
    split at h
    · split at h
      · cases h
        exact List.mem_of_mem_drop he
      · cases h
    · cases h
      cases he
  rcases List.mem_cons.mp hslots with rfl | hlog
  · exact .inr rfl
  · exact .inl hlog

end Raft

namespace Node

variable {env : Env} {n n' : Node} {input : Input}

/-- The entries that the calls of a node have put into its log. -/
def minted (n : Node) : List LogEntry := n.calls.map Call.entry

theorem minted_modify {calls : List Call} {q : Nat} {f : Call → Call}
    (h : ∀ call, (f call).entry = call.entry) :
    (calls.modify q f).map Call.entry = calls.map Call.entry := by
  apply List.ext_getElem?
  intro p
  rw [List.getElem?_map, List.getElem?_modify, List.getElem?_map]
  cases calls[p]? with
  | none => rfl
  | some call =>
    split
    · exact congrArg some (h call)
    · rfl

theorem minted_applyCommitted (env : Env) (n : Node) :
    (applyCommitted env n).minted = n.minted := by
  have hfold : ∀ (entries : List LogEntry) (n : Node),
      (entries.foldl (applyEntry env) n).minted = n.minted := by
    intro entries
    induction entries with
    | nil => exact fun _ => rfl
    | cons e rest ih =>
      intro n
      rw [List.foldl_cons, ih]
      unfold applyEntry
      simp only
      split
      · rfl
      · exact minted_modify fun _ => rfl
  exact hfold _ _

theorem minted_answer {q : Nat} {success : Bool} (h : n.answer q success = some n') :
    n'.minted = n.minted := by
  unfold answer at h
  split at h
  next call hcall =>
    split at h
    · cases h
      have hset : n.calls.set q { call with outcome := some success } =
          n.calls.modify q fun call => { call with outcome := some success } := by
        rw [List.modify_eq_set_getElem?, hcall]
        rfl
      rw [minted, hset]
      exact minted_modify fun _ => rfl
    · cases h
  next => cases h

theorem act_minted (h : n.act env input = some n') :
    n'.minted = n.minted ∨ ∃ data, input = .propose data ∧ n.raft.state = .leader ∧
      n'.raft.state = .leader ∧ n'.raft.currentTerm = n.raft.currentTerm ∧
      n'.raft.log = n.raft.log ++
        [{ index := n.raft.lastLogIndex + 1, term := n.raft.currentTerm, data }] ∧
      n'.minted = n.minted ++
        [{ index := n.raft.lastLogIndex + 1, term := n.raft.currentTerm, data }] := by
  cases input with
  | tick =>
    obtain ⟨raft, -, h⟩ := Option.bind_eq_some_iff.mp h
    cases h
    exact .inl (minted_applyCommitted env _)
  | propose data =>
    obtain ⟨⟨proposed, raft⟩, hpropose, h⟩ := Option.bind_eq_some_iff.mp h
    rcases propose_cases hpropose with ⟨rfl, rfl⟩ | ⟨hstate, rfl, matchIndex, -, hcast⟩
    · cases h
      exact .inl rfl
    · obtain ⟨proposals, -, h⟩ := Option.bind_eq_some_iff.mp h
      cases h
      obtain ⟨out, -, rfl⟩ := broadcastHeartbeat_eq hcast
      exact .inr ⟨data, rfl, hstate, hstate, rfl, rfl, List.map_append⟩
  | request msg =>
    obtain ⟨raft, -, h⟩ := Option.bind_eq_some_iff.mp h
    split at h <;> cases h
    · exact .inl (minted_applyCommitted env _)
    · exact .inl rfl
  | response msg =>
    obtain ⟨raft, -, h⟩ := Option.bind_eq_some_iff.mp h
    split at h <;> cases h
    · exact .inl (minted_applyCommitted env _)
    · exact .inl rfl
  | join nodeID raftAddr =>
    obtain ⟨peerAddrs, -, h⟩ := Option.bind_eq_some_iff.mp h
    cases h
    exact .inl rfl

theorem act_entries (h : n.act env input = some n') : ∀ e ∈ n'.raft.log,
    e ∈ n.raft.log ∨ e.data = [] ∨ e ∈ n'.minted ∨
      ∃ msg, input.stepped n.id = some msg ∧ msg.type = .appendEntries ∧ e ∈ msg.entries := by
  intro e he
  rcases act_minted h with hminted | ⟨data, -, -, -, -, hlog, hminted⟩
  · obtain ⟨r, lastApplied, hperforms, hraft, -⟩ := act_performs h
    rw [hraft] at he
    have hnotes : ∀ {log}, Notes log r → e ∈ log ∨ e.data = [] := fun hnotes => hnotes e he
    cases hperforms with
    | tick htick => exact (hnotes (tick_notes htick)).imp_right .inl
    | @step _ msg _ hm hstep =>
      by_cases htype : msg.type = .appendEntries
      · rcases step_appendEntries_log htype hstep with hsame | ⟨-, -, hloop⟩
        · exact .inl (hsame ▸ he)
        · exact (mem_appendLoop hloop e he).imp_right fun hsent =>
            .inr (.inr ⟨msg, hm, htype, hsent⟩)
      · exact (hnotes (step_notes htype hstep)).imp_right .inl
    | join =>
      rw [(addPeer_frame n.raft _).1] at he
      exact .inl he
    | propose hpropose =>
      -- A proposal that mints nothing was refused.
      rcases propose_cases hpropose with ⟨-, rfl⟩ | ⟨hstate, -, -⟩
      · exact .inl he
      · obtain ⟨⟨proposed, raft⟩, hpropose', h⟩ := Option.bind_eq_some_iff.mp h
        cases hpropose.symm.trans hpropose'
        rcases propose_cases hpropose with ⟨-, rfl⟩ | ⟨-, rfl, -⟩
        · exact .inl he
        · obtain ⟨proposals, -, h⟩ := Option.bind_eq_some_iff.mp h
          cases h
          simp [minted] at hminted
  · rw [hlog] at he
    rw [hminted]
    exact (List.mem_append.mp he).imp_right fun hnew => .inr (.inl (List.mem_append_right _ hnew))

end Node

variable {w : World} {c c' : Cluster} {i : String} {n n' : Node}

namespace Cluster

def Proposed (c : Cluster) (e : LogEntry) : Prop :=
  e.data = [] ∨ ∃ j m, c.node j = some m ∧ e ∈ m.minted

/-- All entries that are stored or under way have been proposed. -/
structure Sourced (c : Cluster) : Prop where
  node : ∀ i n, c.node i = some n → ∀ e ∈ n.raft.log, c.Proposed e
  packet : ∀ pk ∈ c.net, pk.msg.type = .appendEntries → ∀ e ∈ pk.msg.entries, c.Proposed e

theorem Proposed.update {c' : Cluster} {e : LogEntry} (h : c.Proposed e) (hn : c.node i = some n)
    (hminted : ∀ e ∈ n.minted, e ∈ n'.minted)
    (hnode : c'.node = Function.update c.node i (some n')) : c'.Proposed e := by
  rcases h with hempty | ⟨j, m, hm, he⟩
  · exact .inl hempty
  · by_cases hj : j = i
    · subst hj
      cases hn.symm.trans hm
      exact .inr ⟨j, n', by rw [hnode, Function.update_self], hminted e he⟩
    · exact .inr ⟨j, m, by rwa [hnode, Function.update_of_ne hj], he⟩

theorem Sourced.handle (h : c.Sourced) (horderly : (orderly w).Holds c) {stimulus : Stimulus}
    {input : Input} {via : Option (Nat × Packet)} (hn : c.node i = some n)
    (hinput : c.input i stimulus = some (input, via)) (hact : n.act w.env input = some n') :
    (c.completed i n' via).Sourced := by
  have hminted : ∀ e ∈ n.minted, e ∈ n'.minted := by
    intro e he
    rcases Node.act_minted hact with hsame | ⟨data, -, -, -, -, -, hnew⟩
    · rwa [hsame]
    · rw [hnew]
      exact List.mem_append_left _ he
  have hreleased : ∀ e ∈ n.minted, e ∈ (n'.release true).1.minted := hminted
  have hkeep : ∀ {e}, c.Proposed e → (c.completed i n' via).Proposed e :=
    fun he => he.update hn hreleased rfl
  have hlog : ∀ e ∈ n'.raft.log, (c.completed i n' via).Proposed e := by
    intro e he
    rcases Node.act_entries hact e he with hold | hempty | hnew | ⟨msg, hm, htype, hsent⟩
    · exact hkeep (h.node i n hn e hold)
    · exact .inl hempty
    · exact .inr ⟨i, (n'.release true).1, Function.update_self .., hnew⟩
    · obtain ⟨k, pk, -, -, hpk, -, ⟨hrequest, -, rfl⟩ | ⟨hreply, -, rfl⟩⟩ :=
        stepped_packet hinput hm
      · have hframe := (Message.received_frame hrequest n.id).1
        rw [Message.received, if_pos (hframe.symm.trans htype)] at hsent
        exact hkeep (h.packet pk (List.mem_of_getElem? hpk) (hframe.symm.trans htype) e hsent)
      · rw [isRequest_of_type (.inr htype)] at hreply
        cases hreply
  refine ⟨fun j m hm e he => ?_, fun pk hpk htype e he => ?_⟩
  · by_cases hj : j = i
    · subst hj
      rw [completed, setNode] at hm
      simp only [Function.update_self] at hm
      cases hm
      exact hlog e he
    · rw [completed, setNode] at hm
      simp only [Function.update_of_ne hj] at hm
      exact hkeep (h.node j m hm e he)
  · rcases List.mem_append.mp hpk with hold | hnew
    · exact hkeep (h.packet pk hold htype e he)
    · rcases mem_emitted hnew with ⟨m, hm, -, rfl⟩ | ⟨k, req, m, -, -, -, -, rfl⟩
      · have hposted := Node.act_posts (horderly.node i n hn).drained hact m hm
        obtain ⟨-, -, peer, -, hfor⟩ := hposted.broadcast htype
        rcases mem_entries_appendEntriesFor hfor e he with hown | hempty
        · exact hlog e hown
        · exact .inl hempty
      · have hno := Message.answered_isRequest req.msg m
        rw [isRequest_of_type (.inr htype)] at hno
        cases hno

theorem start_sourced (h : start w = some c) : c.Sourced := by
  have hempty : (∀ i n, c.node i = some n → n.raft.log = []) ∧ c.net = [] := by
    refine start_induction (P := fun c => (∀ i n, c.node i = some n → n.raft.log = []) ∧
      c.net = []) ⟨fun _ _ hn => (by cases hn), rfl⟩ ?_ h
    intro c i n _ hboot hc
    obtain ⟨peerAddrs, rfl⟩ := World.boot_eq hboot
    refine ⟨fun j m hm => ?_, hc.2⟩
    by_cases hj : j = i
    · subst hj
      simp only [setNode, Function.update_self] at hm
      cases hm
      rfl
    · simp only [setNode, Function.update_of_ne hj] at hm
      exact hc.1 j m hm
  refine ⟨fun i n hn e he => ?_, fun pk hpk => ?_⟩
  · rw [hempty.1 i n hn] at he
    cases he
  · rw [hempty.2] at hpk
    cases hpk

theorem Reach.sourced {ok : Cluster → Event → Prop}
    (hok : ∀ c e, ok c e → e.crashless = true) (hreach : Reach w ok c) : c.Sourced := by
  induction hreach with
  | start h => exact start_sourced h
  | @step c c' e hreach hoke hstep ih =>
    cases e with
    | handle i stimulus =>
      obtain ⟨n, input, via, hn, hinput, ⟨-, rfl⟩ | ⟨n', hact, rfl⟩⟩ := step_handle hstep
      · exact ih
      · exact ih.handle (Reach.orderly hreach) hn hinput hact
    | crash i during => cases hok _ _ hoke
    | dial k =>
      obtain ⟨pk, n, dest, hpk, -, -, -, rfl⟩ := step_dial hstep
      refine ⟨ih.node, fun pk' hpk' htype => ?_⟩
      rcases List.mem_append.mp hpk' with hold | hnew
      · exact ih.packet pk' hold htype
      · cases List.mem_singleton.mp hnew
        exact ih.packet pk (List.mem_of_getElem? hpk) htype
    | answer i call success =>
      obtain ⟨n, n', hn, hanswer, rfl⟩ := step_answer hstep
      have hminted : ∀ e ∈ n.minted, e ∈ n'.minted := fun e he => by
        rwa [Node.minted_answer hanswer]
      refine ⟨fun j m hm e he => ?_, fun pk hpk htype e he => ?_⟩
      · refine Proposed.update ?_ hn hminted rfl
        by_cases hj : j = i
        · subst hj
          simp only [Function.update_self] at hm
          cases hm
          obtain ⟨calls, rfl⟩ := Node.answer_frame hanswer
          exact ih.node j n hn e he
        · simp only [Function.update_of_ne hj] at hm
          exact ih.node j m hm e he
      · exact (ih.packet pk hpk htype e he).update hn hminted rfl

def Apart (a b : LogEntry) : Prop := a.term = b.term → a.index ≠ b.index

/-- Every entry that was minted stands in a log with which its node led the term of the entry,
and no two are minted for one index in one term. -/
def mints : Invariant where
  node := fun c i n => (∀ e ∈ n.minted, ∃ held, c.Led i e.term held ∧
      held[e.index - 1]? = some e ∧ Loyal e.term held n.raft) ∧
    n.minted.Pairwise Apart
  packet := fun _ _ => True
  seen := fun _ _ _ => True
  node_mono := fun hextends h => ⟨fun e he => by
    obtain ⟨held, hled, hat, hloyal⟩ := h.1 e he
    exact ⟨held, hled.mono hextends, hat, hloyal⟩, h.2⟩
  packet_mono := fun _ h => h
  seen_mono := fun _ h => h

theorem mints_kept (hstatic : Static w) {ok : Cluster → Event → Prop}
    (hok : ∀ c e, ok c e → e.steady = true ∧ c.TermsBelow) : mints.Kept w ok where
  boot := by
    intro c i n _ hboot
    obtain ⟨peerAddrs, rfl⟩ := World.boot_eq hboot
    exact ⟨⟨fun e he => (by cases he), .nil⟩, trivial⟩
  handle := by
    intro c i stimulus n input via n' hreach h hoke hn hinput hact
    obtain ⟨hsteady, hbelow⟩ := hok _ _ hoke
    have hjoin : stimulus.isJoin = false := Event.isJoin_of_steady hsteady
    obtain ⟨s, hs⟩ := refines_of_steady hstatic (fun c e he => (hok c e he).1) hreach hbelow
    have horderly := Reach.orderly hreach
    obtain ⟨⟨r, lastApplied, hmoves, hraft⟩, -⟩ :=
      acted_moves horderly hinput (no_join hjoin hinput) hact
    have hbound : ∀ t, input = .tick ∧ t = n.raft.currentTerm → t < uint64Size - 1 := by
      rintro t ⟨-, rfl⟩
      exact hbelow _ (horderly.node i n hn).now
    obtain ⟨hheld, hpairs⟩ := (mints.node_mono (extends_completed c i n' via) (h.node i n hn))
    have hseen : (i, { n'.raft with msgs := [] }) ∈ (c.completed i n' via).hist :=
      List.mem_append_right _ (List.mem_singleton.mpr rfl)
    have hold : ∀ e ∈ n.minted, ∃ held, (c.completed i n' via).Led i e.term held ∧
        held[e.index - 1]? = some e ∧ Loyal e.term held { n'.raft with msgs := [] } := by
      intro e he
      obtain ⟨held, hled, hat, hloyal⟩ := hheld e he
      have hafter := hmoves.loyal hbound hloyal
      rw [hraft]
      exact ⟨held, hled, hat, hafter.leader, hafter.candidate, hafter.reached⟩
    refine ⟨?_, trivial, fun _ _ => trivial⟩
    change (∀ e ∈ n'.minted, ∃ held, _ ∧ _ ∧ Loyal e.term held { n'.raft with msgs := [] }) ∧
      n'.minted.Pairwise Apart
    rcases Node.act_minted hact with hsame | ⟨data, -, hlead, hlead', hterm, hlog, hnew⟩
    · rw [hsame]
      exact ⟨hold, hpairs⟩
    · have hlast := lastLogIndex_eq (hs.node i n hn).tracks.indexed
      rw [hnew]
      refine ⟨fun e he => ?_, List.pairwise_append.mpr ⟨hpairs, List.pairwise_singleton _ _, ?_⟩⟩
      · rcases List.mem_append.mp he with he | he
        · exact hold e he
        · rw [List.mem_singleton.mp he]
          refine ⟨n'.raft.log, ⟨_, hseen, hlead', hterm, rfl⟩, ?_, fun _ _ => List.prefix_refl _,
            fun hno => ?_, hterm.ge⟩
          · rw [hlog, hlast, Nat.add_sub_cancel]
            exact List.getElem?_concat_length
          · rw [show n'.raft.state = .leader from hlead'] at hno
            cases hno
      · intro a ha b hb hsame hindex
        rw [List.mem_singleton.mp hb] at hsame hindex
        obtain ⟨held, -, hat, hloyal⟩ := hheld a ha
        -- The log of a leader still has what it had when the entry was minted.
        have hpre := hloyal.leader hlead hsame.symm
        have hlt := (List.getElem?_eq_some_iff.mp (getElem?_of_isPrefix hpre hat)).1
        simp only at hindex
        omega
  interrupt := fun _ _ _ _ _ _ _ _ _ _ _ _ _ => trivial
  crash := fun _ _ _ _ _ _ _ _ hoke => (Event.not_steady_crash (hok _ _ hoke).1).elim
  dial := fun _ _ _ _ _ _ _ _ _ _ _ _ => trivial
  answer := by
    intro c i call success n n' _ h _ hn hanswer
    have hminted := Node.minted_answer hanswer
    obtain ⟨calls, rfl⟩ := Node.answer_frame hanswer
    obtain ⟨hheld, hpairs⟩ := h.node i n hn
    refine ⟨fun e he => hheld e (hminted ▸ he), ?_⟩
    rw [hminted]
    exact hpairs

theorem Reach.minted_once (hstatic : Static w) (hreach : Reach w (fun _ e => e.steady = true) c)
    (hbelow : c.TermsBelow) {i j : String} {n m : Node} {p q : Nat} {e : LogEntry}
    (hn : c.node i = some n) (hm : c.node j = some m) (hp : n.minted[p]? = some e)
    (hq : m.minted[q]? = some e) : i = j ∧ p = q := by
  have hmints : mints.Holds c := (mints_kept hstatic (fun _ _ h => h)).reach
    (hreach.before (fun _ _ _ hstep h => h.before hstep) hbelow)
  obtain ⟨hheld, hpairs⟩ := hmints.node i n hn
  obtain ⟨held, ⟨r, hr, hlead, hterm, -⟩, -⟩ := hheld e (List.mem_of_getElem? hp)
  obtain ⟨held', ⟨r', hr', hlead', hterm', -⟩, -⟩ :=
    (hmints.node j m hm).1 e (List.mem_of_getElem? hq)
  have hjoinless : Reach w (fun _ e => e.joinless = true) c :=
    hreach.mono fun _ e he => (Bool.and_eq_true_iff.mp he).1
  have hsame : i = j := static_leader_unique hstatic hjoinless hbelow hr hr' hlead hlead'
    (hterm.trans hterm'.symm)
  subst hsame
  cases hn.symm.trans hm
  refine ⟨rfl, ?_⟩
  obtain ⟨hplt, hpe⟩ := List.getElem?_eq_some_iff.mp hp
  obtain ⟨hqlt, hqe⟩ := List.getElem?_eq_some_iff.mp hq
  rcases Nat.lt_trichotomy p q with hlt | heq | hgt
  · have hapart := List.pairwise_iff_getElem.mp hpairs p q hplt hqlt hlt
    rw [hpe, hqe] at hapart
    exact absurd rfl (hapart rfl)
  · exact heq
  · have hapart := List.pairwise_iff_getElem.mp hpairs q p hqlt hplt hgt
    rw [hpe, hqe] at hapart
    exact absurd rfl (hapart rfl)

end Cluster

/-! From entries to commands. -/

theorem Raft.Indexed.nodup {log : List LogEntry} (h : Indexed log) : log.Nodup := by
  rw [List.nodup_iff_getElem?_ne_getElem?]
  intro a b hlt hb heq
  obtain ⟨e, he⟩ : ∃ e, log[b]? = some e := ⟨_, List.getElem?_eq_getElem hb⟩
  have hone := h a e (heq.trans he)
  have htwo := h b e he
  omega

def payloads (entries : List LogEntry) : List LogEntry := entries.filter fun e => e.data ≠ []

theorem KV.after_eq {env : Env} {entries : List LogEntry}
    (h : ∀ e ∈ payloads entries, e.type = .command) :
    KV.after env entries =
      ((payloads entries).map LogEntry.data).foldl (KV.applied env.unmarshal) {} := by
  have hfold : ∀ (entries : List LogEntry) (kv : KV),
      (∀ e ∈ payloads entries, e.type = .command) →
      entries.foldl (KV.replay env.unmarshal) kv =
        ((payloads entries).map LogEntry.data).foldl (KV.applied env.unmarshal) kv := by
    intro entries
    induction entries with
    | nil => exact fun _ _ => rfl
    | cons e rest ih =>
      intro kv hall
      by_cases hdata : e.data = []
      · have hskip : payloads (e :: rest) = payloads rest :=
          List.filter_cons_of_neg (by simpa using hdata)
        rw [hskip] at hall ⊢
        rw [List.foldl_cons, ih _ hall, KV.replay, if_neg fun hno => hno.2 hdata]
      · have htake : payloads (e :: rest) = e :: payloads rest :=
          List.filter_cons_of_pos (by simpa using hdata)
        rw [htake] at hall ⊢
        have htype := hall e List.mem_cons_self
        rw [List.foldl_cons, List.map_cons, List.foldl_cons, KV.replay, if_pos ⟨htype, hdata⟩]
        exact ih _ fun e' he' => hall e' (List.mem_cons_of_mem e he')
  exact hfold entries {} h

/-- A command, and the call of `HandlePropose` that brought it. -/
structure Performed where
  node : String
  call : Nat
  command : Command

def Cluster.Asked (c : Cluster) (d : Performed) : Prop :=
  ∃ n call, c.node d.node = some n ∧ n.calls[d.call]? = some call ∧
    call.data = d.command.text

theorem Cluster.Reach.order_asked (hstatic : Static w)
    (hreach : Reach w (fun _ e => e.steady = true) c) (hbelow : c.TermsBelow) :
    ∃ order : List LogEntry, order.Nodup ∧
      (∀ i n, c.node i = some n → n.applied <+: order) ∧
      ∀ e ∈ payloads order, ∃ (j : String) (m : Node) (q : Nat) (call : Call),
        c.node j = some m ∧ m.calls[q]? = some call ∧ call.entry = e := by
  have hsourced := hreach.sourced fun _ e he => (Bool.and_eq_true_iff.mp he).2
  obtain ⟨s, hs⟩ := refines_of_steady hstatic (fun _ _ h => h) hreach hbelow
  obtain ⟨order, horder, hlongest⟩ :=
    exists_common_order w.members c.appliedAt (hreach.appliedAt_agree hstatic hbelow)
  -- The order is what some node has applied, so it is the beginning of a log.
  have hlog : order = [] ∨ ∃ i n, c.node i = some n ∧ order <+: n.raft.log := by
    rcases hlongest with hempty | ⟨i, rfl⟩
    · exact .inl hempty
    · cases hi : c.node i with
      | none =>
        rw [appliedAt, hi]
        exact .inl rfl
      | some n =>
        rw [appliedAt_eq hi, (hreach.applying hstatic hbelow hi).applied]
        exact .inr ⟨i, n, hi, List.take_prefix _ _⟩
  refine ⟨order, ?_, fun i n hn => ?_, fun e he => ?_⟩
  · rcases hlog with rfl | ⟨i, n, hn, hpre⟩
    · exact List.nodup_nil
    · exact (Indexed.nodup (hs.node i n hn).tracks.indexed).sublist hpre.sublist
  · rw [← appliedAt_eq hn]
    exact horder i (hs.node i n hn).member
  · obtain ⟨hmem, hdata⟩ := List.mem_filter.mp he
    rcases hlog with rfl | ⟨i, n, hn, hpre⟩
    · cases hmem
    · rcases hsourced.node i n hn e (hpre.subset hmem) with hempty | ⟨j, m, hm, hminted⟩
      · exact absurd hempty (of_decide_eq_true hdata)
      · obtain ⟨q, hq⟩ := List.getElem?_of_mem hminted
        rw [Node.minted, List.getElem?_map] at hq
        obtain ⟨call, hcall, rfl⟩ := Option.map_eq_some_iff.mp hq
        exact ⟨j, m, q, call, hm, hcall, rfl⟩

/-- Every node holds what is left of one sequence of commands by as many of them as it has
applied. Each comes from a call of its own. -/
theorem maps_hold_proposed_commands (hstatic : Static w)
    (henv : w.env.unmarshal = Command.codec.unmarshal)
    (hreach : Cluster.Reach w (fun _ e => e.steady = true) c) (hbelow : c.TermsBelow)
    (hclients : ∀ i n, c.node i = some n → ∀ call ∈ n.calls,
      ∃ command : Command, call.data = command.text) :
    ∃ done : List Performed, (done.map fun d => (d.node, d.call)).Nodup ∧
      (∀ d ∈ done, c.Asked d) ∧
      ∀ i n, c.node i = some n → ∃ k ≤ done.length,
        n.fsm.get = Mapping.after ((done.take k).map fun d => d.command.coerced) ∧
        ∀ (j : String) (m : Node) (q : Nat) (call : Call), c.node j = some m →
          m.calls[q]? = some call →
          (call.entry ∈ n.applied ↔ ∃ d ∈ done.take k, d.node = j ∧ d.call = q) := by
  obtain ⟨order, hnodup, hpre, hasked⟩ := hreach.order_asked hstatic hbelow
  have hchoice : ∀ e, ∃ d : Performed, e ∈ payloads order →
      ∃ m call, c.node d.node = some m ∧ m.calls[d.call]? = some call ∧ call.entry = e ∧
        e.data = d.command.text := by
    intro e
    by_cases he : e ∈ payloads order
    · obtain ⟨j, m, q, call, hm, hcall, rfl⟩ := hasked e he
      obtain ⟨command, htext⟩ := hclients j m hm call (List.mem_of_getElem? hcall)
      exact ⟨⟨j, q, command⟩, fun _ => ⟨m, call, hm, hcall, rfl, htext⟩⟩
    · exact ⟨⟨"", 0, { op := [], key := [] }⟩, fun hno => absurd hno he⟩
  choose perform hperform using hchoice
  have hdone : ∀ {l : List LogEntry}, l <+: order →
      (payloads l).map perform <+: (payloads order).map perform :=
    fun hl => (hl.filter _).map _
  refine ⟨(payloads order).map perform, ?_, ?_, fun i n hn => ?_⟩
  · rw [List.map_map]
    refine (hnodup.filter _).map_on fun a ha b hb heq => ?_
    obtain ⟨m, call, hm, hcall, rfl, -⟩ := hperform a ha
    obtain ⟨m', call', hm', hcall', rfl, -⟩ := hperform b hb
    obtain ⟨hnode, hnumber⟩ := Prod.mk.inj heq
    rw [hnode] at hm
    cases hm.symm.trans hm'
    rw [hnumber] at hcall
    cases hcall.symm.trans hcall'
    rfl
  · intro d hd
    obtain ⟨e, he, rfl⟩ := List.mem_map.mp hd
    obtain ⟨m, call, hm, hcall, rfl, htext⟩ := hperform e he
    exact ⟨m, call, hm, hcall, htext⟩
  · have happlied := hpre i n hn
    have htake := List.prefix_iff_eq_take.mp (hdone happlied)
    have hsub : ∀ e ∈ payloads n.applied, e ∈ payloads order :=
      fun e he => (happlied.filter _).subset he
    refine ⟨_, (hdone happlied).length_le, ?_, fun j m q call hm hcall => ?_⟩
    · rw [← htake, (hreach.applying hstatic hbelow hn).fsm]
      have hafter : KV.after w.env n.applied =
          (((payloads n.applied).map fun e => (perform e).command).map Command.text).foldl
            (KV.applied Command.codec.unmarshal) {} := by
        rw [KV.after_eq, henv, List.map_map]
        · congr 1
          refine List.map_congr_left fun e he => ?_
          obtain ⟨-, -, -, -, -, htext⟩ := hperform e (hsub e he)
          exact htext
        · intro e he
          obtain ⟨-, -, -, -, rfl, -⟩ := hperform e (hsub e he)
          rfl
      refine (congrArg KV.get hafter).trans ?_
      rw [KV.get_foldl_text KV.made_empty, KV.get_empty, List.map_map, List.map_map]
      rfl
    · rw [← htake]
      constructor
      · intro hmem
        obtain ⟨command, htext⟩ := hclients j m hm call (List.mem_of_getElem? hcall)
        have hpayload : call.entry ∈ payloads n.applied := by
          refine List.mem_filter.mpr ⟨hmem, decide_eq_true ?_⟩
          rw [show call.entry.data = call.data from rfl, htext]
          exact command.text_ne_nil
        obtain ⟨m', call', hm', hcall', hentry, -⟩ := hperform _ (hsub _ hpayload)
        have hminted : m'.minted[(perform call.entry).call]? = some call.entry := by
          rw [Node.minted, List.getElem?_map, hcall', Option.map_some, hentry]
        have hminted' : m.minted[q]? = some call.entry := by
          rw [Node.minted, List.getElem?_map, hcall, Option.map_some]
        obtain ⟨hnode, hnumber⟩ := hreach.minted_once hstatic hbelow hm' hm hminted hminted'
        exact ⟨_, List.mem_map_of_mem hpayload, hnode, hnumber⟩
      · rintro ⟨d, hd, rfl, rfl⟩
        obtain ⟨e, he, rfl⟩ := List.mem_map.mp hd
        obtain ⟨m', call', hm', hcall', rfl, -⟩ := hperform e (hsub e he)
        cases hm.symm.trans hm'
        cases hcall.symm.trans hcall'
        exact (List.mem_filter.mp he).1

def World.decoding (w : World) : World :=
  { w with env := { w.env with unmarshal := Command.codec.unmarshal } }

theorem Static.decoding (h : Static w) : Static w.decoding where
  nodup := h.nodup
  named := h.named
  peersNodup := h.peersNodup
  peers := h.peers
  wired := h.wired

/-- A leads with the vote of B, a client proposes a payload to A, and A hears that B has it. -/
def oneProposal (data : List UInt8) : List Event :=
  [.handle "a" .tick, .dial 0, .handle "b" (.packet 2), .handle "a" (.packet 3), .dial 4,
    .handle "b" (.packet 6), .handle "a" (.packet 7), .handle "a" (.propose data), .dial 8,
    .handle "b" (.packet 10), .handle "a" (.packet 11)]

theorem oneProposal_run (data : List UInt8) :
    (Cluster.run (mesh ["a", "b", "c"] 1 1).decoding (fun _ e => e.steady = true)
      (oneProposal data)).map (fun c => (decide c.TermsBelow,
        (c.node "a").map (fun n => (n.calls, n.applied)), (c.node "b").map Node.calls,
        (c.node "c").map Node.calls)) =
      some (true, some ([⟨2, 1, data, true, none⟩], [⟨1, 1, [], .command⟩, ⟨2, 1, data, .command⟩]),
        some [], some []) := by
  with_unfolding_all rfl

/-- A client sets a key at A, and the map of A has it. -/
theorem maps_hold_proposed_commands_set :
    ∃ c n, Cluster.Reach (mesh ["a", "b", "c"] 1 1).decoding (fun _ e => e.steady = true) c ∧
      c.node "a" = some n ∧ n.fsm.get [0x6B] = some [0x76] := by
  obtain ⟨command, hcommand⟩ : ∃ command : Command, command = ⟨opSet, [0x6B], [0x76]⟩ := ⟨_, rfl⟩
  obtain ⟨c, hrun, hc⟩ := Option.map_eq_some_iff.mp (oneProposal_run command.text)
  obtain ⟨start, hstart, hwalk⟩ := Option.bind_eq_some_iff.mp hrun
  have hreach := Reachable.of_walk (.start hstart) hwalk
  simp only [Prod.mk.injEq, decide_eq_true_eq] at hc
  obtain ⟨hbelow, ha, hb, hc⟩ := hc
  obtain ⟨n, hn, hlists⟩ := Option.map_eq_some_iff.mp ha
  obtain ⟨hcalls, happlied⟩ := Prod.mk.inj hlists
  have honly : ∀ (i : String) (m : Node) (q : Nat) (call : Call), c.node i = some m →
      m.calls[q]? = some call → i = "a" ∧ q = 0 ∧ call = ⟨2, 1, command.text, true, none⟩ := by
    intro i m q call hm hcall
    have hmember : i ∈ ["a", "b", "c"] := (Cluster.Reach.orderly hreach).node i m hm |>.member
    simp only [List.mem_cons, List.not_mem_nil, or_false] at hmember
    rcases hmember with rfl | rfl | rfl
    · cases hn.symm.trans hm
      rw [hcalls] at hcall
      obtain ⟨hzero, hcall⟩ := List.getElem?_eq_some_iff.mp hcall
      have hq : q = 0 := Nat.lt_one_iff.mp hzero
      subst hq
      exact ⟨rfl, rfl, hcall.symm⟩
    · rw [hm, Option.map_some, Option.some.injEq] at hb
      rw [hb] at hcall
      cases hcall
    · rw [hm, Option.map_some, Option.some.injEq] at hc
      rw [hc] at hcall
      cases hcall
  obtain ⟨done, hnodup, hasked, hmaps⟩ := maps_hold_proposed_commands
    (mesh_static (by decide) (by decide) 1 1).decoding rfl hreach hbelow (by
      intro i m hm call hcall
      obtain ⟨q, hq⟩ := List.getElem?_of_mem hcall
      obtain ⟨-, -, rfl⟩ := honly i m q call hm hq
      exact ⟨command, rfl⟩)
  obtain ⟨k, -, hget, hdone⟩ := hmaps "a" n hn
  refine ⟨c, n, hreach, hn, ?_⟩
  have hfirst : n.calls[0]? = some ⟨2, 1, command.text, true, none⟩ := by rw [hcalls]; rfl
  obtain ⟨d, hd, hnode, hcall⟩ := (hdone "a" n 0 _ hn hfirst).mp (by
    rw [happlied]
    exact List.mem_cons_of_mem _ List.mem_cons_self)
  have hall : ∀ d' ∈ done.take k, (d'.node, d'.call) = ("a", 0) ∧
      d'.command.coerced = command.coerced := by
    intro d' hd'
    obtain ⟨m, call, hm, hcall, htext⟩ := hasked d' (List.mem_of_mem_take hd')
    obtain ⟨hi, hq, rfl⟩ := honly _ m _ call hm hcall
    have hback := d'.command.unmarshal_text
    rw [← htext, command.unmarshal_text] at hback
    exact ⟨Prod.ext hi hq, (Option.some.inj hback).symm⟩
  have hids : (done.take k).map (fun d => (d.node, d.call)) =
      List.replicate (done.take k).length ("a", 0) := by
    rw [List.eq_replicate_iff]
    refine ⟨List.length_map .., fun id hid => ?_⟩
    obtain ⟨d', hd', rfl⟩ := List.mem_map.mp hid
    exact (hall d' hd').1
  have hone : (done.take k).length ≤ 1 := by
    refine (List.nodup_replicate (a := (("a", 0) : String × Nat))).mp ?_
    rw [← hids]
    exact hnodup.sublist ((List.take_sublist k done).map _)
  have hcommands : (done.take k).map (fun d => d.command.coerced) = [command.coerced] := by
    obtain ⟨d', hd'⟩ := List.length_eq_one_iff.mp
      (Nat.le_antisymm hone (List.length_pos_of_mem hd))
    rw [hd', List.map_singleton, (hall d' (hd' ▸ List.mem_singleton_self d')).2]
  rw [hget, hcommands, hcommand]
  decide

end Phalanx
