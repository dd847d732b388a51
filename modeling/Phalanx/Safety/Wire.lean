import Phalanx.Network.Wire
import Phalanx.Raft.Repeat
import Phalanx.Safety.WellFormed

/-! Nothing that a node sends is changed on its way. The numbers a node puts into a message
are its term, indices into its log, a cursor and a commit index; as long as terms and logs
keep within their types, all of them do, and the text that carries a message stands for the
message. -/
namespace Phalanx

open Go

namespace Raft

variable {r r' : Raft} {msg : Message}

/-- The cursors and the commit index are `uint64` values, or would be after the decrement
with which a cursor is used. -/
structure Sized (r : Raft) : Prop where
  commit : r.commitIndex < uint64Size
  cursor : ∀ peer, r.nextIndex.read peer ≤ uint64Size

structure Quotes (r : Raft) (m : Message) : Prop where
  bare : m.prevLogIndex = 0 ∧ m.prevLogTerm = 0 ∧ m.entries = [] ∧ m.leaderCommit = 0
  last : m.lastLogIndex = r.lastLogIndex ∧ m.lastLogTerm = r.lastLogTerm ∨
    m.lastLogIndex = 0 ∧ m.lastLogTerm = 0
  index : m.index < uint64Size

/-- What an operation keeps in range, and what it puts into the outbox. -/
structure Sizes (r r' : Raft) : Prop where
  sized : r.Sized → r'.Sized
  quotes : ∀ m ∈ r'.msgs, m ∈ r.msgs ∨ m.type = .appendEntries ∨ r'.Quotes m

theorem Sizes.of_frame (hmsgs : r'.msgs = r.msgs) (hcommit : r'.commitIndex = r.commitIndex)
    (hnext : r'.nextIndex = r.nextIndex) : Sizes r r' where
  sized := fun h => ⟨hcommit ▸ h.commit, hnext ▸ h.cursor⟩
  quotes := fun _ hm => .inl (hmsgs ▸ hm)

theorem Sizes.after {r₁ : Raft} (h : Sizes r₁ r') (hmsgs : r₁.msgs = r.msgs)
    (hcommit : r₁.commitIndex = r.commitIndex) (hnext : r₁.nextIndex = r.nextIndex) :
    Sizes r r' where
  sized := fun hsized => h.sized ((Sizes.of_frame hmsgs hcommit hnext).sized hsized)
  quotes := fun m hm => (h.quotes m hm).imp_left (hmsgs ▸ ·)

theorem Sizes.of_send {m : Message} (hmsgs : r'.msgs = r.msgs ++ [m])
    (hsized : r.Sized → r'.Sized) (hquotes : r'.Quotes m) : Sizes r r' where
  sized := hsized
  quotes := by
    intro m' hm'
    rw [hmsgs] at hm'
    rcases List.mem_append.mp hm' with hold | hnew
    · exact .inl hold
    · rw [List.mem_singleton.mp hnew]
      exact .inr (.inr hquotes)

theorem broadcastHeartbeat_sizes {r₁ : Raft} (h : r₁.broadcastHeartbeat = some r')
    (hmsgs : r₁.msgs = r.msgs) (hsized : r.Sized → r₁.Sized) : Sizes r r' := by
  obtain ⟨out, hout, rfl⟩ := broadcastHeartbeat_eq h
  refine ⟨fun hr => ⟨(hsized hr).commit, (hsized hr).cursor⟩, fun m hm => ?_⟩
  rcases List.mem_append.mp hm with hold | hnew
  · exact .inl (hmsgs ▸ hold)
  · obtain ⟨peer, -, hfor⟩ := exists_of_mem_mapM hout hnew
    obtain ⟨entries, rfl⟩ := appendEntriesFor_eq hfor
    exact .inr (.inl rfl)

theorem becomeLeader_sizes (hlast : r.lastLogIndex < uint64Size) (h : r.becomeLeader = some r') :
    Sizes r r' := by
  have hcrowned : r.crowned.broadcastHeartbeat = some r' := h
  refine broadcastHeartbeat_sizes hcrowned rfl fun hsized => ⟨hsized.commit, fun peer => ?_⟩
  exact (initialCursors_le r.peers (r.lastLogIndex + 1) peer).trans hlast

theorem becomeCandidate_sizes (hlast : r.lastLogIndex < uint64Size)
    (h : r.becomeCandidate = some r') : Sizes r r' := by
  rcases becomeCandidate_cases h with ⟨-, h⟩ | ⟨-, rfl⟩
  · have hleads : Sizes r.candidacy r' := becomeLeader_sizes hlast h
    exact hleads.after rfl rfl rfl
  · refine ⟨fun hsized => ⟨hsized.commit, hsized.cursor⟩, fun m hm => ?_⟩
    rcases List.mem_append.mp hm with hold | hnew
    · exact .inl hold
    · obtain ⟨peer, -, rfl⟩ := List.mem_map.mp hnew
      exact .inr (.inr ⟨⟨rfl, rfl, rfl, rfl⟩, .inl ⟨rfl, rfl⟩, Nat.zero_lt_of_lt hlast⟩)

theorem tick_sizes (hlast : r.lastLogIndex < uint64Size) (h : r.tick = some r') :
    Sizes r r' := by
  rcases tick_cases h with ⟨-, h⟩ | ⟨-, h⟩
  · unfold tickHeartbeat at h
    simp only at h
    split at h
    · exact broadcastHeartbeat_sizes h rfl fun hsized => ⟨hsized.commit, hsized.cursor⟩
    · cases h
      exact .of_frame rfl rfl rfl
  · rcases tickElection_cases h with ⟨-, rfl⟩ | ⟨-, h⟩
    · exact .of_frame rfl rfl rfl
    · have hstands : Sizes { r with electionElapsed := 0, leaderActive := false } r' :=
        becomeCandidate_sizes hlast h
      exact hstands.after rfl rfl rfl

theorem propose_sizes {data : List UInt8} {index : Option Nat}
    (h : r.propose data = some (index, r')) : Sizes r r' := by
  rcases propose_cases h with ⟨-, rfl⟩ | ⟨-, -, matchIndex, -, hcast⟩
  · exact .of_frame rfl rfl rfl
  · exact broadcastHeartbeat_sizes hcast rfl fun hsized => ⟨hsized.commit, hsized.cursor⟩

theorem handleRequestVote_sizes (r : Raft) (msg : Message) :
    Sizes r (r.handleRequestVote msg) := by
  have hquotes : ∀ (r' : Raft) (reject isPreVote : Bool), r'.Quotes
      { type := .requestVoteResp, sender := r.id, recipient := msg.sender, term := r.currentTerm,
        reject, isPreVote } :=
    fun r' _ _ => ⟨⟨rfl, rfl, rfl, rfl⟩, .inr ⟨rfl, rfl⟩, Nat.zero_lt_succ _⟩
  unfold handleRequestVote
  simp only
  split
  · exact .of_send rfl (fun h => ⟨h.commit, h.cursor⟩) (hquotes _ _ _)
  · split
    · exact .of_send rfl (fun h => ⟨h.commit, h.cursor⟩) (hquotes _ _ _)
    · split
      · exact .of_send rfl (fun h => ⟨h.commit, h.cursor⟩) (hquotes _ _ _)
      · split
        · exact .of_send rfl (fun h => ⟨h.commit, h.cursor⟩) (hquotes _ _ _)
        · exact .of_send rfl (fun h => ⟨h.commit, h.cursor⟩) (hquotes _ _ _)

theorem handleRequestVoteResp_sizes (hlast : r.lastLogIndex < uint64Size)
    (h : r.handleRequestVoteResp msg = some r') : Sizes r r' := by
  unfold handleRequestVoteResp at h
  split at h
  · cases h
    exact .of_frame rfl rfl rfl
  · split at h
    · obtain ⟨tally, preVotes, -, -, ⟨-, h⟩ | ⟨-, rfl⟩⟩ := handlePreVoteResp_cases h
      · have hstands : Sizes { r with preVotes } r' := becomeCandidate_sizes hlast h
        exact hstands.after rfl rfl rfl
      · exact .of_frame rfl rfl rfl
    · split at h
      · cases h
        exact .of_frame rfl rfl rfl
      · obtain ⟨votes, -, h⟩ := Option.bind_eq_some_iff.mp h
        simp only at h
        split at h
        · have hleads : Sizes { r with votes } r' := becomeLeader_sizes hlast h
          exact hleads.after rfl rfl rfl
        · cases h
          exact .of_frame rfl rfl rfl

theorem step_appendEntries_sizes (htype : msg.type = .appendEntries) (hmsg : msg.Fits)
    (hlast : r'.lastLogIndex < uint64Size) (h : r.step msg = some r') : Sizes r r' := by
  have hquotes : ∀ (r' f : Raft) (reject : Bool) (index : Nat), index < uint64Size →
      r'.Quotes { f.refusal msg with reject, index } :=
    fun _ _ _ _ hindex => ⟨⟨rfl, rfl, rfl, rfl⟩, .inr ⟨rfl, rfl⟩, hindex⟩
  rcases step_appendEntries_cases htype h with ⟨-, rfl⟩ | ⟨-, h⟩
  · exact .of_send rfl (fun h => ⟨h.commit, h.cursor⟩) (hquotes _ r true 0 (Nat.zero_lt_succ _))
  · have hframe : (r.following msg).nextIndex = r.nextIndex := by
      unfold following heeding
      split <;> split <;> rfl
    obtain ⟨-, hcommit, -, hmsgs⟩ := following_frame r msg
    refine Sizes.after ?_ hmsgs hcommit hframe
    by_cases hpasses : (r.following msg).passes msg
    · rw [replicate_takes hpasses] at h
      obtain ⟨log, -, rfl⟩ := Option.map_eq_some_iff.mp h
      have hlog : lastIndexOf log < uint64Size := by
        rw [followCommit_eq] at hlast
        exact hlast
      rw [followCommit_eq]
      refine .of_send rfl (fun h => ⟨?_, h.cursor⟩) (hquotes _ _ _ _ hlog)
      change (followCommit { r.following msg with log } msg).commitIndex < uint64Size
      rw [commitIndex_followCommit]
      split
      · exact Nat.lt_of_le_of_lt (Nat.min_le_left _ _) hmsg.leaderCommit
      · exact h.commit
    · obtain ⟨hint, hlt, hfails⟩ := replicate_fails hpasses
      rw [hfails] at h
      cases h
      exact .of_send rfl (fun h => ⟨h.commit, h.cursor⟩)
        (hquotes _ _ true hint (hlt.trans hmsg.prevLogIndex))

theorem maybeAdvanceCommit_le (r : Raft) :
    r.maybeAdvanceCommit.commitIndex ≤ max r.commitIndex r.lastLogIndex := by
  have hfold : ∀ (l : List Nat) (r : Raft) (bound : Nat), (∀ n ∈ l, n ≤ bound) →
      r.commitIndex ≤ bound → (l.foldl commitAt r).commitIndex ≤ bound := by
    intro l
    induction l with
    | nil => exact fun _ _ _ h => h
    | cons n rest ih =>
      intro r bound hall hle
      rw [List.foldl_cons]
      refine ih _ _ (fun m hm => hall m (List.mem_cons_of_mem n hm)) ?_
      unfold commitAt
      split
      · exact hle
      · split
        · exact hall n List.mem_cons_self
        · exact hle
  refine hfold _ r _ (fun n hn => ?_) (le_max_left _ _)
  have := List.mem_range'_1.mp hn
  omega

theorem handleAppendEntriesResp_sizes (hlast : r.lastLogIndex < uint64Size)
    (hindex : msg.index < uint64Size) (h : r.handleAppendEntriesResp msg = some r') :
    Sizes r r' := by
  have hcursor : ∀ {nextIndex : GoMap String Nat} {next : Nat},
      r.nextIndex.write msg.sender next = some nextIndex → next ≤ uint64Size → r.Sized →
      ∀ peer, nextIndex.read peer ≤ uint64Size := by
    intro nextIndex next hwrite hnext hsized peer
    rw [GoMap.read_write hwrite]
    split
    · exact hnext
    · exact hsized.cursor peer
  rcases handleAppendEntriesResp_cases h with ⟨rfl, -⟩ |
    ⟨next, nextIndex, -, -, ⟨-, hnext⟩, hwrite, rfl⟩ |
    ⟨-, -, -, matchIndex, nextIndex, hwrites, rfl⟩
  · exact .of_frame rfl rfl rfl
  · refine ⟨fun hsized => ⟨hsized.commit, hcursor hwrite ?_ hsized⟩, fun m hm => .inl hm⟩
    have := hsized.cursor msg.sender
    omega
  · rw [maybeAdvanceCommit_frame]
    refine ⟨fun hsized => ⟨?_, ?_⟩, fun m hm => .inl hm⟩
    · refine Nat.lt_of_le_of_lt (maybeAdvanceCommit_le _) ?_
      exact max_lt hsized.commit hlast
    · rcases hwrites with ⟨-, rfl⟩ | ⟨-, -, hwrite⟩
      · exact hsized.cursor
      · exact hcursor hwrite hindex hsized

theorem step_sizes (hmsg : msg.Fits) (hlast : r.lastLogIndex < uint64Size)
    (hlast' : r'.lastLogIndex < uint64Size) (h : r.step msg = some r') : Sizes r r' := by
  by_cases htype : msg.type = .appendEntries
  · exact step_appendEntries_sizes htype hmsg hlast' h
  · obtain ⟨r₁, hr₁, h⟩ := Option.bind_eq_some_iff.mp h
    have hframe : r₁.msgs = r.msgs ∧ r₁.commitIndex = r.commitIndex ∧
        r₁.nextIndex = r.nextIndex ∧ r₁.log = r.log := by
      rcases observeTerm_cases hr₁ with rfl | ⟨-, leaderID, rfl⟩ <;> exact ⟨rfl, rfl, rfl, rfl⟩
    have hlast₁ : r₁.lastLogIndex < uint64Size := by
      rwa [lastLogIndex, hframe.2.2.2]
    refine Sizes.after ?_ hframe.1 hframe.2.1 hframe.2.2.1
    unfold handle at h
    split at h
    · cases h
      exact handleRequestVote_sizes r₁ msg
    · exact handleRequestVoteResp_sizes hlast₁ h
    next hno => exact absurd hno htype
    · exact handleAppendEntriesResp_sizes hlast₁ hmsg.index h
    · cases h
      exact .of_frame rfl rfl rfl

structure Ranged (r : Raft) : Prop where
  tidy : Tidy r.currentTerm r.log
  term : r.currentTerm < uint64Size
  length : r.log.length < uint64Size
  sized : r.Sized

namespace Ranged

theorem last (h : r.Ranged) : r.lastLogIndex < uint64Size := by
  rw [lastLogIndex_eq h.tidy.indexed]
  exact h.length

theorem slot (h : r.Ranged) {e : LogEntry} (he : e ∈ r.slots) : e.Fits := by
  rcases List.mem_cons.mp he with rfl | he
  · decide
  · obtain ⟨k, hk⟩ := List.getElem?_of_mem he
    have hlen := (List.getElem?_eq_some_iff.mp hk).1
    have hlength := h.length
    refine ⟨?_, (h.tidy.bounded e he).trans_lt h.term⟩
    rw [h.tidy.indexed k e hk]
    omega

theorem logTerm (h : r.Ranged) (k : Nat) : r.logTerm k < uint64Size := by
  unfold Raft.logTerm
  split
  next e he => exact (h.slot (List.mem_of_getElem? he)).2
  next => exact Nat.zero_lt_succ _

theorem lastLogTerm (h : r.Ranged) : r.lastLogTerm < uint64Size := by
  unfold Raft.lastLogTerm
  cases hlast : r.log.getLast? with
  | none => exact Nat.zero_lt_succ _
  | some e => exact (h.slot (List.mem_cons_of_mem _ (List.mem_of_getLast? hlast))).2

theorem appendEntriesFor (h : r.Ranged) {peer : String} {m : Message}
    (hm : r.appendEntriesFor peer = some m) : m.Fits := by
  have hentries : ∀ e ∈ m.entries, e ∈ r.slots := by
    intro e he
    unfold Raft.appendEntriesFor at hm
    simp only at hm
    split at hm
    · split at hm
      · cases hm
        exact List.mem_of_mem_drop he
      · cases hm
    · cases hm
      cases he
  obtain ⟨entries, rfl⟩ := appendEntriesFor_eq hm
  have hcursor := h.sized.cursor peer
  have hzero : 0 < uint64Size := Nat.zero_lt_succ _
  refine ⟨h.term, ?_, h.logTerm _, fun e he => h.slot (hentries e he), h.sized.commit, hzero,
    hzero, hzero⟩
  simp only [pred64]
  split <;> omega

theorem quoted (h : r.Ranged) {m : Message} (hterm : m.term = r.currentTerm)
    (hm : r.Quotes m) : m.Fits := by
  obtain ⟨⟨hprev, hprevTerm, hentries, hcommit⟩, hlast, hindex⟩ := hm
  have hzero : 0 < uint64Size := Nat.zero_lt_succ _
  refine ⟨hterm ▸ h.term, hprev ▸ hzero, hprevTerm ▸ hzero, by simp [hentries], hcommit ▸ hzero,
    ?_, ?_, hindex⟩
  · rcases hlast with ⟨hlast, -⟩ | ⟨hlast, -⟩
    · exact hlast ▸ h.last
    · exact hlast ▸ hzero
  · rcases hlast with ⟨-, hlast⟩ | ⟨-, hlast⟩
    · exact hlast ▸ h.lastLogTerm
    · exact hlast ▸ hzero

end Ranged
end Raft

open Raft

theorem Node.act_fits {env : Env} {n n' : Node} {input : Input} (hdrained : n.raft.msgs = [])
    (hlast : n.raft.lastLogIndex < uint64Size) (hsized : n.raft.Sized)
    (hinput : ∀ m, input.stepped n.id = some m → m.Fits) (hact : n.act env input = some n')
    (htidy : Tidy n'.raft.currentTerm n'.raft.log) (hterm : n'.raft.currentTerm < uint64Size)
    (hlength : n'.raft.log.length < uint64Size) :
    n'.raft.Sized ∧ ∀ m ∈ n'.raft.msgs, m.Fits := by
  have hposts := Node.act_posts hdrained hact
  obtain ⟨r, lastApplied, hperforms, hraft, -⟩ := Node.act_performs hact
  rw [hraft] at htidy hterm hlength
  have hlast' : r.lastLogIndex < uint64Size := by
    have heq : r.lastLogIndex = r.log.length := lastLogIndex_eq htidy.indexed
    rw [heq]
    exact hlength
  have hsizes : Sizes n.raft r := by
    cases hperforms with
    | tick h => exact tick_sizes hlast h
    | propose h => exact propose_sizes h
    | step hm h => exact step_sizes (hinput _ hm) hlast hlast' h
    | join =>
      obtain ⟨hframe, -⟩ := addPeer_frame n.raft _
      rw [hframe]
      exact .of_frame rfl rfl rfl
  have hranged : n'.raft.Ranged := by
    rw [hraft]
    exact ⟨htidy, hterm, hlength, (hsizes.sized hsized).commit, (hsizes.sized hsized).cursor⟩
  refine ⟨hranged.sized, fun m hm => ?_⟩
  have hposted := hposts m hm
  by_cases htype : m.type = .appendEntries
  · obtain ⟨-, -, peer, -, hfor⟩ := hposted.broadcast htype
    exact hranged.appendEntriesFor hfor
  · have hm' : m ∈ r.msgs := by
      rw [hraft] at hm
      exact hm
    rcases hsizes.quotes m hm' with hold | hno | hquotes
    · rw [hdrained] at hold
      cases hold
    · exact absurd hno htype
    · refine hranged.quoted hposted.term ?_
      rw [hraft]
      exact ⟨hquotes.bare, hquotes.last, hquotes.index⟩

namespace Cluster

variable {w : World} {c : Cluster} {i : String} {n n' : Node} {stimulus : Stimulus}
  {input : Input} {via : Option (Nat × Packet)} {ok : Cluster → Event → Prop}

theorem answered_fits {req m : Message} (h : m.Fits) : (req.answered m).Fits := by
  have hzero : 0 < uint64Size := Nat.zero_lt_succ _
  unfold Message.answered
  split
  · exact ⟨h.term, hzero, hzero, nofun, hzero, hzero, hzero, h.index⟩
  · exact ⟨h.term, hzero, hzero, nofun, hzero, hzero, hzero, hzero⟩

theorem received_fits {msg : Message} (h : msg.Fits) (id : String) : (msg.received id).Fits := by
  have hzero : 0 < uint64Size := Nat.zero_lt_succ _
  unfold Message.received
  split
  · exact ⟨h.term, h.prevLogIndex, h.prevLogTerm, h.entries, h.leaderCommit, hzero, hzero, hzero⟩
  · exact ⟨h.term, hzero, hzero, nofun, hzero, h.lastLogIndex, h.lastLogTerm, hzero⟩

def fitting : Invariant where
  node := fun _ _ n => n.raft.Sized
  packet := fun _ pk => pk.msg.Fits
  seen := fun _ _ _ => True
  node_mono := fun _ h => h
  packet_mono := fun _ h => h
  seen_mono := fun _ h => h

/-- Terms and logs keep within their types. -/
def Within (c : Cluster) : Prop := c.TermsBelow ∧ c.LogsBelow

theorem stepped_fits (h : fitting.Holds c) (hinput : c.input i stimulus = some (input, via))
    {id : String} {m : Message} (hm : input.stepped id = some m) : m.Fits := by
  obtain ⟨k, pk, -, -, hpk, -, ⟨-, -, rfl⟩ | ⟨-, -, rfl⟩⟩ := stepped_packet hinput hm
  · exact received_fits (h.packet pk (List.mem_of_getElem? hpk)) id
  · exact h.packet pk (List.mem_of_getElem? hpk)

theorem node_last (hreach : Reach w ok c) (hwithin : c.Within) (hn : c.node i = some n) :
    n.raft.lastLogIndex < uint64Size := by
  have hindexed := ((hreach.tidy hwithin.1 hwithin.2).node i n hn).1.tidy.indexed
  have hlength : n.raft.log.length + 1 < 9223372036854775808 :=
    hwithin.2 _ (hreach.orderly.node i n hn).now
  rw [lastLogIndex_eq hindexed]
  simp only [uint64Size]
  omega

theorem acted_fits (hreach : Reach w ok c) (hwithin : c.Within) (h : fitting.Holds c)
    (hn : c.node i = some n) (hinput : c.input i stimulus = some (input, via))
    (hact : n.act w.env input = some n') (hterm : n'.raft.currentTerm < uint64Size - 1)
    (hlength : n'.raft.slots.length < 9223372036854775808) :
    n'.raft.Sized ∧ ∀ m ∈ n'.raft.msgs, m.Fits := by
  have hordered := (acted_ordered hreach.orderly (hreach.tidy hwithin.1 hwithin.2) hwithin.1 hn
    hinput hact).1
  have hsize : n'.raft.log.length + 1 < 9223372036854775808 := hlength
  refine Node.act_fits (hreach.orderly.node i n hn).drained (node_last hreach hwithin hn)
    (h.node i n hn) (fun m hm => stepped_fits h hinput hm) hact hordered.tidy (by omega) ?_
  simp only [uint64Size]
  omega

theorem declined_raft (hdeclines : n.declines input = true)
    (hact : n.act w.env input = some n') : n'.raft = n.raft := by
  cases input with
  | propose data =>
    have hstate : n.raft.state ≠ .leader := of_decide_eq_true hdeclines
    have hpropose : n.raft.propose data = some (none, n.raft) := if_pos hstate
    rw [Node.act, Node.register, hpropose] at hact
    cases hact
    rfl
  | _ => cases hdeclines

theorem fitting_kept : fitting.Kept w fun c e =>
    c.Within ∧ ∀ c', c.step w e = some c' → c'.Within where
  boot := by
    intro c i n _ hboot
    obtain ⟨peerAddrs, rfl⟩ := World.boot_eq hboot
    exact ⟨⟨Nat.zero_lt_succ _, fun _ => Nat.zero_le _⟩, trivial⟩
  handle := by
    intro c i stimulus n input via n' hreach h ⟨hwithin, hnext⟩ hn hinput hact
    have hacted : n'.raft.Sized ∧ ∀ m ∈ n'.raft.msgs, m.Fits := by
      cases hdeclines : n.declines input with
      | true =>
        rw [declined_raft hdeclines hact, (hreach.orderly.node i n hn).drained]
        exact ⟨h.node i n hn, nofun⟩
      | false =>
        obtain ⟨hterms, hlogs⟩ := hnext _ (step_completed hn hinput hdeclines hact)
        have hseen : (i, { n'.raft with msgs := [] }) ∈ (c.completed i n' via).hist :=
          List.mem_append_right _ (List.mem_singleton.mpr rfl)
        exact acted_fits hreach hwithin h hn hinput hact (hterms _ hseen) (hlogs _ hseen)
    refine ⟨⟨hacted.1.commit, hacted.1.cursor⟩, trivial, fun pk hpk => ?_⟩
    rcases mem_emitted hpk with ⟨m, hm, -, rfl⟩ | ⟨k, req, m, -, -, hm, -, rfl⟩
    · exact hacted.2 m hm
    · exact answered_fits (hacted.2 m hm)
  interrupt := fun _ _ _ _ _ _ _ _ _ _ _ _ _ => trivial
  crash := by
    intro c c₁ i during n n' _ _ _ _ hboot _ _
    obtain ⟨peerAddrs, rfl⟩ := World.boot_eq hboot
    exact ⟨⟨Nat.zero_lt_succ _, fun _ => Nat.zero_le _⟩, trivial⟩
  dial := fun c k pk n dest _ h _ hk _ _ _ => h.packet pk (List.mem_of_getElem? hk)
  answer := by
    intro c i call success n n' _ h _ hn hanswer
    obtain ⟨calls, rfl⟩ := Node.answer_frame hanswer
    exact h.node i n hn

theorem Within.before {c' : Cluster} {e : Event} (hstep : c.step w e = some c')
    (h : c'.Within) : c.Within :=
  ⟨h.1.before hstep, fun seen hseen => h.2 seen ((step_grows hstep).1.subset hseen)⟩

theorem Reach.fitting (hreach : Reach w ok c) (hwithin : c.Within) : Cluster.fitting.Holds c := by
  have hback : ∀ s s' e, step w s e = some s' → s'.Within → s.Within :=
    fun _ _ _ hstep h => h.before hstep
  exact fitting_kept.reach (((hreach.before hback hwithin).throughout hback hwithin).mono
    fun _ _ hok => ⟨hok.1.2, hok.2⟩)

end Cluster

def Node.hear (env : Env) (n : Node) (m : Message) : Option Node := do
  let raft ← n.raft.step m
  if m.type = .appendEntries then pure (Node.applyCommitted env { n with raft })
  else pure { n with raft }

/-- The response that a handler of node `i` gives to the request in packet `k`, as its sender
reads it from the text. -/
def responseText (i : String) (k : Nat) (pk : Packet) (out : List Message) :
    Option (List Packet) :=
  match (out.filter fun m => m.isReply pk.msg).getLast? with
  | none => some []
  | some m => (pk.msg.responded m).map fun msg =>
      [{ origin := i, msg, dest := some pk.origin, cause := some k }]

/-- The step of a cluster whose requests and responses travel as text. -/
def Cluster.stepText (w : World) (c : Cluster) : Event → Option Cluster
  | .handle i (.packet k) => do
    let n ← c.node i
    let pk ← c.net[k]?
    if pk.dest = some i ∧ pk.msg.isRequest = true then
      let n ← (pk.msg.requested n.id).bind (n.hear w.env)
      let (n, out) := n.release true
      let back ← responseText i k pk out
      some { c.setNode i n with
        net := c.net ++ (Cluster.route i (out.filter fun m => !m.isReply pk.msg) ++ back) }
    else c.step w (.handle i (.packet k))
  | e => c.step w e

namespace Cluster

abbrev ReachText (w : World) (ok : Cluster → Event → Prop) : Cluster → Prop :=
  Reachable (start w) (stepText w) ok

variable {w : World} {c : Cluster} {i : String} {n n' : Node} {k : Nat} {pk : Packet}

theorem hear_received {msg : Message} (hrequest : msg.isRequest = true) (env : Env) (n : Node) :
    n.hear env (msg.received n.id) = n.act env (.request msg) := by
  rw [Node.hear, (Message.received_frame hrequest n.id).1]
  rfl

theorem responseText_eq {out : List Message} (h : ∀ m ∈ out, m.Fits) :
    responseText i k pk out =
      some ((out.filter fun m => m.isReply pk.msg).getLast?.toList.map fun m =>
        { origin := i, msg := pk.msg.answered m, dest := some pk.origin, cause := some k }) := by
  unfold responseText
  cases hlast : (out.filter fun m => m.isReply pk.msg).getLast? with
  | none => rfl
  | some m =>
    have hm := List.mem_of_mem_filter (List.mem_of_getLast? hlast)
    simp only [Message.responded_eq (h m hm) pk.msg]
    rfl

theorem stepText_cases {c' : Cluster} {e : Event} (h : c.stepText w e = some c') :
    c.step w e = some c' ∨ ∃ i k n pk n' back, e = .handle i (.packet k) ∧ c.node i = some n ∧
      c.net[k]? = some pk ∧ pk.dest = some i ∧ pk.msg.isRequest = true ∧
      (pk.msg.requested n.id).bind (n.hear w.env) = some n' ∧
      responseText i k pk n'.raft.msgs = some back ∧
      c' = { c.setNode i (n'.release true).1 with
        net := c.net ++ (route i (n'.raft.msgs.filter fun m => !m.isReply pk.msg) ++ back) } := by
  unfold stepText at h
  split at h
  next i k =>
    obtain ⟨n, hn, h⟩ := Option.bind_eq_some_iff.mp h
    obtain ⟨pk, hk, h⟩ := Option.bind_eq_some_iff.mp h
    split at h
    next hfor =>
      obtain ⟨n', hserved, h⟩ := Option.bind_eq_some_iff.mp h
      obtain ⟨back, hback, h⟩ := Option.bind_eq_some_iff.mp h
      cases h
      exact .inr ⟨i, k, n, pk, n', back, rfl, hn, hk, hfor.1, hfor.2, hserved, hback, rfl⟩
    next => exact .inl h
  next => exact .inl h

theorem stepText_grows {c' : Cluster} {e : Event} (h : c.stepText w e = some c') :
    c.hist <+: c'.hist := by
  rcases stepText_cases h with hstep | ⟨i, k, n, pk, n', back, -, -, -, -, -, -, -, rfl⟩
  · exact (step_grows hstep).1
  · exact List.prefix_append _ _

theorem step_of_stepText {ok : Cluster → Event → Prop} {c' : Cluster} {e : Event}
    (hreach : Reach w ok c) (hwithin : c.Within) (hwithin' : c'.Within)
    (h : c.stepText w e = some c') : c.step w e = some c' := by
  have hfitting := hreach.fitting hwithin
  rcases stepText_cases h with hstep |
    ⟨i, k, n, pk, n', back, rfl, hn, hk, hdest, hrequest, hserved, hback, rfl⟩
  · exact hstep
  have hinput : c.input i (.packet k) = some (.request pk.msg, some (k, pk)) := by
    simp [input, hk, hdest, hrequest]
  have hact : n.act w.env (.request pk.msg) = some n' := by
    have hfits := hfitting.packet pk (List.mem_of_getElem? hk)
    rwa [Message.requested_eq hfits, Option.bind_some, hear_received hrequest] at hserved
  have hseen : (i, { n'.raft with msgs := [] }) ∈ (c.setNode i (n'.release true).1).hist :=
    List.mem_append_right _ (List.mem_singleton.mpr rfl)
  have hout := (acted_fits hreach hwithin hfitting hn hinput hact (hwithin'.1 _ hseen)
    (hwithin'.2 _ hseen)).2
  rw [responseText_eq hout] at hback
  cases hback
  rw [step_completed hn hinput rfl hact]
  have hreleased : (n'.release true).2 = n'.raft.msgs := rfl
  simp only [completed, emitted, hrequest, hreleased, if_true]

theorem stepText_request (hn : c.node i = some n) (hk : c.net[k]? = some pk)
    (hdest : pk.dest = some i) (hrequest : pk.msg.isRequest = true) (hfits : pk.msg.Fits)
    (hact : n.act w.env (.request pk.msg) = some n') (hout : ∀ m ∈ n'.raft.msgs, m.Fits) :
    c.stepText w (.handle i (.packet k)) = some (c.completed i n' (some (k, pk))) := by
  have hserved : (pk.msg.requested n.id).bind (n.hear w.env) = some n' := by
    rw [Message.requested_eq hfits, Option.bind_some, hear_received hrequest, hact]
  have hreleased : (n'.release true).2 = n'.raft.msgs := rfl
  simp only [stepText, hn, hk, hdest, hrequest, and_self, if_true, hserved, Option.bind_eq_bind,
    Option.bind_some]
  rw [hreleased, responseText_eq hout, Option.bind_some]
  simp only [completed, hreleased, emitted, hrequest, if_true]

theorem stepText_of_step {ok : Cluster → Event → Prop} {c' : Cluster} {e : Event}
    (hreach : Reach w ok c) (hwithin' : c'.Within) (h : c.step w e = some c') :
    c.stepText w e = some c' := by
  have hwithin : c.Within := hwithin'.before h
  have hfitting := hreach.fitting hwithin
  cases e with
  | handle i stimulus =>
    cases stimulus with
    | packet k =>
      obtain ⟨n, input, via, hn, hinput, hcases⟩ := step_handle h
      obtain ⟨pk, hk, hinput'⟩ := Option.bind_eq_some_iff.mp hinput
      split at hinput'
      next hdest =>
        by_cases hrequest : pk.msg.isRequest = true
        · rw [if_pos hrequest] at hinput'
          cases hinput'
          obtain ⟨hno, -⟩ | ⟨n', hact, rfl⟩ := hcases
          · cases hno
          have hseen : (i, { n'.raft with msgs := [] }) ∈
              (c.completed i n' (some (k, pk))).hist :=
            List.mem_append_right _ (List.mem_singleton.mpr rfl)
          have hout := (acted_fits hreach hwithin hfitting hn hinput hact (hwithin'.1 _ hseen)
            (hwithin'.2 _ hseen)).2
          exact stepText_request hn hk hdest hrequest
            (hfitting.packet pk (List.mem_of_getElem? hk)) hact hout
        · simp only [stepText, hn, hk, Option.bind_eq_bind, Option.bind_some]
          rw [if_neg fun hfor => hrequest hfor.2]
          exact h
      next => cases hinput'
    | _ => exact h
  | _ => exact h

end Cluster

/-- The cluster whose messages travel as JSON text runs as the cluster does whose messages
travel as they are, so what holds in every run of that one holds of it. -/
theorem text_runs_are_runs {w : World} {ok : Cluster → Event → Prop} {c : Cluster}
    (hterms : c.TermsBelow) (hlogs : c.LogsBelow) :
    Cluster.ReachText w ok c ↔ Cluster.Reach w ok c := by
  have hback : ∀ c, Cluster.ReachText w ok c → c.Within → Cluster.Reach w ok c := by
    intro c hreach
    induction hreach with
    | start h => exact fun _ => .start h
    | step _ hok hstep ih =>
      intro hwithin
      have hgrows := Cluster.stepText_grows hstep
      have hbefore : Cluster.Within _ := ⟨fun seen hseen => hwithin.1 seen (hgrows.subset hseen),
        fun seen hseen => hwithin.2 seen (hgrows.subset hseen)⟩
      have hdirect := ih hbefore
      exact hdirect.step hok (Cluster.step_of_stepText hdirect hbefore hwithin hstep)
  have hforth : ∀ c, Cluster.Reach w ok c → c.Within → Cluster.ReachText w ok c := by
    intro c hreach
    induction hreach with
    | start h => exact fun _ => .start h
    | step hreach hok hstep ih =>
      intro hwithin
      exact (ih (hwithin.before hstep)).step hok (Cluster.stepText_of_step hreach hwithin hstep)
  exact ⟨fun h => hback c h ⟨hterms, hlogs⟩, fun h => hforth c h ⟨hterms, hlogs⟩⟩

/-- A asks B for its vote and has it, in text. -/
theorem text_runs_are_runs_vote :
    ∃ c, Cluster.ReachText (mesh ["a", "b", "c"] 1 1) (fun _ e => e.steady = true) c ∧
      ∃ n ∈ c.node "a", n.raft.state = .leader := by
  obtain ⟨c, hreach, hterms, hlogs, n, hn, hlead⟩ :
      ∃ c, Cluster.Reach (mesh ["a", "b", "c"] 1 1) (fun _ e => e.steady = true) c ∧
        c.TermsBelow ∧ c.LogsBelow ∧ ∃ n ∈ c.node "a", n.raft.state = .leader :=
    Reachable.of_any
      [.handle "a" .tick, .dial 0, .handle "b" (.packet 2), .handle "a" (.packet 3)] rfl
  exact ⟨c, (text_runs_are_runs hterms hlogs).mpr hreach, n, hn, hlead⟩

end Phalanx
