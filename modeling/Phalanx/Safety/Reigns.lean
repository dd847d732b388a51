import Phalanx.Raft.Operations
import Phalanx.Safety.WellFormed

/-! How far a term reaches. Only the leader of a term makes entries of it, so no log holds
an entry of the term beyond the leader's own last index; an acknowledgement names the last
index of a log that ends in that term, and a back-off hint an index before the one it was
asked about. -/
namespace Phalanx

open Consensus Go Raft

/-- A node led a term, with a log up to `extent`, in a state that others may have seen. -/
structure Reign where
  leader : String
  term : Nat
  extent : Nat

def Reached (reigns : List Reign) (term index : Nat) : Prop :=
  ∃ g ∈ reigns, g.term = term ∧ index ≤ g.extent

theorem Reached.mono {reigns reigns' : List Reign} {term index : Nat}
    (h : Reached reigns term index) (hsub : reigns ⊆ reigns') : Reached reigns' term index := by
  obtain ⟨g, hg, hrest⟩ := h
  exact ⟨g, hsub hg, hrest⟩

theorem Reached.le {reigns : List Reign} {term index index' : Nat}
    (h : Reached reigns term index) (hle : index' ≤ index) : Reached reigns term index' := by
  obtain ⟨g, hg, hterm, hextent⟩ := h
  exact ⟨g, hg, hterm, hle.trans hextent⟩

theorem Tidy.reached {reigns : List Reign} {term : Nat} {log : List LogEntry} (h : Tidy term log)
    (hpos : 0 < term) (hends : lastKey LogEntry.term log = term)
    (hlog : ∀ e ∈ log, Reached reigns e.term e.index) : Reached reigns term log.length := by
  unfold lastKey at hends
  cases hlast : log.getLast? with
  | none =>
    rw [hlast] at hends
    exact absurd hends (Nat.ne_of_lt hpos)
  | some e =>
    rw [hlast] at hends
    have hindex : e.index = log.length := by
      have := h.indexed.lastIndexOf
      rwa [lastIndexOf, hlast] at this
    have hreached := hlog e (List.mem_of_getLast? hlast)
    rw [hindex] at hreached
    exact hends ▸ hreached

theorem Tidy.ends {term : Nat} {log : List LogEntry} (h : Tidy term log) {k : Nat} {e : LogEntry}
    (he : log[k]? = some e) (hterm : e.term = term) : lastKey LogEntry.term log = term := by
  have hk : k < log.length := (List.getElem?_eq_some_iff.mp he).1
  have hlast : log[log.length - 1]? = some log[log.length - 1] :=
    List.getElem?_eq_getElem (by omega)
  have hlow := h.le_of_lt (by omega) he hlast
  have hhigh := h.bounded _ (List.mem_of_getElem? hlast)
  rw [lastKey, List.getLast?_eq_getElem?, hlast]
  exact Nat.le_antisymm hhigh (hterm ▸ hlow)

theorem spliced_ends {term p : Nat} {kept sent : List LogEntry} (hpos : 0 < term)
    (hends : lastKey LogEntry.term sent = term) (hkept : p ≤ kept.length) (hsent : p ≤ sent.length)
    (hseam : ∀ a b, 0 < p → kept[p - 1]? = some a → sent[p - 1]? = some b → a.term = b.term) :
    ∃ e, (kept.take p ++ splice LogEntry.term (kept.drop p) (sent.drop p))[sent.length - 1]? =
      some e ∧ e.term = term := by
  rw [lastKey, List.getLast?_eq_getElem?] at hends
  cases hlast : sent[sent.length - 1]? with
  | none =>
    rw [hlast] at hends
    exact absurd hends (Nat.ne_of_lt hpos)
  | some z =>
    rw [hlast] at hends
    have hlength : sent.length - 1 < sent.length := (List.getElem?_eq_some_iff.mp hlast).1
    have htake : (kept.take p).length = p := by simpa using hkept
    by_cases hp : p < sent.length
    · have hz : (sent.drop p)[sent.length - 1 - p]? = some z := by
        rw [List.getElem?_drop, show p + (sent.length - 1 - p) = sent.length - 1 by omega]
        exact hlast
      obtain ⟨a, ha, hkey⟩ := splice_key (l := kept.drop p) hz
      rw [List.getElem?_append_right (by omega), htake]
      exact ⟨a, ha, hkey.trans hends⟩
    · have heq : sent.length = p := by omega
      rw [heq] at hlast hlength ⊢
      have hget : kept[p - 1]? = some kept[p - 1] := List.getElem?_eq_getElem (by omega)
      rw [List.getElem?_append_left (by omega), List.getElem?_take_of_lt hlength]
      exact ⟨_, hget, (hseam _ _ (by omega) hget hlast).trans hends⟩

/-- An AppendEntries was cut out of a leader's log that ended in the leader's term, and an
index that speaks for a term is one the leader of that term had. -/
structure Message.Bounded (reigns : List Reign) (m : Message) : Prop where
  issued : m.type = .appendEntries → ∃ log, Tidy m.term log ∧ 0 < m.term ∧
    lastKey LogEntry.term log = m.term ∧ (∀ e ∈ log, Reached reigns e.term e.index) ∧
    m.prevLogIndex ≤ log.length ∧ m.entries = log.drop m.prevLogIndex ∧
    (m.prevLogIndex = 0 ∨ ∃ y, log[m.prevLogIndex - 1]? = some y ∧ y.term = m.prevLogTerm)
  index : m.type = .appendEntriesResp → 0 < m.index → Reached reigns m.term m.index

theorem Message.Bounded.mono {reigns reigns' : List Reign} {m : Message}
    (h : m.Bounded reigns) (hsub : reigns ⊆ reigns') : m.Bounded reigns' where
  issued := by
    intro htype
    obtain ⟨log, htidy, hpos, hends, hlog, hcut⟩ := h.issued htype
    exact ⟨log, htidy, hpos, hends, fun e he => (hlog e he).mono hsub, hcut⟩
  index := fun htype hpos => (h.index htype hpos).mono hsub

namespace Raft

variable {reigns : List Reign} {r r' : Raft} {msg : Message}

def reign (r : Raft) : List Reign :=
  if r.state = .leader then [⟨r.id, r.currentTerm, r.log.length⟩] else []

/-- The cursors of a leader, those of nodes that are no peers included. -/
def Cursored (r : Raft) : Prop :=
  r.state = .leader → (∀ p, r.nextIndex.read p ≤ r.log.length + 1) ∧
    ∀ p ∈ r.peers, 1 ≤ r.nextIndex.read p

/-- The node's own reigns are over, or it is in office and has kept its log. -/
def Succeeds (reigns : List Reign) (r : Raft) : Prop :=
  ∀ g ∈ reigns, g.leader = r.id → g.term ≤ r.currentTerm ∧ (g.term = r.currentTerm →
    r.state ≠ .candidate ∧ (r.state = .leader → g.extent ≤ r.log.length))

structure Bounded (reigns : List Reign) (r : Raft) : Prop where
  own : r.Succeeds reigns
  entries : ∀ e ∈ r.log, Reached reigns e.term e.index
  office : r.state = .leader → lastKey LogEntry.term r.log = r.currentTerm
  cursors : r.Cursored

theorem mem_reign {g : Reign} (h : g ∈ r.reign) :
    r.state = .leader ∧ g = ⟨r.id, r.currentTerm, r.log.length⟩ := by
  unfold reign at h
  split at h
  next hlead => exact ⟨hlead, List.mem_singleton.mp h⟩
  next => cases h

theorem reign_of_leader (h : r.state = .leader) :
    r.reign = [⟨r.id, r.currentTerm, r.log.length⟩] := if_pos h

theorem Bounded.enter (hown : r.Succeeds reigns)
    (hentries : ∀ e ∈ r.log, Reached (reigns ++ r.reign) e.term e.index)
    (hoffice : r.state = .leader → lastKey LogEntry.term r.log = r.currentTerm)
    (hcursors : r.Cursored) : r.Bounded (reigns ++ r.reign) where
  own := by
    intro g hg hself
    rcases List.mem_append.mp hg with hold | hnew
    · exact hown g hold hself
    · obtain ⟨hlead, rfl⟩ := mem_reign hnew
      exact ⟨le_rfl, fun _ => ⟨by simp [hlead], fun _ => le_rfl⟩⟩
  entries := hentries
  office := hoffice
  cursors := hcursors

theorem Bounded.settle (h : r.Bounded reigns) : r.Bounded (reigns ++ r.reign) :=
  .enter h.own (fun e he => (h.entries e he).mono (List.subset_append_left _ _)) h.office h.cursors

theorem Bounded.foreign (h : r.Bounded reigns) {more : List Reign}
    (hother : ∀ g ∈ more, g.leader ≠ r.id) : r.Bounded (reigns ++ more) where
  own := by
    intro g hg hself
    rcases List.mem_append.mp hg with hold | hnew
    · exact h.own g hold hself
    · exact absurd hself (hother g hnew)
  entries := fun e he => (h.entries e he).mono (List.subset_append_left _ _)
  office := h.office
  cursors := h.cursors

theorem Bounded.demoted (h : r.Bounded reigns) {term : Nat} (hlater : r.currentTerm < term)
    (leaderID : String) : (r.demoted term leaderID).Bounded reigns where
  own := by
    intro g hg hself
    have hbefore : g.term < term := (h.own g hg hself).1.trans_lt hlater
    exact ⟨hbefore.le, fun hno => absurd hno hbefore.ne⟩
  entries := h.entries
  office := nofun
  cursors := nofun

theorem Bounded.candidacy (h : r.Bounded reigns)
    (hterm : succ64 r.currentTerm = r.currentTerm + 1) : r.candidacy.Bounded reigns where
  own := by
    intro g hg hself
    have hbefore := (h.own g hg hself).1
    change g.term ≤ succ64 r.currentTerm ∧ (g.term = succ64 r.currentTerm → _)
    rw [hterm]
    exact ⟨by omega, fun hno => absurd hno (by omega)⟩
  entries := h.entries
  office := nofun
  cursors := nofun

theorem Bounded.extended (h : r.Bounded reigns) (hindexed : Indexed r.log) {entry : LogEntry}
    (hlog : r'.log = r.log ++ [entry]) (hlead : r'.state = .leader)
    (hterm : r'.currentTerm = r.currentTerm) (hindex : entry.index = r.lastLogIndex + 1)
    (hentry : entry.term = r.currentTerm) :
    (∀ e ∈ r'.log, Reached (reigns ++ r'.reign) e.term e.index) ∧
      lastKey LogEntry.term r'.log = r'.currentTerm := by
  rw [reign_of_leader hlead, hterm, hlog]
  refine ⟨fun e he => ?_, by simp [lastKey, hentry]⟩
  rcases List.mem_append.mp he with hold | hnew
  · exact (h.entries e hold).mono (List.subset_append_left _ _)
  · rw [List.mem_singleton.mp hnew]
    refine ⟨_, List.mem_append_right _ (List.mem_singleton_self _), hentry.symm, ?_⟩
    rw [hindex, lastLogIndex_eq hindexed, List.length_append]
    exact le_rfl

theorem Bounded.becomeLeader (h : r.Bounded reigns) (hindexed : Indexed r.log)
    (hstate : r.state = .candidate) (hlead : r.becomeLeader = some r') :
    r'.Bounded (reigns ++ r'.reign) := by
  have hcrowned : r.crowned.broadcastHeartbeat = some r' := hlead
  obtain ⟨out, -, hr'⟩ := broadcastHeartbeat_eq hcrowned
  have hlog : r'.log = r.log ++ [{ index := r.lastLogIndex + 1, term := r.currentTerm }] := by
    rw [hr']
    rfl
  obtain ⟨hentries, hends⟩ :=
    h.extended hindexed hlog (by rw [hr']; rfl) (by rw [hr']; rfl) rfl rfl
  refine .enter ?_ hentries (fun _ => hends) fun _ => ?_
  · intro g hg hself
    rw [hr'] at hself ⊢
    obtain ⟨hle, hcurrent⟩ := h.own g hg hself
    exact ⟨hle, fun heq => absurd hstate (hcurrent heq).1⟩
  · rw [hlog, hr', List.length_append, List.length_singleton]
    change (∀ p, (initialCursors r.peers (r.lastLogIndex + 1)).read p ≤ _) ∧
      ∀ p ∈ r.peers, 1 ≤ (initialCursors r.peers (r.lastLogIndex + 1)).read p
    have hlast := lastLogIndex_eq hindexed
    refine ⟨fun p => ?_, fun p hp => ?_⟩
    · have := initialCursors_le r.peers (r.lastLogIndex + 1) p
      omega
    · rw [initialCursors_read r.peers _ hp]
      omega

theorem Bounded.tick (h : r.Bounded reigns) (hindexed : Indexed r.log)
    (hterm : r.currentTerm < uint64Size - 1) (htick : r.tick = some r') :
    r'.Bounded (reigns ++ r'.reign) := by
  rcases tick_cases htick with ⟨hlead, hbeat⟩ | ⟨-, helection⟩
  · unfold tickHeartbeat at hbeat
    simp only at hbeat
    split at hbeat
    · obtain ⟨out, -, rfl⟩ := broadcastHeartbeat_eq hbeat
      exact Bounded.settle ⟨h.own, h.entries, h.office, h.cursors⟩
    · cases hbeat
      exact Bounded.settle ⟨h.own, h.entries, h.office, h.cursors⟩
  · rcases tickElection_cases helection with ⟨-, rfl⟩ | ⟨-, hcand⟩
    · exact Bounded.settle ⟨h.own, h.entries, h.office, h.cursors⟩
    · have hidle : { r with electionElapsed := 0, leaderActive := false }.Bounded reigns :=
        ⟨h.own, h.entries, h.office, h.cursors⟩
      have hstands := hidle.candidacy (succ64_of_lt hterm)
      rcases becomeCandidate_cases hcand with ⟨-, hwon⟩ | ⟨-, rfl⟩
      · exact hstands.becomeLeader hindexed rfl hwon
      · exact Bounded.settle ⟨hstands.own, hstands.entries, hstands.office, hstands.cursors⟩

theorem Bounded.propose (h : r.Bounded reigns) (hindexed : Indexed r.log) {data : List UInt8}
    {index : Option Nat} (hpropose : r.propose data = some (index, r')) :
    r'.Bounded (reigns ++ r'.reign) := by
  by_cases hlead : r.state = .leader
  · obtain ⟨matchIndex, msgs, -, hr'⟩ := propose_leader hlead hpropose
    have hlog : r'.log =
        r.log ++ [{ index := r.lastLogIndex + 1, term := r.currentTerm, data }] := by
      rw [hr']
    obtain ⟨hentries, hends⟩ :=
      h.extended hindexed hlog (by rw [hr']; exact hlead) (by rw [hr']) rfl rfl
    have hlonger : r.log.length ≤ r'.log.length := by
      rw [hlog]
      simp
    refine .enter ?_ hentries (fun _ => hends) fun _ => ?_
    · intro g hg hself
      rw [hr'] at hself
      obtain ⟨hle, hcurrent⟩ := h.own g hg hself
      refine ⟨by rw [hr']; exact hle, fun heq => ?_⟩
      rw [hr'] at heq
      obtain ⟨hseated, hextent⟩ := hcurrent heq
      exact ⟨by rw [hr']; exact hseated, fun _ => (hextent hlead).trans hlonger⟩
    · obtain ⟨hhigh, hlow⟩ := h.cursors hlead
      refine ⟨fun p => ?_, fun p hp => ?_⟩
      · have := hhigh p
        rw [hr']
        rw [hr'] at hlonger
        exact this.trans (Nat.succ_le_succ hlonger)
      · rw [hr'] at hp ⊢
        exact hlow p hp
  · rcases propose_cases hpropose with ⟨-, rfl⟩ | ⟨hyes, -⟩
    · exact h.settle
    · exact absurd hyes hlead

theorem Bounded.addPeer (h : r.Bounded reigns) {nodeID : String}
    (hknown : r.state = .leader → nodeID = r.id ∨ nodeID ∈ r.peers) :
    (r.addPeer nodeID).Bounded reigns := by
  unfold Raft.addPeer
  split
  · exact h
  next hother =>
    split
    · exact h
    next hnew =>
      refine ⟨h.own, h.entries, h.office, fun hlead => ?_⟩
      rcases hknown hlead with hself | hold
      · exact absurd hself hother
      · exact absurd hold hnew

theorem Bounded.within (h : r.Bounded reigns) (hlead : r.state = .leader)
    (hsole : ∀ g ∈ reigns, g.term = r.currentTerm → g.leader = r.id) {index : Nat}
    (hreached : Reached reigns r.currentTerm index) : index ≤ r.log.length := by
  obtain ⟨g, hg, hterm, hextent⟩ := hreached
  exact hextent.trans (((h.own g hg (hsole g hg hterm)).2 hterm).2 hlead)

theorem Cursored.write (h : r.Cursored) {peer : String} {next : Nat} {nextIndex : GoMap String Nat}
    (hwrite : r.nextIndex.write peer next = some nextIndex) (hlow : 1 ≤ next)
    (hhigh : next ≤ r.log.length + 1) : { r with nextIndex }.Cursored := by
  intro hlead
  refine ⟨fun p => ?_, fun p hp => ?_⟩
  · change nextIndex.read p ≤ r.log.length + 1
    rw [GoMap.read_write hwrite]
    split
    · exact hhigh
    · exact (h hlead).1 p
  · change 1 ≤ nextIndex.read p
    rw [GoMap.read_write hwrite]
    split
    · exact hlow
    · exact (h hlead).2 p hp

theorem Bounded.handleAppendEntriesResp (h : r.Bounded reigns)
    (hsole : r.state = .leader → ∀ g ∈ reigns, g.term = r.currentTerm → g.leader = r.id)
    (hmsg : 0 < msg.index → Reached reigns msg.term msg.index)
    (hresp : r.handleAppendEntriesResp msg = some r') : r'.Bounded reigns := by
  have hindex : r.state = .leader → msg.term = r.currentTerm → 0 < msg.index →
      msg.index ≤ r.log.length := by
    intro hlead hterm hpos
    exact h.within hlead (hsole hlead) (hterm ▸ hmsg hpos)
  rcases handleAppendEntriesResp_cases hresp with ⟨rfl, -⟩ |
    ⟨next, nextIndex, hlead, -, ⟨hterm, hnext⟩, hwrite, rfl⟩ |
    ⟨hlead, hterm, -, matchIndex, nextIndex, hcursor, rfl⟩
  · exact h
  · refine ⟨h.own, h.entries, h.office, h.cursors.write hwrite (by omega) ?_⟩
    rcases hnext with ⟨hpos, rfl⟩ | ⟨-, rfl⟩
    · exact Nat.succ_le_succ (hindex hlead hterm hpos)
    · exact (Nat.sub_le _ _).trans ((h.cursors hlead).1 msg.sender)
  · rw [maybeAdvanceCommit_frame]
    refine ⟨h.own, h.entries, h.office, ?_⟩
    rcases hcursor with ⟨-, rfl⟩ | ⟨hpos, -, hwrite⟩
    · exact h.cursors
    · exact h.cursors.write hwrite (Nat.succ_pos _)
        (Nat.succ_le_succ (hindex hlead hterm hpos))

theorem Bounded.heeding (h : r.Bounded reigns) (hterm : msg.term = r.currentTerm) :
    (r.heeding msg).Bounded reigns := by
  unfold Raft.heeding
  split
  · exact ⟨h.own, h.entries, h.office, h.cursors⟩
  · refine ⟨fun g hg hself => ⟨?_, fun _ => ⟨nofun, nofun⟩⟩, h.entries, nofun, nofun⟩
    exact (h.own g hg hself).1.trans hterm.ge

theorem Bounded.following (h : r.Bounded reigns) (hfresh : r.currentTerm ≤ msg.term) :
    (r.following msg).Bounded reigns := by
  unfold Raft.following
  split
  next hlater => exact (h.demoted hlater msg.sender).heeding rfl
  next hsame => exact h.heeding (by omega)

theorem Ordered.following (h : r.Ordered) (hfresh : r.currentTerm ≤ msg.term) :
    (r.following msg).Ordered := by
  refine ⟨?_, fun hno => absurd (heeding_state _ msg) hno⟩
  rw [following_term hfresh, (following_frame r msg).1]
  exact h.tidy.mono hfresh

theorem Bounded.accept (h : r.Bounded reigns) (hordered : r.Ordered) (hsourced : msg.Sourced)
    (hmsg : msg.Bounded reigns) (htype : msg.type = .appendEntries)
    (hterm : msg.term = r.currentTerm) (hpasses : r.passes msg) {log : List LogEntry}
    (hlog : log = r.log.take msg.prevLogIndex ++
      splice LogEntry.term (r.log.drop msg.prevLogIndex) msg.entries) :
    (∀ e ∈ log, Reached reigns e.term e.index) ∧ Tidy r.currentTerm log ∧
      Reached reigns r.currentTerm log.length := by
  obtain ⟨sent, hsent, hpos, hends, hreached, hle, hentries, hseam⟩ := hmsg.issued htype
  have hwithin := passes_within hordered.tidy.indexed hpasses
  have htidy : Tidy r.currentTerm log := by
    refine hordered.accept hsourced htype hterm hpasses ?_
    rw [hlog]
    exact appendLoop_eq hordered.tidy.indexed _ _ hwithin
  have hall : ∀ e ∈ log, Reached reigns e.term e.index := by
    intro e he
    rw [hlog] at he
    rcases List.mem_append.mp he with hold | hspliced
    · exact h.entries e (List.mem_of_mem_take hold)
    · rcases mem_splice hspliced with hold | hnew
      · exact h.entries e (List.mem_of_mem_drop hold)
      · rw [hentries] at hnew
        exact hreached e (List.mem_of_mem_drop hnew)
  refine ⟨hall, htidy, htidy.reached (hterm ▸ hpos) ?_ hall⟩
  rw [hentries] at hlog
  obtain ⟨e, he, heterm⟩ := spliced_ends hpos hends hwithin hle fun a b hprev ha hb => by
    -- both are the entry that the check compares
    obtain ⟨y, hy, hyterm⟩ := hseam.resolve_left (by omega)
    cases hb.symm.trans hy
    have hslot := logTerm_of_getElem ha
    rw [Nat.sub_add_cancel hprev] at hslot
    obtain ⟨-, hcheck⟩ := hpasses.resolve_left (by omega)
    exact hslot.symm.trans (hcheck.trans hyterm.symm)
  rw [← hlog] at he
  exact htidy.ends he (heterm.trans hterm)

theorem Bounded.appendEntries (h : r.Bounded reigns) (hordered : r.Ordered)
    (hbase : 0 < r.baseElectionTimeout) (hsourced : msg.Sourced) (hmsg : msg.Bounded reigns)
    (htype : msg.type = .appendEntries) (hstep : r.step msg = some r') :
    r'.Bounded reigns ∧ ∃ reply, r'.msgs = r.msgs ++ [reply] ∧
      (0 < reply.index → Reached reigns reply.term reply.index) := by
  rw [step_appendEntries hbase htype] at hstep
  split at hstep
  · cases hstep
    exact ⟨⟨h.own, h.entries, h.office, h.cursors⟩, _, rfl, fun hno => absurd hno (Nat.lt_irrefl 0)⟩
  next hfresh =>
    rw [Nat.not_lt] at hfresh
    have hbounded := h.following hfresh
    have hordered' := hordered.following hfresh
    have hterm := following_term hfresh
    have hmsgs := (following_frame r msg).2.2.2
    have hidle : (r.following msg).state = .follower := heeding_state _ msg
    generalize r.following msg = f at hstep hbounded hordered' hterm hmsgs hidle
    by_cases hpasses : f.passes msg
    · rw [replicate_passes hordered'.tidy.indexed hpasses, accepting_eq] at hstep
      obtain ⟨hentries, htidy, hreached⟩ :=
        hbounded.accept hordered' hsourced hmsg htype hterm.symm hpasses rfl
      cases hstep
      refine ⟨⟨?_, hentries, ?_, ?_⟩, _, congrArg (· ++ [_]) hmsgs, fun _ => ?_⟩
      · intro g hg hself
        obtain ⟨hle, hcurrent⟩ := hbounded.own g hg hself
        refine ⟨hle, fun heq => ⟨(hcurrent heq).1, fun hlead => ?_⟩⟩
        exact absurd (hidle.symm.trans hlead) nofun
      · exact fun hlead => absurd (hidle.symm.trans hlead) nofun
      · exact fun hlead => absurd (hidle.symm.trans hlead) nofun
      · exact htidy.indexed.lastIndexOf ▸ hreached
    · obtain ⟨hint, hhint, hreject⟩ := replicate_fails hpasses
      rw [hreject] at hstep
      cases hstep
      refine ⟨⟨hbounded.own, hbounded.entries, hbounded.office, hbounded.cursors⟩, _,
        congrArg (· ++ [_]) hmsgs, fun _ => ?_⟩
      obtain ⟨sent, hsent, hpos, hends, hreached, hle, -⟩ := hmsg.issued htype
      change Reached reigns f.currentTerm hint
      rw [hterm]
      exact (hsent.reached hpos hends hreached).le (hhint.le.trans hle)

theorem Bounded.step (h : r.Bounded reigns) (hordered : r.Ordered)
    (hbase : 0 < r.baseElectionTimeout) (hsourced : msg.Sourced) (hmsg : msg.Bounded reigns)
    (hreal : msg.isPreVote = false)
    (hsole : r.state = .leader → ∀ g ∈ reigns, g.term = r.currentTerm → g.leader = r.id)
    (hstep : r.step msg = some r') : r'.Bounded (reigns ++ r'.reign) := by
  by_cases htype : msg.type = .appendEntries
  · exact (h.appendEntries hordered hbase hsourced hmsg htype hstep).1.settle
  obtain ⟨r₁, hr₁, hstep⟩ := Option.bind_eq_some_iff.mp hstep
  have hobserve : r₁ = r ∨ r₁.state = .follower ∧ r₁.Bounded reigns ∧ r₁.log = r.log := by
    rcases observeTerm_cases hr₁ with hsame | ⟨hlater, leaderID, rfl⟩
    · exact .inl hsame
    · exact .inr ⟨rfl, h.demoted hlater leaderID, rfl⟩
  have hbounded : r₁.Bounded reigns := by
    rcases hobserve with rfl | ⟨-, hbounded, -⟩
    · exact h
    · exact hbounded
  have hindexed : Indexed r₁.log := by
    rcases hobserve with rfl | ⟨-, -, hlog⟩
    · exact hordered.tidy.indexed
    · exact hlog ▸ hordered.tidy.indexed
  unfold handle at hstep
  split at hstep
  next =>
    cases hstep
    obtain ⟨votedFor, electionElapsed, msgs, hframe⟩ := handleRequestVote_frame r₁ msg
    rw [hframe]
    exact Bounded.settle ⟨hbounded.own, hbounded.entries, hbounded.office, hbounded.cursors⟩
  next =>
    rcases handleRequestVoteResp_cases hstep with rfl | ⟨hstate, ⟨hpre, -⟩ |
      ⟨-, -, votes, -, rfl | hwon⟩⟩
    · exact hbounded.settle
    · rw [hreal] at hpre
      cases hpre
    · exact Bounded.settle ⟨hbounded.own, hbounded.entries, hbounded.office, hbounded.cursors⟩
    · have hcounted : { r₁ with votes }.Bounded reigns :=
        ⟨hbounded.own, hbounded.entries, hbounded.office, hbounded.cursors⟩
      exact hcounted.becomeLeader hindexed hstate hwon
  next hno => exact absurd hno htype
  next hresp =>
    refine (hbounded.handleAppendEntriesResp ?_ (hmsg.index hresp) hstep).settle
    intro hlead
    rcases hobserve with rfl | ⟨hidle, -⟩
    · exact hsole hlead
    · exact absurd (hidle.symm.trans hlead) nofun
  next =>
    cases hstep
    exact hbounded.settle

theorem Bounded.issues (h : r.Bounded reigns) (hordered : r.Ordered) (hlead : r.state = .leader)
    {peer : String} (hpeer : peer ∈ r.peers) (hfor : r.appendEntriesFor peer = some msg) :
    msg.Bounded reigns ∧ msg.prevLogIndex ≤ r.lastLogIndex ∧ sentinel ∉ msg.entries := by
  obtain ⟨hhigh, hlow⟩ := h.cursors hlead
  have htidy := hordered.tidy
  obtain ⟨htype, -, -, hterm, -, -, hcarries⟩ :=
    carries_appendEntriesFor htidy.indexed (hlow peer hpeer) hfor
  have hprev : msg.prevLogIndex ≤ r.log.length ∧ msg.prevLogTerm = r.logTerm msg.prevLogIndex := by
    obtain ⟨entries, rfl⟩ := appendEntriesFor_eq hfor
    refine ⟨?_, rfl⟩
    change pred64 (r.nextIndex.read peer) ≤ _
    rw [pred64_of_pos (hlow peer hpeer)]
    exact Nat.sub_le_of_le_add (hhigh peer)
  have hcut := hcarries.resolve_left fun ⟨hpos, hzero⟩ => by
    obtain ⟨e, he, hsame⟩ := exists_of_logTerm hpos hprev.1
    have := htidy.positive e (List.mem_of_getElem? he)
    rw [← hprev.2, hzero] at hsame
    omega
  refine ⟨⟨fun _ => ⟨r.log, hterm ▸ htidy, ?_, ?_, h.entries, hcut⟩, ?_⟩, ?_, ?_⟩
  · rw [hterm]
    exact hordered.active (by simp [hlead])
  · rw [hterm]
    exact h.office hlead
  · rw [htype]
    exact nofun
  · rw [lastLogIndex_eq htidy.indexed]
    exact hprev.1
  · rw [hcut.2.1]
    intro hno
    exact absurd (htidy.positive _ (List.mem_of_mem_drop hno)) (Nat.lt_irrefl 0)

end Raft

end Phalanx
