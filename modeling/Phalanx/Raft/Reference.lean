import Phalanx.Raft.Log

/-! What an AppendEntries is meant to do, and that `Step` does it. The reference
looks only at the `Index` and `Term` fields of what was sent; the code walks both
logs by position and breaks out at the first difference. -/
namespace Phalanx

open Consensus

/-- Whether a sent entry is missing from the slots or differs there in its term. -/
def LogEntry.differs (slots : List LogEntry) (entry : LogEntry) : Bool :=
  (slots[entry.index]?).map LogEntry.term ≠ some entry.term

/-- The reference: keep the slots below the first sent entry that differs, then take
the sent entries from there on. -/
def reconciled (slots entries : List LogEntry) : List LogEntry :=
  match entries.find? (LogEntry.differs slots) with
  | none => slots
  | some first => slots.take first.index ++ entries.filter fun e => first.index ≤ e.index

def Raft.refuses (r : Raft) (msg : Message) : Prop :=
  msg.term < r.currentTerm ∨ r.lastLogIndex < msg.prevLogIndex ∨
    0 < msg.prevLogIndex ∧ r.logTerm msg.prevLogIndex ≠ msg.prevLogTerm

instance (r : Raft) (msg : Message) : Decidable (r.refuses msg) :=
  inferInstanceAs (Decidable (_ ∨ _))

/-- The entries carry the positions after `prev`, in order. -/
def Numbered (prev : Nat) (entries : List LogEntry) : Prop :=
  ∀ j e, entries[j]? = some e → e.index = prev + 1 + j

instance (prev : Nat) (entries : List LogEntry) : Decidable (Numbered prev entries) :=
  decidable_of_iff (∀ j : Fin entries.length, entries[j].index = prev + 1 + j) <| by
    constructor
    · intro h j e he
      obtain ⟨hj, rfl⟩ := List.getElem?_eq_some_iff.mp he
      exact h ⟨j, hj⟩
    · intro h j
      exact h j _ (List.getElem?_eq_getElem j.isLt)

theorem Numbered.head {prev : Nat} {entry : LogEntry} {rest : List LogEntry}
    (h : Numbered prev (entry :: rest)) : entry.index = prev + 1 := h 0 entry rfl

theorem Numbered.tail {prev : Nat} {entry : LogEntry} {rest : List LogEntry}
    (h : Numbered prev (entry :: rest)) : Numbered (prev + 1) rest := by
  intro j e he
  have := h (j + 1) e he
  omega

theorem Numbered.le {prev : Nat} {entries : List LogEntry} (h : Numbered prev entries)
    {e : LogEntry} (he : e ∈ entries) : prev + 1 ≤ e.index := by
  obtain ⟨j, hj⟩ := List.getElem?_of_mem he
  have := h j e hj
  omega

theorem Numbered.append {p : Nat} {l m : List LogEntry} (hl : Numbered p l)
    (hm : Numbered (p + l.length) m) : Numbered p (l ++ m) := by
  intro j e he
  by_cases hj : j < l.length
  · rw [List.getElem?_append_left hj] at he
    exact hl j e he
  · rw [List.getElem?_append_right (by omega)] at he
    have := hm _ e he
    omega

theorem Numbered.splice {p : Nat} {kept sent : List LogEntry} (hkept : Numbered p kept)
    (hsent : Numbered p sent) : Numbered p (splice LogEntry.term kept sent) := by
  induction kept generalizing p sent with
  | nil =>
    cases sent with
    | nil => exact hkept
    | cons entry rest => exact hsent
  | cons a kept ih =>
    cases sent with
    | nil => exact hkept
    | cons entry rest =>
      rw [Consensus.splice]
      split
      · have hone : Numbered p [a] := by
          intro j e he
          cases j with
          | zero =>
            cases he
            exact hkept.head
          | succ j => cases he
        exact hone.append (ih hkept.tail hsent.tail)
      · exact hsent

theorem Indexed.spliced {log entries : List LogEntry} {p : Nat} (hlog : Indexed log)
    (hp : p ≤ log.length) (hsent : Numbered p entries) :
    Indexed (log.take p ++ splice LogEntry.term (log.drop p) entries) := by
  have hlen : 0 + (log.take p).length = p := by
    rw [List.length_take]
    omega
  have hkept : Numbered 0 (log.take p) := by
    intro j e he
    have := hlog j e (getElem?_of_isPrefix (List.take_prefix p log) he)
    omega
  have hrest : Numbered p (log.drop p) := by
    intro j e he
    rw [List.getElem?_drop] at he
    have := hlog _ e he
    omega
  have hnew : Numbered (0 + (log.take p).length) (splice LogEntry.term (log.drop p) entries) := by
    rw [hlen]
    exact hrest.splice hsent
  intro k e he
  have := hkept.append hnew k e he
  omega

theorem reconciled_cut {log : List LogEntry} {entry : LogEntry} {rest : List LogEntry} {p : Nat}
    (hsent : Numbered p (entry :: rest)) (hdiffers : entry.differs (sentinel :: log) = true) :
    reconciled (sentinel :: log) (entry :: rest) = sentinel :: log.take p ++ entry :: rest := by
  have hall : (entry :: rest).filter (fun e => decide (entry.index ≤ e.index)) = entry :: rest := by
    apply List.filter_eq_self.mpr
    intro e he
    have := hsent.le he
    rw [hsent.head]
    exact decide_eq_true this
  unfold reconciled
  rw [List.find?_cons_of_pos hdiffers]
  simp only [hall]
  rw [hsent.head, List.take_succ_cons]

theorem reconciled_skip {slots : List LogEntry} {entry : LogEntry} {rest : List LogEntry} {p : Nat}
    (hsent : Numbered p (entry :: rest)) (hsame : entry.differs slots = false) :
    reconciled slots (entry :: rest) = reconciled slots rest := by
  unfold reconciled
  rw [List.find?_cons_of_neg (by simp [hsame])]
  cases hfind : rest.find? (LogEntry.differs slots) with
  | none => rfl
  | some first =>
    have hlater := hsent.tail.le (List.mem_of_find?_eq_some hfind)
    have hbefore : ¬ first.index ≤ entry.index := by
      rw [hsent.head]
      omega
    simp only
    rw [List.filter_cons_of_neg (by simpa using hbefore)]

theorem differs_cons (log : List LogEntry) {entry : LogEntry} {p : Nat}
    (hindex : entry.index = p + 1) :
    entry.differs (sentinel :: log) = decide ((log[p]?).map LogEntry.term ≠ some entry.term) := by
  unfold LogEntry.differs
  rw [hindex, List.getElem?_cons_succ]

theorem splice_reconciled {log : List LogEntry} (entries : List LogEntry) :
    ∀ p, p ≤ log.length → Numbered p entries →
      sentinel :: (log.take p ++ splice LogEntry.term (log.drop p) entries) =
        reconciled (sentinel :: log) entries := by
  induction entries with
  | nil =>
    intro p hp hsent
    rw [splice_nil, List.take_append_drop]
    rfl
  | cons entry rest ih =>
    intro p hp hsent
    have hdiffers := differs_cons log hsent.head
    by_cases hlt : p < log.length
    · rw [List.getElem?_eq_getElem hlt, Option.map_some] at hdiffers
      rw [List.drop_eq_getElem_cons hlt, splice]
      by_cases hterm : log[p].term = entry.term
      · rw [if_pos hterm, reconciled_skip hsent (by simp [hdiffers, hterm]),
          ← ih (p + 1) hlt hsent.tail, List.take_succ_eq_append_getElem hlt, List.append_assoc]
        rfl
      · rw [if_neg hterm, reconciled_cut hsent (by simp [hdiffers, hterm]), List.cons_append]
    · have heq : p = log.length := by omega
      rw [List.getElem?_eq_none (by omega)] at hdiffers
      rw [reconciled_cut hsent (by simp [hdiffers]), heq, List.drop_length, splice,
        List.cons_append]
      simp

namespace Raft

variable {r r' : Raft} {msg : Message}

/-- A valid AppendEntries up to its consistency check: the instance follows the sender. -/
def following (r : Raft) (msg : Message) : Raft :=
  (if r.currentTerm < msg.term then r.demoted msg.term msg.sender else r).heeding msg

def refusal (r : Raft) (msg : Message) : Message :=
  { type := .appendEntriesResp, sender := r.id, recipient := msg.sender, term := r.currentTerm,
    reject := true }

theorem following_frame (r : Raft) (msg : Message) :
    (r.following msg).log = r.log ∧ (r.following msg).commitIndex = r.commitIndex ∧
      (r.following msg).lastApplied = r.lastApplied ∧ (r.following msg).msgs = r.msgs := by
  unfold following heeding
  split <;> split <;> exact ⟨rfl, rfl, rfl, rfl⟩

theorem following_term (hfresh : r.currentTerm ≤ msg.term) :
    (r.following msg).currentTerm = msg.term := by
  unfold following heeding
  split
  · split <;> rfl
  · split
    · change r.currentTerm = msg.term
      omega
    · rfl

theorem becomeFollower_of_base (hbase : 0 < r.baseElectionTimeout) (term : Nat)
    (leaderID : String) : r.becomeFollower term leaderID = some (r.demoted term leaderID) :=
  if_pos hbase

theorem handleAppendEntries_eq (r : Raft) (msg : Message) :
    r.handleAppendEntries msg =
      if msg.term < r.currentTerm then some (r.send (r.refusal msg))
      else if r.state = .follower ∨ 0 < r.baseElectionTimeout then
        (r.heeding msg).replicate ((r.heeding msg).refusal msg) msg
      else none := by
  unfold handleAppendEntries heeding
  simp only
  split
  · rfl
  by_cases hstate : r.state = .follower
  · rw [if_neg (by simpa using hstate), if_pos (.inl hstate), if_pos hstate]
    rfl
  · rw [if_pos (by simpa using hstate), if_neg hstate]
    by_cases hbase : 0 < r.baseElectionTimeout
    · rw [becomeFollower_of_base (by exact hbase), if_pos (.inr hbase)]
      rfl
    · rw [if_neg (fun hno => hno.elim hstate hbase), becomeFollower, resetElectionTimeout,
        if_neg (by exact hbase)]
      rfl

theorem handleAppendEntries_of_follower (hstate : r.state = .follower)
    (hterm : msg.term = r.currentTerm) :
    r.handleAppendEntries msg =
      (r.heeding msg).replicate ((r.heeding msg).refusal msg) msg := by
  rw [handleAppendEntries_eq, if_neg (by omega), if_pos (.inl hstate)]

theorem step_appendEntries (hbase : 0 < r.baseElectionTimeout)
    (htype : msg.type = .appendEntries) :
    r.step msg =
      if msg.term < r.currentTerm then some (r.send (r.refusal msg))
      else (r.following msg).replicate ((r.following msg).refusal msg) msg := by
  unfold step observeTerm following
  simp only [htype, reduceCtorEq, or_self, and_false, not_false_eq_true, and_true, if_true, handle]
  rcases Nat.lt_trichotomy msg.term r.currentTerm with hstale | hsame | hlater
  · rw [if_neg (by omega), if_pos hstale, Option.bind_eq_bind, Option.bind_some,
      handleAppendEntries, if_pos hstale]
    rfl
  · rw [if_neg (by omega), if_neg (by omega), if_neg (by omega), Option.bind_eq_bind,
      Option.bind_some, handleAppendEntries_eq, if_neg (by omega), if_pos (.inr hbase)]
  · rw [if_pos hlater, if_neg (by omega), if_pos hlater, becomeFollower_of_base hbase,
      Option.bind_eq_bind, Option.bind_some, handleAppendEntries_of_follower rfl rfl]

theorem replicate_takes (hpasses : r.passes msg) (reply : Message) :
    r.replicate reply msg = (r.appendLoop (msg.prevLogIndex + 1) msg.entries).map fun log =>
      (followCommit { r with log } msg).send
        { reply with reject := false, index := lastIndexOf log } := by
  have hreaches : ¬ (0 < msg.prevLogIndex ∧ r.lastLogIndex < msg.prevLogIndex) ∧
      ¬ (0 < msg.prevLogIndex ∧ r.logTerm msg.prevLogIndex ≠ msg.prevLogTerm) := by
    unfold passes at hpasses
    omega
  rw [replicate, if_neg hreaches.1, if_neg hreaches.2]
  cases r.appendLoop (msg.prevLogIndex + 1) msg.entries with
  | none => rfl
  | some log =>
    simp only [Option.bind_eq_bind, Option.bind_some, Option.map_some]
    rw [followCommit_eq]
    rfl

theorem replicate_passes (hlog : Indexed r.log) (hpasses : r.passes msg) :
    r.replicate (r.refusal msg) msg =
      some (r.accepting msg (r.log.take msg.prevLogIndex ++
        splice LogEntry.term (r.log.drop msg.prevLogIndex) msg.entries)) := by
  rw [replicate_takes hpasses, appendLoop_eq hlog _ _ (passes_within hlog hpasses)]
  unfold accepting followCommit
  simp only [Option.map_some]
  split <;> rfl

theorem conflictHint_le (r : Raft) (conflictTerm hint : Nat) :
    r.conflictHint conflictTerm hint ≤ hint := by
  induction hint with
  | zero => exact le_rfl
  | succ hint ih =>
    rw [conflictHint]
    split <;> omega

def hint (r : Raft) (msg : Message) : Nat :=
  if r.lastLogIndex < msg.prevLogIndex then r.lastLogIndex
  else r.conflictHint (r.logTerm msg.prevLogIndex) msg.prevLogIndex - 1

theorem hint_congr (h : r'.log = r.log) (msg : Message) : r'.hint msg = r.hint msg := by
  have hterm : ∀ n, r'.logTerm n = r.logTerm n := by
    intro n
    unfold logTerm slots
    rw [h]
  have hwalk : ∀ term n, r'.conflictHint term n = r.conflictHint term n := by
    intro term n
    induction n with
    | zero => rfl
    | succ n ih => rw [conflictHint, conflictHint, ih, hterm]
  unfold hint
  rw [hwalk, hterm, show r'.lastLogIndex = r.lastLogIndex from congrArg lastIndexOf h]

theorem replicate_refuses (hpasses : ¬ r.passes msg) (reply : Message) :
    r.replicate reply msg = some (r.send { reply with index := r.hint msg }) := by
  unfold passes at hpasses
  push Not at hpasses
  have hpos := Nat.pos_of_ne_zero hpasses.1
  unfold replicate hint
  by_cases hgap : r.lastLogIndex < msg.prevLogIndex
  · rw [if_pos ⟨hpos, hgap⟩, if_pos hgap]
  · rw [if_neg (fun hno => hgap hno.2), if_pos ⟨hpos, hpasses.2 (Nat.le_of_not_lt hgap)⟩,
      if_neg hgap]

theorem replicate_fails (hpasses : ¬ r.passes msg) :
    ∃ hint < msg.prevLogIndex, r.replicate (r.refusal msg) msg =
      some (r.send { r.refusal msg with index := hint }) := by
  refine ⟨r.hint msg, ?_, replicate_refuses hpasses _⟩
  have hpos := Nat.pos_of_ne_zero fun hzero => hpasses (.inl hzero)
  have hle := r.conflictHint_le (r.logTerm msg.prevLogIndex) msg.prevLogIndex
  unfold hint
  split <;> omega

theorem passes_congr (h : r'.log = r.log) : r'.passes msg ↔ r.passes msg := by
  unfold passes lastLogIndex logTerm slots
  rw [h]

theorem refuses_iff : r.refuses msg ↔ msg.term < r.currentTerm ∨ ¬ r.passes msg := by
  unfold refuses passes
  refine or_congr_right ?_
  omega

theorem append_entries_reference (r : Raft) (msg : Message) (hbase : 0 < r.baseElectionTimeout)
    (hlog : Indexed r.log) (htype : msg.type = .appendEntries)
    (hsent : Numbered msg.prevLogIndex msg.entries) :
    ∃ r' reply, r.step msg = some r' ∧ r'.msgs = r.msgs ++ [reply] ∧
      reply.type = .appendEntriesResp ∧ reply.recipient = msg.sender ∧
      (r.refuses msg → reply.reject = true ∧ r'.slots = r.slots ∧
        r'.commitIndex = r.commitIndex ∧ r'.lastApplied = r.lastApplied) ∧
      (¬ r.refuses msg → reply.reject = false ∧ r'.slots = reconciled r.slots msg.entries) := by
  obtain ⟨hsame, hcommit, happlied, hmsgs⟩ := following_frame r msg
  rw [step_appendEntries hbase htype, refuses_iff]
  by_cases hstale : msg.term < r.currentTerm
  · rw [if_pos hstale]
    refine ⟨_, _, rfl, rfl, rfl, rfl, fun _ => ⟨rfl, rfl, rfl, rfl⟩, fun hno => ?_⟩
    exact absurd (.inl hstale) hno
  rw [if_neg hstale]
  by_cases hpasses : r.passes msg
  · rw [replicate_passes (hsame ▸ hlog) ((passes_congr hsame).mpr hpasses), hsame, accepting_eq]
    refine ⟨_, _, rfl, congrArg (· ++ [_]) hmsgs, rfl, rfl, fun hno => ?_, fun _ => ⟨rfl, ?_⟩⟩
    · exact absurd hpasses (hno.resolve_left hstale)
    · exact splice_reconciled msg.entries _ (passes_within hlog hpasses) hsent
  · obtain ⟨hint, -, hreject⟩ := replicate_fails (mt (passes_congr hsame).mp hpasses)
    rw [hreject]
    refine ⟨_, _, rfl, congrArg (· ++ [_]) hmsgs, rfl, rfl, fun _ => ⟨rfl, ?_, hcommit, happlied⟩,
      fun hno => ?_⟩
    · exact congrArg (sentinel :: ·) hsame
    · exact absurd (.inr hpasses) hno

/-- A log that conflicts at its second entry: the cut is there, and the rest is sent. -/
theorem append_entries_reference_conflict :
    ∃ r' reply, step
        { id := "b", currentTerm := 2, heartbeatTimeout := 1, baseElectionTimeout := 10
          peers := ["a"], rand := fun _ => 0
          log := [⟨1, 1, [], .command⟩, ⟨2, 1, [], .command⟩, ⟨3, 1, [], .command⟩] }
        { type := .appendEntries, sender := "a", recipient := "b", term := 2, prevLogIndex := 1
          prevLogTerm := 1, entries := [⟨2, 2, [], .command⟩] } = some r' ∧
      r'.msgs = [reply] ∧ reply.reject = false ∧
      r'.slots = [sentinel, ⟨1, 1, [], .command⟩, ⟨2, 2, [], .command⟩] := by
  obtain ⟨r', reply, hstep, hmsgs, -, -, -, hsuccess⟩ := append_entries_reference
    { id := "b", currentTerm := 2, heartbeatTimeout := 1, baseElectionTimeout := 10
      peers := ["a"], rand := fun _ => 0
      log := [⟨1, 1, [], .command⟩, ⟨2, 1, [], .command⟩, ⟨3, 1, [], .command⟩] }
    { type := .appendEntries, sender := "a", recipient := "b", term := 2, prevLogIndex := 1
      prevLogTerm := 1, entries := [⟨2, 2, [], .command⟩] }
    (by decide) (by
      intro k e he
      match k with
      | 0 | 1 | 2 => cases he; rfl
      | k + 3 => simp at he) rfl (by
      intro j e he
      match j with
      | 0 => cases he; rfl
      | j + 1 => simp at he)
  obtain ⟨haccept, hslots⟩ := hsuccess (by decide)
  exact ⟨r', reply, hstep, hmsgs, haccept, hslots⟩

end Raft
end Phalanx
