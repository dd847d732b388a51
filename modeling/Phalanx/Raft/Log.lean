import Phalanx.Consensus.Splice
import Phalanx.Raft.Moves

/-! Logs whose `Index` fields are their positions. On these the log helpers of
`raft.go` are the list operations they stand for, the vote check is the order of
the voting rule, and the append loop is a splice. -/
namespace Phalanx

open Consensus

def Indexed (log : List LogEntry) : Prop :=
  ∀ k e, log[k]? = some e → e.index = k + 1

theorem Indexed.nil : Indexed [] := by
  intro k e he
  simp at he

theorem Indexed.concat {log : List LogEntry} (h : Indexed log) {entry : LogEntry}
    (hentry : entry.index = log.length + 1) : Indexed (log ++ [entry]) := by
  intro k e he
  rcases Nat.lt_trichotomy k log.length with hlt | rfl | hgt
  · rw [List.getElem?_append_left hlt] at he
    exact h k e he
  · rw [List.getElem?_append_right le_rfl, Nat.sub_self] at he
    cases he
    exact hentry
  · rw [List.getElem?_eq_none (by simp; omega)] at he
    cases he

theorem Indexed.lastIndexOf {log : List LogEntry} (h : Indexed log) :
    lastIndexOf log = log.length := by
  unfold Phalanx.lastIndexOf
  cases hlast : log.getLast? with
  | none =>
    rw [List.getLast?_eq_none_iff] at hlast
    simp [hlast, sentinel]
  | some e =>
    have hpos : 0 < log.length := by
      apply List.length_pos_of_mem
      exact List.mem_of_getLast? hlast
    rw [List.getLast?_eq_getElem?] at hlast
    have := h _ e hlast
    simp only [Option.getD_some]
    omega

namespace Raft

variable {r r' : Raft} {msg : Message}

theorem lastLogIndex_eq (h : Indexed r.log) : r.lastLogIndex = r.log.length := h.lastIndexOf

theorem passes_within (h : Indexed r.log) (hpasses : r.passes msg) :
    msg.prevLogIndex ≤ r.log.length := by
  rw [← lastLogIndex_eq h]
  rcases hpasses with hzero | ⟨hle, -⟩
  · omega
  · exact hle

theorem lastLogTerm_eq (r : Raft) : r.lastLogTerm = lastKey LogEntry.term r.log := by
  unfold lastLogTerm lastKey
  cases r.log.getLast? <;> rfl

theorem logTerm_succ (r : Raft) (k : Nat) :
    r.logTerm (k + 1) = ((r.log[k]?).map LogEntry.term).getD 0 := by
  unfold logTerm slots
  rw [List.getElem?_cons_succ]
  cases r.log[k]? <;> rfl

theorem logTerm_of_getElem {k : Nat} {e : LogEntry} (h : r.log[k]? = some e) :
    r.logTerm (k + 1) = e.term := by
  rw [logTerm_succ, h]
  rfl

theorem exists_of_logTerm {n : Nat} (hpos : 0 < n) (hn : n ≤ r.log.length) :
    ∃ e, r.log[n - 1]? = some e ∧ r.logTerm n = e.term := by
  obtain ⟨k, rfl⟩ := Nat.exists_eq_add_of_lt hpos
  have hk : r.log[0 + k + 1 - 1]? = some (r.log[0 + k + 1 - 1]) :=
    List.getElem?_eq_getElem (by omega)
  refine ⟨_, hk, ?_⟩
  exact logTerm_of_getElem hk

theorem isLogUpToDate_iff (h : Indexed r.log) {l : List LogEntry} :
    r.isLogUpToDate l.length (lastKey LogEntry.term l) = true ↔
      UpToDate LogEntry.term l r.log := by
  unfold isLogUpToDate UpToDate
  rw [lastLogTerm_eq, lastLogIndex_eq h]
  split <;> simp <;> omega

theorem appendLoop_eq (h : Indexed r.log) (entries : List LogEntry) :
    ∀ p, p ≤ r.log.length → r.appendLoop (p + 1) entries =
      some (r.log.take p ++ splice LogEntry.term (r.log.drop p) entries) := by
  induction entries with
  | nil =>
    intro p hp
    rw [appendLoop, splice_nil, List.take_append_drop]
  | cons entry rest ih =>
    intro p hp
    rw [appendLoop, lastLogIndex_eq h]
    by_cases hlt : p < r.log.length
    · have hget : r.log[p]? = some r.log[p] := List.getElem?_eq_getElem hlt
      rw [if_pos (by omega), logTerm_of_getElem hget, List.drop_eq_getElem_cons hlt, splice]
      by_cases hterm : r.log[p].term = entry.term
      · rw [if_neg (by simpa using hterm), if_pos hterm, ih (p + 1) hlt,
          List.take_succ_eq_append_getElem hlt, List.append_assoc]
        rfl
      · rw [if_pos hterm, if_neg hterm, if_pos]
        · rfl
        · simp only [slots, List.length_cons]
          omega
    · have heq : p = r.log.length := by omega
      rw [if_neg (by omega), heq, List.take_length, List.drop_length, splice]
      simp

theorem appendLoop_nil {idx : Nat} {entries : List LogEntry}
    (h : r.appendLoop idx entries = some []) : r.log = [] := by
  induction entries generalizing idx with
  | nil => exact Option.some.inj h
  | cons entry rest ih =>
    rw [appendLoop] at h
    split at h
    · split at h
      · split at h
        · simp at h
        · cases h
      · exact ih h
    · simp at h

theorem appendLoop_congr (h : r'.log = r.log) (idx : Nat) (entries : List LogEntry) :
    r'.appendLoop idx entries = r.appendLoop idx entries := by
  induction entries generalizing idx with
  | nil => rw [appendLoop, appendLoop, h]
  | cons entry rest ih =>
    have hlast : r'.lastLogIndex = r.lastLogIndex := congrArg lastIndexOf h
    have hslots : r'.slots = r.slots := congrArg (sentinel :: ·) h
    have hterm : r'.logTerm idx = r.logTerm idx := by
      unfold logTerm
      rw [hslots]
    rw [appendLoop, appendLoop, ih, hlast, hterm, hslots, h]

theorem appendLoop_keeps {idx q : Nat} {entries log : List LogEntry} (hidx : 0 < idx)
    (hagree : ∀ k e, entries[k]? = some e → idx + k ≤ q → idx + k ≤ r.lastLogIndex →
      r.logTerm (idx + k) = e.term)
    (h : r.appendLoop idx entries = some log) : r.log.take q <+: log := by
  induction entries generalizing idx with
  | nil =>
    cases h
    exact List.take_prefix _ _
  | cons entry rest ih =>
    rw [appendLoop] at h
    split at h
    next hwithin =>
      split at h
      next hconflict =>
        have hbeyond : q < idx := by
          by_contra hle
          exact hconflict (hagree 0 entry rfl (by omega) hwithin)
        split at h
        · cases h
          refine List.IsPrefix.trans ?_ (List.prefix_append _ _)
          exact List.take_prefix_take_left (by omega)
        · cases h
      next =>
        apply ih (Nat.succ_pos idx) _ h
        intro k e he hq hlast
        have := hagree (k + 1) e he (by omega) (by omega)
        rwa [show idx + (k + 1) = idx + 1 + k by omega] at this
    next =>
      cases h
      exact (List.take_prefix _ _).trans (List.prefix_append _ _)

theorem replicate_log {reply : Message} (h : r.replicate reply msg = some r') :
    r'.log = r.log ∨
      r.passes msg ∧ r.appendLoop (msg.prevLogIndex + 1) msg.entries = some r'.log := by
  unfold replicate at h
  split at h
  next =>
    cases h
    exact .inl rfl
  next hgap =>
    split at h
    next =>
      cases h
      exact .inl rfl
    next hconflict =>
      obtain ⟨log, hlog, h⟩ := Option.bind_eq_some_iff.mp h
      cases h
      right
      refine ⟨?_, ?_⟩
      · by_cases hzero : msg.prevLogIndex = 0
        · exact .inl hzero
        · simp only [not_and, not_lt, ne_eq, Decidable.not_not] at hgap hconflict
          exact .inr ⟨hgap (by omega), hconflict (by omega)⟩
      · rw [hlog]
        unfold followCommit
        split <;> rfl

theorem step_appendEntries_log (htype : msg.type = .appendEntries) (h : r.step msg = some r') :
    r'.log = r.log ∨ r.currentTerm ≤ msg.term ∧ r.passes msg ∧
      r.appendLoop (msg.prevLogIndex + 1) msg.entries = some r'.log := by
  have hlike : ∀ {r₁ : Raft} {reply : Message}, r₁.replicate reply msg = some r' →
      r₁.log = r.log → r.currentTerm ≤ msg.term → r'.log = r.log ∨ r.currentTerm ≤ msg.term ∧
        r.passes msg ∧ r.appendLoop (msg.prevLogIndex + 1) msg.entries = some r'.log := by
    intro r₁ reply hrep hlog hterm
    rcases replicate_log hrep with hsame | ⟨hpasses, hloop⟩
    · exact .inl (hsame.trans hlog)
    · rw [appendLoop_congr hlog] at hloop
      refine .inr ⟨hterm, ?_, hloop⟩
      unfold passes lastLogIndex logTerm slots at hpasses ⊢
      rwa [hlog] at hpasses
  unfold step at h
  obtain ⟨r₁, hr₁, h⟩ := Option.bind_eq_some_iff.mp h
  have hobserve : r₁.log = r.log ∧ (r₁.currentTerm ≤ msg.term → r.currentTerm ≤ msg.term) := by
    unfold observeTerm at hr₁
    split at hr₁
    next hlt =>
      rw [becomeFollower_eq_some hr₁]
      exact ⟨rfl, fun _ => hlt.1.le⟩
    next =>
      cases hr₁
      exact ⟨rfl, fun h => h⟩
  simp only [handle, htype, handleAppendEntries] at h
  split at h
  next =>
    cases h
    exact .inl hobserve.1
  next hfresh =>
    have hterm := hobserve.2 (by omega)
    split at h
    · obtain ⟨r₂, hr₂, h⟩ := Option.bind_eq_some_iff.mp h
      cases becomeFollower_eq_some hr₂
      exact hlike h hobserve.1 hterm
    · rw [Option.bind_eq_bind, Option.bind_some] at h
      exact hlike h hobserve.1 hterm

theorem Move.log_grows {inbox : Message → Prop} {clock : Nat → Prop}
    (hinbox : ∀ m, inbox m → m.type ≠ .appendEntries) (hmove : Move inbox clock r r') :
    r.log <+: r'.log := by
  cases hmove with
  | win => exact List.prefix_append _ _
  | broadcast _ _ hout =>
    obtain ⟨out, -, rfl⟩ := broadcastHeartbeat_eq hout
    exact List.prefix_refl _
  | heed msg hin htype => exact absurd htype (hinbox msg hin)
  | accept msg log hin htype => exact absurd htype (hinbox msg hin)
  | extend => exact List.prefix_append _ _
  | _ => exact List.prefix_refl _

theorem Moves.log_grows {inbox : Message → Prop} {clock : Nat → Prop}
    (hinbox : ∀ m, inbox m → m.type ≠ .appendEntries) (hmoves : Moves inbox clock r r') :
    r.log <+: r'.log := by
  induction hmoves with
  | refl => exact List.prefix_refl _
  | tail _ hmove ih => exact ih.trans (hmove.log_grows hinbox)

theorem Move.indexed {inbox : Message → Prop} {clock : Nat → Prop}
    (hinbox : ∀ m, inbox m → m.type ≠ .appendEntries) (hmove : Move inbox clock r r')
    (hlog : Indexed r.log) : Indexed r'.log := by
  cases hmove with
  | win =>
    refine hlog.concat ?_
    rw [lastLogIndex_eq hlog]
  | broadcast _ _ hout =>
    obtain ⟨out, -, rfl⟩ := broadcastHeartbeat_eq hout
    exact hlog
  | heed msg hin htype => exact absurd htype (hinbox msg hin)
  | accept msg log hin htype => exact absurd htype (hinbox msg hin)
  | extend =>
    refine hlog.concat ?_
    rw [lastLogIndex_eq hlog]
  | _ => exact hlog

theorem Moves.indexed {inbox : Message → Prop} {clock : Nat → Prop}
    (hinbox : ∀ m, inbox m → m.type ≠ .appendEntries) (hmoves : Moves inbox clock r r')
    (hlog : Indexed r.log) : Indexed r'.log := by
  induction hmoves with
  | refl => exact hlog
  | tail _ hmove ih => exact hmove.indexed hinbox ih

end Raft
end Phalanx
