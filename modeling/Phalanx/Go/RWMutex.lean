import Mathlib.Data.List.Count

/-! Readers-writer mutexes. The mutex itself counts; who holds it is a list with an entry for
every thread, and a mutex guards the list if it has counted right. Threads that only unlock what
they hold never fault, and one that holds the mutex for writing holds it alone. -/
namespace Phalanx.Go

inductive Hold where
  | none
  | read
  | write
deriving DecidableEq

structure RWMutex where
  readers : Nat := 0
  writer : Bool := false
deriving DecidableEq

namespace RWMutex

/-- `none` while the call blocks. A writer that waits may be overtaken by readers here, which
the Go runtime avoids. -/
def rlock (m : RWMutex) : Option RWMutex :=
  if m.writer then none else some { m with readers := m.readers + 1 }

/-- `none` is the fatal error of unlocking what is not locked. -/
def runlock (m : RWMutex) : Option RWMutex :=
  if 0 < m.readers then some { m with readers := m.readers - 1 } else none

def lock (m : RWMutex) : Option RWMutex :=
  if m.writer ∨ 0 < m.readers then none else some { m with writer := true }

def unlock (m : RWMutex) : Option RWMutex :=
  if m.writer then some { m with writer := false } else none

structure Guards (m : RWMutex) (holds : List Hold) : Prop where
  readers : m.readers = holds.count .read
  writer : m.writer.toNat = holds.count .write
  apart : m.writer = true → m.readers = 0

namespace Guards

variable {m m' : RWMutex} {holds : List Hold} {n k : Nat} {old new hold : Hold}

theorem empty : Guards {} [] := ⟨rfl, rfl, nofun⟩

theorem join (h : m.Guards holds) : m.Guards (holds ++ [.none]) where
  readers := by simpa using h.readers
  writer := by simpa using h.writer
  apart := h.apart

theorem count_set (hn : holds[n]? = some old) (new other : Hold) :
    (holds.set n new).count other + (if old = other then 1 else 0) =
      holds.count other + if new = other then 1 else 0 := by
  obtain ⟨hlt, hget⟩ := List.getElem?_eq_some_iff.mp hn
  rw [List.count_set hlt, hget]
  by_cases hold : old = other
  · have hpos : 0 < holds.count other :=
      List.count_pos_iff.mpr (hold ▸ hget ▸ List.getElem_mem hlt)
    simp only [hold, beq_self_eq_true, if_true, beq_iff_eq]
    omega
  · simp [hold]

theorem set (h : m.Guards holds) (hn : holds[n]? = some old)
    (hreaders : m'.readers + (if old = .read then 1 else 0) =
      m.readers + if new = .read then 1 else 0)
    (hwriter : m'.writer.toNat + (if old = .write then 1 else 0) =
      m.writer.toNat + if new = .write then 1 else 0)
    (hapart : m'.writer = true → m'.readers = 0) : m'.Guards (holds.set n new) := by
  have hread := count_set hn new .read
  have hwrite := count_set hn new .write
  rw [← h.readers] at hread
  rw [← h.writer] at hwrite
  exact ⟨by omega, by omega, hapart⟩

theorem rlock (h : m.Guards holds) (hn : holds[n]? = some .none) (hm : m.rlock = some m') :
    m'.Guards (holds.set n .read) := by
  unfold RWMutex.rlock at hm
  split at hm
  · cases hm
  next hfree =>
    cases hm
    exact h.set hn rfl rfl fun hno => absurd hno hfree

theorem runlock (h : m.Guards holds) (hn : holds[n]? = some .read) (hm : m.runlock = some m') :
    m'.Guards (holds.set n .none) := by
  unfold RWMutex.runlock at hm
  split at hm
  next hpos =>
    cases hm
    refine h.set hn (Nat.sub_add_cancel hpos) rfl fun hno => ?_
    have := h.apart hno
    omega
  · cases hm

theorem lock (h : m.Guards holds) (hn : holds[n]? = some .none) (hm : m.lock = some m') :
    m'.Guards (holds.set n .write) := by
  unfold RWMutex.lock at hm
  split at hm
  · cases hm
  next hfree =>
    cases hm
    obtain ⟨hwriter, hreaders⟩ := not_or.mp hfree
    refine h.set hn rfl ?_ fun _ => Nat.eq_zero_of_not_pos hreaders
    rw [eq_false_of_ne_true hwriter]
    rfl

theorem unlock (h : m.Guards holds) (hn : holds[n]? = some .write) (hm : m.unlock = some m') :
    m'.Guards (holds.set n .none) := by
  unfold RWMutex.unlock at hm
  split at hm
  next hwriter =>
    cases hm
    refine h.set hn rfl ?_ nofun
    rw [hwriter]
    rfl
  · cases hm

theorem writer_of_hold (h : m.Guards holds) (hn : holds[n]? = some .write) : m.writer = true := by
  have hpos := List.count_pos_iff.mpr (List.mem_of_getElem? hn)
  have hwriter := h.writer
  cases hm : m.writer with
  | true => rfl
  | false =>
    rw [hm] at hwriter
    simp only [Bool.toNat_false] at hwriter
    omega

theorem alone (h : m.Guards holds) (hn : holds[n]? = some .write) (hk : holds[k]? = some hold)
    (hne : k ≠ n) : hold = .none := by
  have hwriter := h.writer_of_hold hn
  cases hold with
  | none => rfl
  | read =>
    have hpos := List.count_pos_iff.mpr (List.mem_of_getElem? hk)
    have := h.readers
    have := h.apart hwriter
    omega
  | write =>
    have hone := h.writer
    rw [hwriter] at hone
    have hleft := count_set hn .none .write
    have hk' : (holds.set n .none)[k]? = some .write := by
      rw [List.getElem?_set_ne (Ne.symm hne), hk]
    have hpos := List.count_pos_iff.mpr (List.mem_of_getElem? hk')
    simp at hleft hone
    omega

theorem runlock_returns (h : m.Guards holds) (hn : holds[n]? = some .read) :
    ∃ m', m.runlock = some m' := by
  have hpos := List.count_pos_iff.mpr (List.mem_of_getElem? hn)
  exact ⟨_, if_pos (h.readers ▸ hpos)⟩

theorem unlock_returns (h : m.Guards holds) (hn : holds[n]? = some .write) :
    ∃ m', m.unlock = some m' := ⟨_, if_pos (h.writer_of_hold hn)⟩

end Guards
end RWMutex
end Phalanx.Go
