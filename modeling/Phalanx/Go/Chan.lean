import Mathlib.Init

/-! Buffered Go channels. A send blocks while the buffer is full and panics once the channel
is closed; a receive takes what is left in the buffer before it sees that the channel is
closed. A select runs one of the cases that can proceed, and a send on a closed channel is
among those that can. -/
namespace Phalanx.Go

structure Chan (α : Type) where
  capacity : Nat
  buffer : List α
  closed : Bool
  fits : buffer.length ≤ capacity

namespace Chan

variable {α ε : Type}

def make (capacity : Nat) : Chan α where
  capacity := capacity
  buffer := []
  closed := false
  fits := Nat.zero_le _

inductive Sent (α : Type) where
  | blocks
  | panics
  | sent (c : Chan α)

def send (c : Chan α) (x : α) : Sent α :=
  if c.closed then .panics
  else if h : c.buffer.length < c.capacity then
    .sent { c with buffer := c.buffer ++ [x], fits := by simpa using Nat.succ_le_of_lt h }
  else .blocks

inductive Received (α : Type) where
  | blocks
  | closed
  | value (x : α) (c : Chan α)

def receive (c : Chan α) : Received α :=
  match c.buffer.head? with
  | some x => .value x
      { c with buffer := c.buffer.tail, fits := Nat.le_trans (by simp) c.fits }
  | none => if c.closed then .closed else .blocks

/-- Close the channel; `none` is the panic of closing it again. -/
def close (c : Chan α) : Option (Chan α) :=
  if c.closed then none else some { c with closed := true }

inductive Selected (α ε : Type) where
  | blocks
  | panics
  | sent (c : Chan α)
  | done (err : ε)

/-- A select over a send and the end of a context, whose error is `done` once it has ended.
Where both can proceed the runtime may prefer either. -/
def select (c : Chan α) (x : α) (done : Option ε) (prefersDone : Bool) : Selected α ε :=
  match c.send x, done with
  | .blocks, none => .blocks
  | .blocks, some err => .done err
  | .panics, none => .panics
  | .panics, some err => if prefersDone then .done err else .panics
  | .sent c, none => .sent c
  | .sent c, some err => if prefersDone then .done err else .sent c

variable {c c' : Chan α} {x : α} {done : Option ε} {prefersDone : Bool}

theorem send_panics (h : c.send x = .panics) : c.closed = true := by
  unfold send at h
  split at h
  · assumption
  · split at h <;> cases h

theorem send_sent (h : c.send x = .sent c') : c'.closed = c.closed := by
  unfold send at h
  split at h
  · cases h
  · split at h
    · cases h
      rfl
    · cases h

theorem send_blocks (h : c.send x = .blocks) :
    c.closed = false ∧ c.buffer.length = c.capacity := by
  unfold send at h
  split at h
  · cases h
  next hopen =>
    split at h
    · cases h
    next hfull => exact ⟨eq_false_of_ne_true hopen, Nat.le_antisymm c.fits (Nat.le_of_not_lt hfull)⟩

theorem receive_value (h : c.receive = .value x c') : c'.closed = c.closed := by
  unfold receive at h
  split at h
  · cases h
    rfl
  · split at h <;> cases h

theorem close_of_open (h : c.closed = false) : c.close = some { c with closed := true } := by
  simp [close, h]

theorem select_cases (c : Chan α) (x : α) (done : Option ε) (prefersDone : Bool) :
    match c.select x done prefersDone with
    | .blocks => c.send x = .blocks ∧ done = none
    | .panics => c.send x = .panics
    | .sent c' => c.send x = .sent c'
    | .done err => done = some err := by
  unfold select
  cases c.send x <;> cases done <;> cases prefersDone <;> simp

theorem select_panics (h : c.select x done prefersDone = .panics) : c.closed = true := by
  have hcases := c.select_cases x done prefersDone
  rw [h] at hcases
  exact send_panics hcases

theorem select_sent (h : c.select x done prefersDone = .sent c') : c'.closed = c.closed := by
  have hcases := c.select_cases x done prefersDone
  rw [h] at hcases
  exact send_sent hcases

theorem select_blocks (h : c.select x done prefersDone = .blocks) :
    c.closed = false ∧ c.buffer.length = c.capacity ∧ done = none := by
  have hcases := c.select_cases x done prefersDone
  rw [h] at hcases
  exact ⟨(send_blocks hcases.1).1, (send_blocks hcases.1).2, hcases.2⟩

end Chan
end Phalanx.Go
