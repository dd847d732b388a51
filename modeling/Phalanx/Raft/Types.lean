import Mathlib.Data.Nat.Notation

/-! The wire and log types of the consensus core. Terms are `uint64` values held
in `Nat`: the one place that can overflow them wraps explicitly. Timeouts are `int`
values held in `Int`: the one sum that can overflow them wraps at 64 bits.

Log positions are `Nat` and their sums do not wrap. In a log whose every slot has its
position as `Index` they stay below the length of a slice, and so below `2^63`. Only a caller
that hands `NewRaft` or `Step` an `Index` or `PrevLogIndex` near `2^64`, which no node of a
cluster does, can make the code wrap a position; what follows such a sum is outside the model.
The one unsigned subtraction that can underflow is `pred64`. -/
namespace Phalanx

def uint64Size : Nat := 18446744073709551616

def succ64 (x : Nat) : Nat := (x + 1) % uint64Size

def pred64 (x : Nat) : Nat := if x = 0 then uint64Size - 1 else x - 1

/-- What a 64-bit `int` holds after a sum. -/
def wrapInt (x : Int) : Int := x.bmod uint64Size

def maxInt : Int := 9223372036854775807

/-- `2^62`, the largest base of which every number below the double is an `int`. -/
def maxElectionTimeout : Int := 4611686018427387904

theorem succ64_of_lt {x : Nat} (h : x < uint64Size - 1) : succ64 x = x + 1 := by
  apply Nat.mod_eq_of_lt
  omega

theorem pred64_of_pos {x : Nat} (h : 0 < x) : pred64 x = x - 1 :=
  if_neg (Nat.ne_of_gt h)

theorem wrapInt_of_le {x : Int} (hnonneg : 0 ≤ x) (hle : x ≤ maxInt) : wrapInt x = x := by
  unfold maxInt at hle
  apply Int.bmod_eq_of_le <;> unfold uint64Size <;> omega

theorem wrapInt_neg {x : Int} (hlt : maxInt < x) (hle : x ≤ 2 * maxInt) : wrapInt x < 0 := by
  unfold maxInt at hlt hle
  rw [wrapInt, Int.bmod_def, uint64Size]
  split <;> omega

inductive EntryType where
  | command
  | configChange
deriving DecidableEq, Repr

/-- A replicated log entry. A nil and an empty payload are the same value here,
as they are to `Clone` and to every test on `len(Data)`. -/
structure LogEntry where
  index : Nat
  term : Nat
  data : List UInt8 := []
  type : EntryType := .command
deriving DecidableEq, Repr

def sentinel : LogEntry := { index := 0, term := 0 }

inductive NodeState where
  | follower
  | candidate
  | leader
deriving DecidableEq, Repr

inductive MessageType where
  | requestVote
  | requestVoteResp
  | appendEntries
  | appendEntriesResp
  /-- Any other `uint8` code; `Step` only applies its term rule to it. -/
  | unknown
deriving DecidableEq, Repr

def None : String := ""

structure Message where
  type : MessageType
  sender : String
  recipient : String
  term : Nat
  prevLogIndex : Nat := 0
  prevLogTerm : Nat := 0
  entries : List LogEntry := []
  leaderCommit : Nat := 0
  lastLogIndex : Nat := 0
  lastLogTerm : Nat := 0
  isPreVote : Bool := false
  reject : Bool := false
  index : Nat := 0
deriving DecidableEq, Repr

end Phalanx
