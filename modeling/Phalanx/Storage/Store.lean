import Phalanx.Raft.Types

/-! What the store of a node holds, as `LoadState` and `LoadLog` read it back.
Writes are taken to succeed and to be durable. -/
namespace Phalanx

structure Store where
  term : Nat := 0
  votedFor : String := None
  log : List LogEntry := []
deriving DecidableEq

namespace Store

def saveState (s : Store) (term : Nat) (votedFor : String) : Store :=
  { s with term, votedFor }

def loadState (s : Store) : Nat × String := (s.term, s.votedFor)

def loadLog (s : Store) : List LogEntry := s.log

@[simp] theorem loadState_saveState (s : Store) (term : Nat) (votedFor : String) :
    (s.saveState term votedFor).loadState = (term, votedFor) := rfl

@[simp] theorem loadLog_saveState (s : Store) (term : Nat) (votedFor : String) :
    (s.saveState term votedFor).loadLog = s.loadLog := rfl

end Store
end Phalanx
