import Mathlib.Data.Finmap
import Phalanx.Go.RWMutex
import Phalanx.Transition

/-! The client connections of the gRPC transport, asked for from any number of goroutines at
once. A call goes from one operation on the mutex, the map or a connection to the next, and the
operations of different calls mix in any order. Connections are numbered in the order in which
they were dialled. -/
namespace Phalanx.Network

open Go

/-- A connection that was dialled, and whether the sweep of `Close` was over by then. -/
structure ClientConn where
  target : String
  isOpen : Bool
  late : Bool
deriving DecidableEq

structure GRPCTransport where
  mu : RWMutex
  conns : Finmap fun _ : String => Nat
  closed : Bool
  dialed : List ClientConn
  /-- `Close` has closed all connections there were. -/
  swept : Bool

def newGRPCTransport : GRPCTransport where
  mu := {}
  conns := ∅
  closed := false
  dialed := []
  swept := false

inductive GetConn where
  | called
  | looking
  | found (conn : Nat)
  | missed
  | upgrading
  | checking
  | dialing
  | storing (conn : Nat)
  | leaving (result : Except String Nat)
  | returned (result : Except String Nat)
deriving DecidableEq

inductive CloseAll where
  | called
  | stopping
  | locking
  | sweeping
  | dropping (addr : String)
  | leaving
  | returned
deriving DecidableEq

inductive ConnTask where
  | getConn (target : String) (stage : GetConn)
  | close (stage : CloseAll)
deriving DecidableEq

/-- What is outside the program: whether a dial fails, and which entry a range loop comes to. -/
structure Chance where
  dialErr : Option String := none
  addr : String := ""
deriving DecidableEq

def GetConn.next (t : GRPCTransport) (target : String) (chance : Chance) :
    GetConn → Option (GRPCTransport × GetConn)
  | .called => t.mu.rlock.map fun mu => ({ t with mu }, .looking)
  | .looking =>
    match t.conns.lookup target with
    | some conn => some (t, .found conn)
    | none => some (t, .missed)
  | .found conn => t.mu.runlock.map fun mu => ({ t with mu }, .returned (.ok conn))
  | .missed => t.mu.runlock.map fun mu => ({ t with mu }, .upgrading)
  | .upgrading => t.mu.lock.map fun mu => ({ t with mu }, .checking)
  | .checking =>
    match t.conns.lookup target with
    | some conn => some (t, .leaving (.ok conn))
    | none => some (t, .dialing)
  | .dialing =>
    match chance.dialErr with
    | some err => some (t, .leaving (.error ("grpc: dial " ++ target ++ ": " ++ err)))
    | none =>
      some ({ t with dialed := t.dialed ++ [{ target, isOpen := true, late := t.swept }] },
        .storing t.dialed.length)
  | .storing conn => some ({ t with conns := t.conns.insert target conn }, .leaving (.ok conn))
  | .leaving result => t.mu.unlock.map fun mu => ({ t with mu }, .returned result)
  | .returned _ => none

/-- The loop takes an entry as long as there is one; none is added while the mutex is held. -/
def CloseAll.next (t : GRPCTransport) (chance : Chance) :
    CloseAll → Option (GRPCTransport × CloseAll)
  | .called => if t.closed then some (t, .returned) else some ({ t with closed := true }, .stopping)
  | .stopping => some (t, .locking)
  | .locking => t.mu.lock.map fun mu => ({ t with mu }, .sweeping)
  | .sweeping =>
    if t.conns = ∅ then some ({ t with swept := true }, .leaving)
    else do
      let conn ← t.conns.lookup chance.addr
      pure ({ t with dialed := t.dialed.modify conn fun l => { l with isOpen := false } },
        .dropping chance.addr)
  | .dropping addr => some ({ t with conns := t.conns.erase addr }, .sweeping)
  | .leaving => t.mu.unlock.map fun mu => ({ t with mu }, .returned)
  | .returned => none

def ConnTask.next (t : GRPCTransport) (chance : Chance) :
    ConnTask → Option (GRPCTransport × ConnTask)
  | .getConn target stage =>
    (stage.next t target chance).map fun next => (next.1, .getConn target next.2)
  | .close stage => (stage.next t chance).map fun next => (next.1, .close next.2)

structure Dialer where
  transport : GRPCTransport
  tasks : List ConnTask

inductive DialerEvent where
  | getConn (target : String)
  | close
  | run (n : Nat) (chance : Chance)

namespace Dialer

def start : Dialer := { transport := newGRPCTransport, tasks := [] }

def step (d : Dialer) : DialerEvent → Option Dialer
  | .getConn target => some { d with tasks := d.tasks ++ [.getConn target .called] }
  | .close => some { d with tasks := d.tasks ++ [.close .called] }
  | .run n chance =>
    d.tasks[n]?.bind fun task => (task.next d.transport chance).map fun next =>
      { transport := next.1, tasks := d.tasks.set n next.2 }

abbrev Run : Dialer → Prop := Reachable (some start) step fun _ _ => True

end Dialer

end Phalanx.Network
