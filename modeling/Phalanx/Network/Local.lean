import Mathlib.Data.Finmap
import Mathlib.Data.Finset.Insert
import Mathlib.Logic.Function.Basic
import Phalanx.Go.Chan
import Phalanx.Raft.Types
import Phalanx.Transition

/-! The in-memory transport, called from any number of goroutines at once. A call goes from
one of its atomic sections to the next (a load or a swap of the flag, what a mutex covers,
an operation on the inbox), and the sections of different calls mix in any order. Sender and
receiver are objects of their own: a link is a reference in the sender's table, and the flag
and the inbox it leads to belong to the receiver. -/
namespace Phalanx.Network

open Go

def defaultInboxSize : Nat := 256

structure Message where
  sender : String
  entry : LogEntry
deriving DecidableEq, Repr

inductive ContextError where
  | canceled
  | deadlineExceeded
deriving DecidableEq, Repr

inductive TransportError where
  | closed
  | partitioned
  | peerNotFound (target : String)
  | context (err : ContextError)
deriving DecidableEq, Repr

inductive Fault where
  | nilPointer
  | sendOnClosedChannel
  | closeOfClosedChannel
deriving DecidableEq, Repr

/-- A transport, where `ι` are the references to transports. Neither map is ever nil. -/
structure LocalTransport (ι : Type) where
  addr : String
  inbox : Chan Message
  peers : Finmap fun _ : String => ι
  partitioned : Finset String
  closed : Bool

def newLocalTransport {ι : Type} (addr : String) : LocalTransport ι where
  addr := addr
  inbox := .make defaultInboxSize
  peers := ∅
  partitioned := ∅
  closed := false

structure Heap (ι κ : Type) where
  transports : ι → LocalTransport ι
  contexts : κ → Option ContextError

/-- The arguments of `Send`, where a pointer or an interface may be nil. -/
structure SendCall (ι κ : Type) where
  transport : ι
  ctx : Option κ
  target : String
  entry : Option LogEntry
deriving DecidableEq

/-- How far a `Send` has come. -/
inductive Stage (ι : Type) where
  | called
  | unclosed
  | unblocked
  | resolved (peer : ι)
  | selecting (peer : ι) (msg : Message)
  | returned (err : Option TransportError)
  | panicked (fault : Fault)
deriving DecidableEq

inductive Task (ι κ : Type) where
  | connect (a b : ι)
  | connectBack (a b : ι)
  | disconnect (a b : ι)
  | disconnectBack (a b : ι)
  | partition (t : ι) (target : String)
  | heal (t : ι) (target : String)
  | send (call : SendCall ι κ) (stage : Stage ι)
  | receive (t : ι)
  | close (t : ι)
  | closeInbox (t : ι)
  | reset (t : ι)
  | resetPartitions (t : ι)
  | drain (t : ι)
  | returned
  | received (msg : Option Message)
  | closed (err : Option TransportError)
  | panicked (fault : Fault)
deriving DecidableEq

def Task.fresh {ι κ : Type} : Task ι κ → Bool
  | .connect _ _ | .disconnect _ _ | .partition _ _ | .heal _ _ | .send _ .called | .receive _
  | .close _ | .reset _ => true
  | _ => false

/-- The copy that is sent; an entry of the pool gives its memory and nothing else. -/
def copyEntry (entry : LogEntry) : LogEntry where
  index := entry.index
  term := entry.term
  type := entry.type
  data := if 0 < entry.data.length then entry.data else []

section Sections

variable {ι κ : Type} [DecidableEq ι]

namespace Heap

def update (heap : Heap ι κ) (t : ι) (f : LocalTransport ι → LocalTransport ι) : Heap ι κ :=
  { heap with transports := Function.update heap.transports t (f (heap.transports t)) }

def link (heap : Heap ι κ) (a b : ι) : Heap ι κ :=
  heap.update a fun t => { t with peers := t.peers.insert (heap.transports b).addr b }

def unlink (heap : Heap ι κ) (a b : ι) : Heap ι κ :=
  heap.update a fun t => { t with peers := t.peers.erase (heap.transports b).addr }

end Heap

/-- The next section of a `Send`, which is `none` while its select blocks. -/
def SendCall.next (call : SendCall ι κ) (heap : Heap ι κ) (prefersDone : Bool) :
    Stage ι → Option (Heap ι κ × Stage ι)
  | .called =>
    if (heap.transports call.transport).closed then some (heap, .returned (some .closed))
    else some (heap, .unclosed)
  | .unclosed =>
    if call.target ∈ (heap.transports call.transport).partitioned then
      some (heap, .returned (some .partitioned))
    else some (heap, .unblocked)
  | .unblocked =>
    match (heap.transports call.transport).peers.lookup call.target with
    | none => some (heap, .returned (some (.peerNotFound call.target)))
    | some peer => some (heap, .resolved peer)
  | .resolved peer =>
    match call.entry with
    | none => some (heap, .panicked .nilPointer)
    | some entry => some (heap, .selecting peer
        { sender := (heap.transports call.transport).addr, entry := copyEntry entry })
  | .selecting peer msg =>
    match call.ctx with
    | none => some (heap, .panicked .nilPointer)
    | some ctx =>
      match (heap.transports peer).inbox.select msg (heap.contexts ctx) prefersDone with
      | .blocks => none
      | .panics => some (heap, .panicked .sendOnClosedChannel)
      | .sent inbox => some (heap.update peer fun t => { t with inbox }, .returned none)
      | .done err => some (heap, .returned (some (.context err)))
  | .returned _ | .panicked _ => none

/-- The next section of a call, which is `none` while it blocks and when it is over. -/
def Task.next (heap : Heap ι κ) (prefersDone : Bool) :
    Task ι κ → Option (Heap ι κ × Task ι κ)
  | .connect a b => some (heap.link a b, .connectBack a b)
  | .connectBack a b => some (heap.link b a, .returned)
  | .disconnect a b => some (heap.unlink a b, .disconnectBack a b)
  | .disconnectBack a b => some (heap.unlink b a, .returned)
  | .partition t target =>
    some (heap.update t fun t => { t with partitioned := insert target t.partitioned }, .returned)
  | .heal t target =>
    some (heap.update t fun t => { t with partitioned := t.partitioned.erase target }, .returned)
  | .send call stage =>
    (call.next heap prefersDone stage).map fun next => (next.1, .send call next.2)
  | .receive t =>
    match (heap.transports t).inbox.receive with
    | .blocks => none
    | .closed => some (heap, .received none)
    | .value msg inbox => some (heap.update t fun t => { t with inbox }, .received (some msg))
  | .close t =>
    if (heap.transports t).closed then some (heap, .closed (some .closed))
    else some (heap.update t fun t => { t with closed := true }, .closeInbox t)
  | .closeInbox t =>
    match (heap.transports t).inbox.close with
    | none => some (heap, .panicked .closeOfClosedChannel)
    | some inbox => some (heap.update t fun t => { t with inbox }, .closed none)
  | .reset t => some (heap.update t fun t => { t with peers := ∅ }, .resetPartitions t)
  | .resetPartitions t => some (heap.update t fun t => { t with partitioned := ∅ }, .drain t)
  | .drain t =>
    match (heap.transports t).inbox.receive with
    | .value _ inbox => some (heap.update t fun t => { t with inbox }, .drain t)
    | .closed | .blocks => some (heap, .returned)
  | .returned | .received _ | .closed _ | .panicked _ => none

end Sections

structure Net (ι κ : Type) where
  heap : Heap ι κ
  tasks : List (Task ι κ)

inductive Event (ι κ : Type) where
  | call (task : Task ι κ)
  | run (n : Nat) (prefersDone : Bool)
  | done (ctx : κ) (err : ContextError)

namespace Net

variable {ι κ : Type} [DecidableEq ι] [DecidableEq κ]

def start (addr : ι → String) : Net ι κ where
  heap := { transports := fun t => newLocalTransport (addr t), contexts := fun _ => none }
  tasks := []

def step (net : Net ι κ) : Event ι κ → Option (Net ι κ)
  | .call task => if task.fresh then some { net with tasks := net.tasks ++ [task] } else none
  | .run n prefersDone =>
    net.tasks[n]?.bind fun task => (task.next net.heap prefersDone).map fun next =>
      { heap := next.1, tasks := net.tasks.set n next.2 }
  | .done ctx err =>
    match net.heap.contexts ctx with
    | none => some { net with heap := { net.heap with
        contexts := Function.update net.heap.contexts ctx (some err) } }
    | some _ => none

abbrev Run (addr : ι → String) (ok : Net ι κ → Event ι κ → Prop) : Net ι κ → Prop :=
  Reachable (some (start addr)) step ok

end Net
end Phalanx.Network
