import Mathlib.Logic.Function.Basic
import Phalanx.Node
import Phalanx.Transition

/-! A cluster of nodes and the messages between them. The network only grows: a
packet may be delivered at any later time, any number of times or never, so every
order, delay, loss and duplication is a run. A request leaves in two steps, since
`routeMessage` starts a goroutine that resolves the address when it gets to run.

A crash loses the memory of a node and restarts it from its store through
`NewNode`. It may interrupt a handler: the memory then has changed but nothing
was written or sent. A crash after the write, before the messages leave, is a
completed handler whose packets are never delivered. `hist` records every Raft
state a node ever had, interrupted handlers included. -/
namespace Phalanx

open Go

structure Packet where
  /-- The node that sent it. -/
  origin : String
  /-- The request as sent, or the response as the caller will step it. -/
  msg : Message
  /-- The node it will reach; `none` before the sender has dialled. -/
  dest : Option String
  /-- For a response, the packet that carried its request. -/
  cause : Option Nat := none

structure Cluster where
  node : String → Option Node
  net : List Packet
  hist : List (String × Raft)

structure World where
  env : Env
  members : List String
  peers : String → List String
  electionTimeout : String → Int
  heartbeatTimeout : String → Int
  /-- The `SetPeerAddr` calls made on a node before it runs. -/
  addrs : String → List (String × String)

inductive Stimulus where
  | tick
  | propose (data : List UInt8)
  | packet (k : Nat)
  | join (nodeID raftAddr : String)
deriving DecidableEq

inductive Event where
  | handle (i : String) (stimulus : Stimulus)
  /-- A restart, in the middle of a handler if there is one. -/
  | crash (i : String) (during : Option Stimulus)
  /-- The goroutine of request `k` resolves the address and sends. -/
  | dial (k : Nat)
  | answer (i : String) (call : Nat) (success : Bool)
deriving DecidableEq

def Message.isRequest (msg : Message) : Bool :=
  msg.type = .appendEntries ∨ msg.type = .requestVote

/-- Whether a handler for the request `req` returns `m` as the RPC's response. -/
def Message.isReply (m req : Message) : Bool :=
  m.recipient = req.sender ∧
    (req.type = .appendEntries ∧ m.type = .appendEntriesResp ∨
      req.type ≠ .appendEntries ∧ m.type = .requestVoteResp)

def World.cfg (w : World) (i : String) : NodeConfig where
  id := i
  peers := w.peers i
  electionTimeout := w.electionTimeout i
  heartbeatTimeout := w.heartbeatTimeout i

def World.boot (w : World) (i : String) (store : Store) : Option Node := do
  let n ← Node.newNode w.env (w.cfg i) store
  (w.addrs i).foldlM (fun n addr => n.setPeerAddr addr.1 addr.2) n

namespace Cluster

def setNode (c : Cluster) (i : String) (n : Node) : Cluster :=
  { c with
    node := Function.update c.node i (some n)
    hist := c.hist ++ [(i, { n.raft with msgs := [] })] }

/-- What node `i` is called with, and the packet that brought it. -/
def input (c : Cluster) (i : String) : Stimulus → Option (Input × Option (Nat × Packet))
  | .tick => some (.tick, none)
  | .propose data => some (.propose data, none)
  | .join nodeID raftAddr => some (.join nodeID raftAddr, none)
  | .packet k => do
    let pk ← c.net[k]?
    if pk.dest = some i then
      some (if pk.msg.isRequest then .request pk.msg else .response pk.msg, some (k, pk))
    else none

/-- `routeMessage`: a goroutine for a request, nothing for a response. -/
def route (i : String) (out : List Message) : List Packet :=
  (out.filter Message.isRequest).map fun m => { origin := i, msg := m, dest := none }

/-- The packets a handler of node `i` leaves behind: the response to the request it
served, if it served one, and the requests in its outbox. -/
def emitted (i : String) (out : List Message) : Option (Nat × Packet) → List Packet
  | none => route i out
  | some (k, pk) =>
    if pk.msg.isRequest then
      route i (out.filter fun m => !m.isReply pk.msg) ++
        ((out.filter fun m => m.isReply pk.msg).getLast?.toList.map fun m =>
          { origin := i, msg := pk.msg.answered m, dest := some pk.origin, cause := some k })
    else route i out

def start (w : World) : Option Cluster :=
  w.members.foldlM (fun c i => do
    let n ← w.boot i {}
    pure (c.setNode i n)) { node := fun _ => none, net := [], hist := [] }

def step (w : World) (c : Cluster) : Event → Option Cluster
  | .handle i stimulus => do
    let n ← c.node i
    let (input, via) ← c.input i stimulus
    if n.declines input then some c
    else
      let (n, out) := (← n.act w.env input).release true
      let c := c.setNode i n
      some { c with net := c.net ++ emitted i out via }
  | .crash i during => do
    let n ← c.node i
    let c ← match during with
      | none => some c
      | some stimulus => do
        let (input, _) ← c.input i stimulus
        let interrupted ← n.act w.env input
        some { c with hist := c.hist ++ [(i, { interrupted.raft with msgs := [] })] }
    let n ← w.boot i n.store
    some (c.setNode i n)
  | .dial k => do
    let pk ← c.net[k]?
    let n ← c.node pk.origin
    if pk.dest = none then
      let dest := w.env.dial pk.origin (n.resolvePeerAddr pk.msg.recipient)
      some { c with net := c.net ++ [{ pk with dest := some dest }] }
    else none
  | .answer i call success => do
    let n ← c.node i
    let n ← n.answer call success
    some { c with node := Function.update c.node i (some n) }

abbrev Reach (w : World) (ok : Cluster → Event → Prop) : Cluster → Prop :=
  Reachable (start w) (step w) ok

abbrev run (w : World) (ok : Cluster → Event → Prop) [∀ c e, Decidable (ok c e)]
    (events : List Event) : Option Cluster :=
  runFrom (start w) (step w) ok events

variable {w : World} {c c' : Cluster} {i : String} {stimulus : Stimulus}

theorem input_cases {input : Input} {via : Option (Nat × Packet)}
    (h : c.input i stimulus = some (input, via)) :
    (via = none ∧ stimulus = .tick ∧ input = .tick) ∨
    (∃ data, via = none ∧ stimulus = .propose data ∧ input = .propose data) ∨
    (∃ a b, via = none ∧ stimulus = .join a b ∧ input = .join a b) ∨
    ∃ k pk, stimulus = .packet k ∧ c.net[k]? = some pk ∧ pk.dest = some i ∧
      via = some (k, pk) ∧
      input = if pk.msg.isRequest then .request pk.msg else .response pk.msg := by
  cases stimulus with
  | tick =>
    cases h
    exact .inl ⟨rfl, rfl, rfl⟩
  | propose data =>
    cases h
    exact .inr (.inl ⟨data, rfl, rfl, rfl⟩)
  | join a b =>
    cases h
    exact .inr (.inr (.inl ⟨a, b, rfl, rfl, rfl⟩))
  | packet k =>
    obtain ⟨pk, hpk, h⟩ := Option.bind_eq_some_iff.mp h
    split at h
    next hdest =>
      cases h
      exact .inr (.inr (.inr ⟨k, pk, rfl, hpk, hdest, rfl, rfl⟩))
    next => cases h

theorem reply_of_input {input : Input} {via : Option (Nat × Packet)}
    (h : c.input i stimulus = some (input, via)) {m : Message} (hm : input = .response m) :
    m.isRequest = false := by
  subst hm
  rcases input_cases h with ⟨-, -, hno⟩ | ⟨data, -, -, hno⟩ | ⟨a, b, -, -, hno⟩ |
    ⟨k, pk, -, -, -, -, hmsg⟩
  · cases hno
  · cases hno
  · cases hno
  · split at hmsg
    · cases hmsg
    next hnot =>
      cases hmsg
      exact eq_false_of_ne_true hnot

theorem mem_emitted {out : List Message} {via : Option (Nat × Packet)} {pk : Packet}
    (h : pk ∈ emitted i out via) :
    (∃ m ∈ out, m.isRequest = true ∧ pk = { origin := i, msg := m, dest := none }) ∨
    ∃ k req m, via = some (k, req) ∧ req.msg.isRequest = true ∧ m ∈ out ∧
      m.isReply req.msg = true ∧
      pk =
        { origin := i, msg := req.msg.answered m, dest := some req.origin, cause := some k } := by
  have hroute : ∀ l : List Message, (∀ m ∈ l, m ∈ out) → pk ∈ route i l →
      ∃ m ∈ out, m.isRequest = true ∧ pk = { origin := i, msg := m, dest := none } := by
    intro l hl hpk
    obtain ⟨m, hm, rfl⟩ := List.mem_map.mp hpk
    obtain ⟨hmem, hrequest⟩ := List.mem_filter.mp hm
    exact ⟨m, hl m hmem, hrequest, rfl⟩
  cases via with
  | none => exact .inl (hroute out (fun _ hm => hm) h)
  | some pair =>
    obtain ⟨k, req⟩ := pair
    simp only [emitted] at h
    split at h
    next hrequest =>
      rcases List.mem_append.mp h with hpk | hpk
      · exact .inl (hroute _ (fun m hm => (List.mem_filter.mp hm).1) hpk)
      · obtain ⟨m, hm, rfl⟩ := List.mem_map.mp hpk
        rw [Option.mem_toList] at hm
        obtain ⟨hmem, hreply⟩ := List.mem_filter.mp (List.mem_of_getLast? hm)
        exact .inr ⟨k, req, m, rfl, hrequest, hmem, hreply, rfl⟩
    next => exact .inl (hroute out (fun _ hm => hm) h)

/-- The state after a handler that ran to its end. -/
def completed (c : Cluster) (i : String) (n : Node) (via : Option (Nat × Packet)) : Cluster :=
  { c.setNode i (n.release true).1 with net := c.net ++ emitted i (n.release true).2 via }

def recorded (c : Cluster) (i : String) (n : Node) : Cluster :=
  { c with hist := c.hist ++ [(i, { n.raft with msgs := [] })] }

theorem step_handle (h : c.step w (.handle i stimulus) = some c') :
    ∃ n input via, c.node i = some n ∧ c.input i stimulus = some (input, via) ∧
      ((n.declines input = true ∧ c' = c) ∨
        ∃ n₁, n.act w.env input = some n₁ ∧ c' = c.completed i n₁ via) := by
  obtain ⟨n, hn, h⟩ := Option.bind_eq_some_iff.mp h
  obtain ⟨⟨input, via⟩, hinput, h⟩ := Option.bind_eq_some_iff.mp h
  refine ⟨n, input, via, hn, hinput, ?_⟩
  simp only at h
  split at h
  next hdeclines =>
    cases h
    exact .inl ⟨hdeclines, rfl⟩
  next =>
    obtain ⟨n₁, hn₁, h⟩ := Option.bind_eq_some_iff.mp h
    cases h
    exact .inr ⟨n₁, hn₁, rfl⟩

theorem step_completed {n n' : Node} {input : Input} {via : Option (Nat × Packet)}
    (hn : c.node i = some n) (hinput : c.input i stimulus = some (input, via))
    (hdeclines : n.declines input = false) (hact : n.act w.env input = some n') :
    c.step w (.handle i stimulus) = some (c.completed i n' via) := by
  simp only [step, hn, hinput, hact, hdeclines, Option.bind_eq_bind, Option.bind_some]
  rfl

theorem step_crash {during : Option Stimulus} (h : c.step w (.crash i during) = some c') :
    ∃ n n', c.node i = some n ∧ w.boot i n.store = some n' ∧
      ((during = none ∧ c' = c.setNode i n') ∨
        ∃ stimulus input via n₁, during = some stimulus ∧
          c.input i stimulus = some (input, via) ∧ n.act w.env input = some n₁ ∧
          c' = (c.recorded i n₁).setNode i n') := by
  obtain ⟨n, hn, h⟩ := Option.bind_eq_some_iff.mp h
  cases during with
  | none =>
    obtain ⟨c₁, hc₁, h⟩ := Option.bind_eq_some_iff.mp h
    cases hc₁
    obtain ⟨n', hboot, h⟩ := Option.bind_eq_some_iff.mp h
    cases h
    exact ⟨n, n', hn, hboot, .inl ⟨rfl, rfl⟩⟩
  | some stimulus =>
    obtain ⟨⟨input, via⟩, hinput, h⟩ := Option.bind_eq_some_iff.mp h
    obtain ⟨n₁, hn₁, h⟩ := Option.bind_eq_some_iff.mp h
    obtain ⟨c₁, hc₁, h⟩ := Option.bind_eq_some_iff.mp h
    cases hc₁
    obtain ⟨n', hboot, h⟩ := Option.bind_eq_some_iff.mp h
    cases h
    exact ⟨n, n', hn, hboot, .inr ⟨stimulus, input, via, n₁, rfl, hinput, hn₁, rfl⟩⟩

theorem step_dial {k : Nat} (h : c.step w (.dial k) = some c') :
    ∃ pk n dest, c.net[k]? = some pk ∧ c.node pk.origin = some n ∧ pk.dest = none ∧
      dest = w.env.dial pk.origin (n.resolvePeerAddr pk.msg.recipient) ∧
      c' = { c with net := c.net ++ [{ pk with dest := some dest }] } := by
  obtain ⟨pk, hpk, h⟩ := Option.bind_eq_some_iff.mp h
  obtain ⟨n, hn, h⟩ := Option.bind_eq_some_iff.mp h
  split at h
  next hdest =>
    cases h
    exact ⟨pk, n, _, hpk, hn, hdest, rfl, rfl⟩
  next => cases h

theorem step_answer {call : Nat} {success : Bool}
    (h : c.step w (.answer i call success) = some c') :
    ∃ n n', c.node i = some n ∧ n.answer call success = some n' ∧
      c' = { c with node := Function.update c.node i (some n') } := by
  obtain ⟨n, hn, h⟩ := Option.bind_eq_some_iff.mp h
  obtain ⟨n', hn', h⟩ := Option.bind_eq_some_iff.mp h
  cases h
  exact ⟨n, n', hn, hn', rfl⟩

theorem step_grows {e : Event} (h : c.step w e = some c') :
    c.hist <+: c'.hist ∧ c.net <+: c'.net := by
  cases e with
  | handle i stimulus =>
    obtain ⟨n, input, via, -, -, ⟨-, rfl⟩ | ⟨n₁, -, rfl⟩⟩ := step_handle h
    · exact ⟨List.prefix_refl _, List.prefix_refl _⟩
    · exact ⟨List.prefix_append _ _, List.prefix_append _ _⟩
  | crash i during =>
    obtain ⟨n, n', -, -, ⟨-, rfl⟩ | ⟨stimulus, input, via, n₁, -, -, -, rfl⟩⟩ := step_crash h
    · exact ⟨List.prefix_append _ _, List.prefix_refl _⟩
    · exact ⟨(List.prefix_append _ _).trans (List.prefix_append _ _), List.prefix_refl _⟩
  | dial k =>
    obtain ⟨pk, n, dest, -, -, -, -, rfl⟩ := step_dial h
    exact ⟨List.prefix_refl _, List.prefix_append _ _⟩
  | answer i call success =>
    obtain ⟨n, n', -, -, rfl⟩ := step_answer h
    exact ⟨List.prefix_refl _, List.prefix_refl _⟩

/-- What holds of no nodes at all and is kept by every boot holds at the start. -/
theorem start_induction {P : Cluster → Prop}
    (hempty : P { node := fun _ => none, net := [], hist := [] })
    (hboot : ∀ c i n, i ∈ w.members → w.boot i {} = some n → P c → P (c.setNode i n))
    (h : start w = some c) : P c := by
  have hfold : ∀ (l : List String) (c₀ c₁ : Cluster), (∀ i ∈ l, i ∈ w.members) → P c₀ →
      l.foldlM (fun c i => do
        let n ← w.boot i {}
        pure (c.setNode i n)) c₀ = some c₁ → P c₁ := by
    intro l
    induction l with
    | nil =>
      intro c₀ c₁ _ h₀ h₁
      cases h₁
      exact h₀
    | cons i rest ih =>
      intro c₀ c₁ hl h₀ h₁
      rw [List.foldlM_cons] at h₁
      obtain ⟨c₂, hc₂, h₁⟩ := Option.bind_eq_some_iff.mp h₁
      obtain ⟨n, hn, hc₂⟩ := Option.bind_eq_some_iff.mp hc₂
      cases hc₂
      exact ih _ _ (fun j hj => hl j (List.mem_cons_of_mem i hj))
        (hboot c₀ i n (hl i List.mem_cons_self) hn h₀) h₁
  exact hfold w.members _ c (fun _ hi => hi) hempty h

end Cluster
end Phalanx
