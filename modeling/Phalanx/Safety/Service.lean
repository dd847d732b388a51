import Phalanx.Pb
import Phalanx.Safety.Clients

/-! What readers of a static cluster are told. `HandleRead` tests the leader under the lock of
the node and reads the state machine after it has let go of it, so other handlers may run in
between, and the read may fall between two entries of one `applyCommitted`. Whatever happens,
all that is read comes from one order of entries: every answer is what its key holds after a
beginning of that order, and no later read at the same node goes back behind an earlier one. -/
namespace Phalanx

open Consensus Go Raft

variable {w : World} {c c' : Cluster} {i : String} {n n' : Node} {r : Raft}

def goString (s : String) : GoString := s.toUTF8.data.toList

/-- `HandleRead` under the lock: the response with which it returns at once, or `none` if it
goes on to read the state machine. -/
def Node.screenRead (n : Node) : Option Pb.ReadResponse :=
  if n.raft.state ≠ .leader then
    some { leaderAddr := goString n.resolveLeaderAddr, error := goString "not leader" }
  else if n.raft.hasLeaderQuorum = false then
    some { error := goString "leader lost quorum — cannot serve linearizable read" }
  else none

def KV.response (kv : KV) (key : GoString) : Pb.ReadResponse where
  value := (kv.get key).getD []
  found := (kv.get key).isSome

def KV.after (env : Env) (entries : List LogEntry) : KV :=
  entries.foldl (KV.replay env.unmarshal) {}

namespace Node

/-- The node as its handler calls `applyCommitted`, for a handler that does. -/
def beforeApply (n : Node) : Input → Option Node
  | .tick => n.raft.tick.map fun raft => { n with raft }
  | .request msg =>
    if msg.type = .appendEntries then
      (n.raft.step (msg.received n.id)).map fun raft => { n with raft }
    else none
  | .response msg =>
    if msg.type = .appendEntriesResp then (n.raft.step msg).map fun raft => { n with raft }
    else none
  | _ => none

def fsmAfter (env : Env) (n : Node) (j : Nat) : KV :=
  ((n.raft.applicableEntries.1.take j).foldl (applyEntry env) n).fsm

end Node

structure Reading where
  node : String
  key : GoString
  /-- When the test was made. -/
  asked : Nat
  /-- How many entries the node had applied by then. -/
  since : Nat
  /-- The indices of the proposals that the node had acknowledged by then. -/
  acked : List Nat
  /-- When the answer was fixed, and the answer. -/
  told : Option (Nat × Pb.ReadResponse) := none

/-- A cluster and all the calls of `HandleRead` so far. -/
structure Session where
  cluster : Cluster
  clock : Nat := 0
  readings : List Reading := []

inductive Visit where
  /-- An event of the cluster. Each pair is a reading that fetches its key while the handler is
  at work, and how many entries the handler has applied when it does. -/
  | event (e : Event) (fetches : List (Nat × Nat))
  | ask (i : String) (key : GoString)
  | fetch (q : Nat)

def Visit.steady : Visit → Bool
  | .event e _ => e.steady
  | _ => true

namespace Session

/-- The state machine of node `i` while it handles `e`, `j` entries into `applyCommitted`. -/
def midway (w : World) (c : Cluster) (e : Event) (i : String) (j : Nat) : Option KV :=
  match e with
  | .handle k stimulus => do
    let n ← c.node k
    let (input, _) ← c.input k stimulus
    let n ← n.beforeApply input
    if k = i then some (n.fsmAfter w.env j) else none
  | _ => none

def tell (clock : Nat) (readings : List Reading) (q : Nat) (read : String → Option KV) :
    Option (List Reading) := do
  let r ← readings[q]?
  let kv ← read r.node
  if r.told = none then
    some (readings.set q { r with told := some (clock, kv.response r.key) })
  else none

def step (w : World) (s : Session) : Visit → Option Session
  | .event e fetches => do
    let cluster ← s.cluster.step w e
    let readings ← fetches.foldlM (fun readings f =>
      tell s.clock readings f.1 fun i => midway w s.cluster e i f.2) s.readings
    some { cluster, clock := s.clock + 1, readings }
  | .ask i key => do
    let n ← s.cluster.node i
    some { s with
      clock := s.clock + 1
      readings := s.readings ++ [{
        node := i, key, asked := s.clock, since := n.applied.length
        acked := (n.calls.filter fun call => call.outcome = some true).map Call.index
        told := n.screenRead.map fun response => (s.clock, response) }] }
  | .fetch q => do
    let readings ← tell s.clock s.readings q fun i => (s.cluster.node i).map Node.fsm
    some { s with clock := s.clock + 1, readings }

def start (w : World) : Option Session := (Cluster.start w).map fun cluster => { cluster }

abbrev Reach (w : World) : Session → Prop :=
  Reachable (start w) (step w) fun _ v => v.steady = true

theorem step_event {s s' : Session} {e : Event} {fetches : List (Nat × Nat)}
    (h : s.step w (.event e fetches) = some s') :
    s.cluster.step w e = some s'.cluster ∧ s'.clock = s.clock + 1 ∧
      fetches.foldlM (fun readings f =>
        tell s.clock readings f.1 fun i => midway w s.cluster e i f.2) s.readings =
          some s'.readings := by
  obtain ⟨cluster, hstep, h⟩ := Option.bind_eq_some_iff.mp h
  obtain ⟨readings, hfold, h⟩ := Option.bind_eq_some_iff.mp h
  cases h
  exact ⟨hstep, rfl, hfold⟩

theorem step_ask {s s' : Session} {key : GoString} (h : s.step w (.ask i key) = some s') :
    ∃ n, s.cluster.node i = some n ∧ s' = { s with
      clock := s.clock + 1
      readings := s.readings ++ [{
        node := i, key, asked := s.clock, since := n.applied.length
        acked := (n.calls.filter fun call => call.outcome = some true).map Call.index
        told := n.screenRead.map fun response => (s.clock, response) }] } := by
  obtain ⟨n, hn, h⟩ := Option.bind_eq_some_iff.mp h
  cases h
  exact ⟨n, hn, rfl⟩

theorem step_fetch {s s' : Session} {q : Nat} (h : s.step w (.fetch q) = some s') :
    ∃ readings, s' = { s with clock := s.clock + 1, readings } ∧
      tell s.clock s.readings q (fun i => (s.cluster.node i).map Node.fsm) = some readings := by
  obtain ⟨readings, htell, h⟩ := Option.bind_eq_some_iff.mp h
  cases h
  exact ⟨readings, rfl, htell⟩

theorem tell_cases {clock q : Nat} {readings readings' : List Reading}
    {read : String → Option KV} (h : tell clock readings q read = some readings') :
    ∃ r kv, readings[q]? = some r ∧ read r.node = some kv ∧ r.told = none ∧
      readings' = readings.set q { r with told := some (clock, kv.response r.key) } := by
  obtain ⟨r, hr, h⟩ := Option.bind_eq_some_iff.mp h
  obtain ⟨kv, hkv, h⟩ := Option.bind_eq_some_iff.mp h
  split at h
  next hwaits =>
    cases h
    exact ⟨r, kv, hr, hkv, hwaits, rfl⟩
  next => cases h

theorem Reach.cluster {s : Session} (h : Reach w s) :
    Cluster.Reach w (fun _ e => e.steady = true) s.cluster := by
  induction h with
  | start h =>
    obtain ⟨cluster, hstart, h⟩ := Option.map_eq_some_iff.mp h
    cases h
    exact .start hstart
  | @step s s' v _ hok hstep ih =>
    cases v with
    | event e fetches => exact ih.step hok (step_event hstep).1
    | ask i key =>
      obtain ⟨n, -, rfl⟩ := step_ask hstep
      exact ih
    | fetch q =>
      obtain ⟨readings, rfl, -⟩ := step_fetch hstep
      exact ih

end Session

/-! What the nodes have applied, along a run. -/

namespace Node

variable {env : Env}

theorem beforeApply_eq (env : Env) {input : Input} (h : n.beforeApply input = some n') :
    n.act env input = some (applyCommitted env n') ∧ n'.fsm = n.fsm ∧
      n'.applied = n.applied := by
  cases input with
  | tick =>
    obtain ⟨raft, htick, rfl⟩ := Option.map_eq_some_iff.mp h
    exact ⟨by simp [act, htick], rfl, rfl⟩
  | request msg =>
    rw [beforeApply] at h
    split at h
    next htype =>
      obtain ⟨raft, hstep, rfl⟩ := Option.map_eq_some_iff.mp h
      exact ⟨by simp [act, hstep, htype], rfl, rfl⟩
    next => cases h
  | response msg =>
    rw [beforeApply] at h
    split at h
    next htype =>
      obtain ⟨raft, hstep, rfl⟩ := Option.map_eq_some_iff.mp h
      exact ⟨by simp [act, hstep, htype], rfl, rfl⟩
    next => cases h
  | propose data => cases h
  | join nodeID raftAddr => cases h

theorem Applying.fsmAfter (h : Applying env n) {input : Input}
    (hbefore : n.beforeApply input = some n') (j : Nat) :
    ∃ k, n.applied.length ≤ k ∧ k ≤ (applyCommitted env n').applied.length ∧
      n'.fsmAfter env j = KV.after env ((applyCommitted env n').applied.take k) := by
  obtain ⟨-, hfsm, happlied⟩ := beforeApply_eq env hbefore
  obtain ⟨-, -, -, -, hlist⟩ := applyCommitted_frame env n'
  rw [happlied] at hlist
  refine ⟨n.applied.length + min j n'.raft.applicableEntries.1.length, Nat.le_add_right _ _, ?_,
    ?_⟩
  · rw [hlist, List.length_append]
    omega
  · rw [Node.fsmAfter, foldl_applyEntry_fsm, hfsm, h.fsm, hlist, List.take_length_add_append,
      KV.after, List.foldl_append, ← List.take_eq_take_min]

theorem act_applied_grows {input : Input} (h : n.act env input = some n') :
    n.applied <+: n'.applied := by
  have happly : ∀ raft, n.applied <+: (applyCommitted env { n with raft }).applied := by
    intro raft
    rw [(applyCommitted_frame env _).2.2.2.2]
    exact List.prefix_append _ _
  cases input with
  | tick =>
    obtain ⟨raft, -, h⟩ := Option.bind_eq_some_iff.mp h
    cases h
    exact happly raft
  | propose data =>
    obtain ⟨⟨proposed, raft⟩, -, h⟩ := Option.bind_eq_some_iff.mp h
    cases proposed with
    | none =>
      cases h
      exact List.prefix_refl _
    | some idx =>
      obtain ⟨proposals, -, h⟩ := Option.bind_eq_some_iff.mp h
      cases h
      exact List.prefix_refl _
  | request msg =>
    obtain ⟨raft, -, h⟩ := Option.bind_eq_some_iff.mp h
    split at h <;> cases h
    · exact happly raft
    · exact List.prefix_refl _
  | response msg =>
    obtain ⟨raft, -, h⟩ := Option.bind_eq_some_iff.mp h
    split at h <;> cases h
    · exact happly raft
    · exact List.prefix_refl _
  | join nodeID raftAddr =>
    obtain ⟨peerAddrs, -, h⟩ := Option.bind_eq_some_iff.mp h
    cases h
    exact List.prefix_refl _

end Node

namespace Cluster

def appliedAt (c : Cluster) (i : String) : List LogEntry := ((c.node i).map Node.applied).getD []

theorem appliedAt_eq (hn : c.node i = some n) : c.appliedAt i = n.applied := by
  rw [appliedAt, hn]
  rfl

theorem step_applied_grows {e : Event} (hsteady : e.steady = true) (h : c.step w e = some c')
    (i : String) : c.appliedAt i <+: c'.appliedAt i := by
  cases e with
  | handle k stimulus =>
    obtain ⟨n, input, via, hn, -, ⟨-, rfl⟩ | ⟨n', hact, rfl⟩⟩ := step_handle h
    · exact List.prefix_refl _
    · by_cases hi : i = k
      · subst hi
        rw [appliedAt_eq hn, appliedAt_eq (n := (n'.release true).1) (Function.update_self ..)]
        change n.applied <+: n'.applied
        exact Node.act_applied_grows hact
      · rw [appliedAt, appliedAt]
        simp only [completed, setNode, Function.update_of_ne hi]
        exact List.prefix_refl _
  | crash k during => exact (Event.not_steady_crash hsteady).elim
  | dial k =>
    obtain ⟨pk, n, dest, -, -, -, -, rfl⟩ := step_dial h
    exact List.prefix_refl _
  | answer k call success =>
    obtain ⟨n, n', hn, hanswer, rfl⟩ := step_answer h
    obtain ⟨calls, rfl⟩ := Node.answer_frame hanswer
    by_cases hi : i = k
    · subst hi
      rw [appliedAt_eq hn, appliedAt_eq (n := { n with calls }) (Function.update_self ..)]
    · rw [appliedAt, appliedAt]
      simp only [Function.update_of_ne hi]
      exact List.prefix_refl _

theorem Reach.applied_agree (hstatic : Static w) (hreach : Reach w (fun _ e => e.steady = true) c)
    (hbelow : c.TermsBelow) {i j : String} {n m : Node} (hn : c.node i = some n)
    (hm : c.node j = some m) : n.applied <+: m.applied ∨ m.applied <+: n.applied := by
  obtain ⟨s, hs⟩ := refines_of_steady hstatic (fun _ _ h => h) hreach hbelow
  have hloss : NoLoss (fun (_ : Protocol) (_ : String) => False) := fun _ _ hno => hno.elim
  have hbefore := hreach.before (fun _ _ _ hstep h => h.before hstep) hbelow
  have hsettled : ∀ i n, c.node i = some n → ∃ term,
      n.applied = n.raft.log.take n.raft.commitIndex ∧
      Settled LogEntry.term (quorums w.members.toFinset) s term n.raft.log n.raft.commitIndex := by
    intro i n hn
    obtain ⟨hcaught, happlied, -⟩ :=
      ((applying_kept hstatic (fun _ _ h => h)).reach hbefore).node i n hn
    have htracks := (hs.node i n hn).tracks
    have hcommit := (hs.safe.commits hloss).peerCommit i
    rw [htracks.term, htracks.log, htracks.commit] at hcommit
    exact ⟨_, hcaught ▸ happlied, hcommit⟩
  obtain ⟨term, happlied, hown⟩ := hsettled i n hn
  obtain ⟨term', happlied', hother⟩ := hsettled j m hm
  rw [happlied, happlied']
  exact (hs.safe.kept hloss).settled_agree hs.safe.logs hs.safe.votes (quorums_meet _) hown hother

theorem Reach.applying (hstatic : Static w) (hreach : Reach w (fun _ e => e.steady = true) c)
    (hbelow : c.TermsBelow) (hn : c.node i = some n) : Node.Applying w.env n :=
  ((applying_kept hstatic (fun _ _ h => h)).reach
    (hreach.before (fun _ _ _ hstep h => h.before hstep) hbelow)).node i n hn

end Cluster

/-! Acknowledged proposals. -/

def Call.Fresh (call : Call) : Prop := call.outcome = none ∧ call.signalled = false

/-- A call is signalled for an index that has been applied, and acknowledged if signalled. -/
structure Node.Acked (n : Node) : Prop where
  keyed : ∀ k q, n.proposals.lookup k = some q → ∃ call, n.calls[q]? = some call ∧ call.index = k
  signalled : ∀ call ∈ n.calls, call.signalled = true → call.index ≤ n.applied.length
  told : ∀ call ∈ n.calls, call.outcome = some true → call.signalled = true

namespace Node.Acked

theorem modify (h : n.Acked) {q : Nat} {f : Call → Call}
    (hindex : ∀ call, (f call).index = call.index)
    (hsignalled : ∀ call, n.calls[q]? = some call → (f call).signalled = true →
      call.index ≤ n.applied.length)
    (htold : ∀ call, n.calls[q]? = some call → (f call).outcome = some true →
      (f call).signalled = true) :
    Acked { n with calls := n.calls.modify q f } := by
  have hcall : ∀ call ∈ n.calls.modify q f, call ∈ n.calls ∨
      ∃ old, n.calls[q]? = some old ∧ call = f old := by
    intro call hcall
    obtain ⟨p, hp⟩ := List.getElem?_of_mem hcall
    rw [List.getElem?_modify] at hp
    obtain ⟨old, hold, rfl⟩ := Option.map_eq_some_iff.mp hp
    split
    next heq => exact .inr ⟨old, heq ▸ hold, rfl⟩
    next => exact .inl (List.mem_of_getElem? hold)
  refine ⟨fun k p hp => ?_, fun call hmem hsig => ?_, fun call hmem hout => ?_⟩
  · obtain ⟨call, hcall, hk⟩ := h.keyed k p hp
    rw [List.getElem?_modify, hcall]
    refine ⟨_, rfl, ?_⟩
    simp only
    split
    · exact (hindex call).trans hk
    · exact hk
  · rcases hcall call hmem with hold | ⟨old, hold, rfl⟩
    · exact h.signalled call hold hsig
    · rw [hindex]
      exact hsignalled old hold hsig
  · rcases hcall call hmem with hold | ⟨old, hold, rfl⟩
    · exact h.told call hold hout
    · exact htold old hold hout

theorem applyEntry {env : Env} (h : n.Acked) {e : LogEntry} (he : e.index ≤ n.applied.length) :
    (Node.applyEntry env n e).Acked := by
  unfold Node.applyEntry
  simp only
  split
  next => exact ⟨h.keyed, h.signalled, h.told⟩
  next q hq =>
    obtain ⟨waiter, hwaiter, hindex⟩ := h.keyed _ _ hq
    have hmodified : Acked
        { n with calls := n.calls.modify q (fun call => { call with signalled := true }) } := by
      refine h.modify (fun _ => rfl) (fun call hcall _ => ?_) fun _ _ _ => rfl
      cases hwaiter.symm.trans hcall
      exact hindex ▸ he
    refine ⟨fun k p hp => hmodified.keyed k p ?_, hmodified.signalled, hmodified.told⟩
    rw [GoMap.lookup_delete] at hp
    split at hp
    · cases hp
    · exact hp

theorem apply {env : Env} (h : n.Acked) (hindexed : Indexed r.log)
    (hle : r.lastApplied ≤ r.commitIndex) (hlen : r.commitIndex ≤ r.log.length)
    (happlied : n.applied = r.log.take r.lastApplied) :
    (Node.applyCommitted env { n with raft := r }).Acked := by
  have hfold : ∀ (entries : List LogEntry) (n : Node), n.Acked →
      (∀ e ∈ entries, e.index ≤ n.applied.length) →
      (entries.foldl (Node.applyEntry env) n).Acked := by
    intro entries
    induction entries with
    | nil => exact fun _ h _ => h
    | cons e rest ih =>
      intro n h hall
      have hframe : (Node.applyEntry env n e).applied = n.applied :=
        (foldl_applyEntry_frame [e] n).2.2.2.2
      refine ih _ (h.applyEntry (hall e List.mem_cons_self)) fun e' he' => ?_
      exact (hall e' (List.mem_cons_of_mem e he')).trans_eq (congrArg List.length hframe.symm)
  have htaken : n.applied ++ r.applicableEntries.1 = r.log.take r.commitIndex := by
    rw [applicableEntries_spec hle hlen, happlied, ← List.take_add]
    congr 1
    omega
  refine hfold _ _ ⟨h.keyed, fun call hcall hsig => ?_, h.told⟩ fun e he => ?_
  · exact (h.signalled call hcall hsig).trans (List.prefix_append _ _).length_le
  · have hat := (applicable_at_index hindexed hle hlen htaken e he).2
    have hlt := (List.getElem?_eq_some_iff.mp hat).1
    change e.index ≤ (n.applied ++ r.applicableEntries.1).length
    omega

theorem register (h : n.Acked) {call : Call} {proposals : GoMap Nat Nat} (hnew : call.Fresh)
    (hwrite : n.proposals.write call.index n.calls.length = some proposals) :
    Acked { n with proposals, calls := n.calls ++ [call] } := by
  have hmem : ∀ call' ∈ n.calls ++ [call], call' ∈ n.calls ∨ call' = call := by
    intro call' hcall
    rcases List.mem_append.mp hcall with hold | hadded
    · exact .inl hold
    · exact .inr (List.mem_singleton.mp hadded)
  refine ⟨fun k q hq => ?_, fun call' hcall hsig => ?_, fun call' hcall hout => ?_⟩
  · rw [GoMap.lookup_write hwrite] at hq
    split at hq
    next heq =>
      cases hq
      exact ⟨call, List.getElem?_concat_length, heq.symm⟩
    next =>
      obtain ⟨old, hold, hk⟩ := h.keyed k q hq
      exact ⟨old, getElem?_of_isPrefix (List.prefix_append _ _) hold, hk⟩
  · rcases hmem call' hcall with hold | rfl
    · exact h.signalled call' hold hsig
    · rw [hnew.2] at hsig
      cases hsig
  · rcases hmem call' hcall with hold | rfl
    · exact h.told call' hold hout
    · rw [hnew.1] at hout
      cases hout

theorem answer (h : n.Acked) {q : Nat} {success : Bool} (hanswer : n.answer q success = some n') :
    n'.Acked := by
  unfold Node.answer at hanswer
  split at hanswer
  next call hcall =>
    split at hanswer
    next hguard =>
      cases hanswer
      have hset : n.calls.set q { call with outcome := some success } =
          n.calls.modify q fun call => { call with outcome := some success } := by
        rw [List.modify_eq_set_getElem?, hcall]
        rfl
      rw [hset]
      refine h.modify (fun _ => rfl) (fun old hold hsig => ?_) fun old hold hout => ?_
      · exact h.signalled old (List.mem_of_getElem? hold) hsig
      · cases hcall.symm.trans hold
        exact hguard.2 (Option.some.inj hout)
    next => cases hanswer
  next => cases hanswer

end Node.Acked

namespace Cluster

def acked : Invariant where
  node := fun _ _ n => n.Acked
  packet := fun _ _ => True
  seen := fun _ _ _ => True
  node_mono := fun _ h => h
  packet_mono := fun _ h => h
  seen_mono := fun _ h => h

theorem acked_kept (hstatic : Static w) {ok : Cluster → Event → Prop}
    (hok : ∀ c e, ok c e → e.steady = true ∧ c.TermsBelow) : acked.Kept w ok where
  boot := by
    intro c i n _ hboot
    obtain ⟨peerAddrs, rfl⟩ := World.boot_eq hboot
    refine ⟨⟨fun k q hq => ?_, fun call hcall => ?_, fun call hcall => ?_⟩, trivial⟩
    · simp at hq
    · cases hcall
    · cases hcall
  handle := by
    intro c i stimulus n input via n' hreach h hoke hn hinput hact
    obtain ⟨hsteady, hbelow⟩ := hok _ _ hoke
    have hjoin : stimulus.isJoin = false := Event.isJoin_of_steady hsteady
    refine ⟨?_, trivial, fun _ _ => trivial⟩
    obtain ⟨s, hs⟩ := refines_of_steady hstatic (fun c e he => (hok c e he).1) hreach hbelow
    obtain ⟨⟨s', -, -, htracks⟩, -⟩ := hs.acted hstatic hbelow hjoin hn hinput hact
    obtain ⟨hle, hlen, hkeep⟩ := hs.act_keeps hstatic hbelow hjoin hn hinput hact
    have hold := ((applying_kept hstatic hok).reach hreach).node i n hn
    obtain ⟨r, hmoves, hcloses⟩ :=
      acted_closes hreach.orderly hinput (no_join hjoin hinput) hact
    have hindexed := htracks.indexed
    obtain ⟨⟨lastApplied, hraft⟩, -⟩ := hcloses.frame
    have hacked : n.Acked := h.node i n hn
    have hnew : n'.Acked := by
      cases hcloses with
      | hold => exact ⟨hacked.keyed, hacked.signalled, hacked.told⟩
      | @register data idx proposals _ hwrite =>
        have hfresh : Call.Fresh { index := idx, term := r.currentTerm, data } := ⟨rfl, rfl⟩
        have hregistered := hacked.register hfresh hwrite
        exact ⟨hregistered.keyed, hregistered.signalled, hregistered.told⟩
      | apply =>
        rw [hraft] at hle hlen hkeep hindexed
        have hcaught : r.lastApplied = n.raft.commitIndex :=
          hmoves.lastApplied_eq.trans hold.caught
        refine hacked.apply (r := r) hindexed (hcaught.trans_le hle) hlen ?_
        rw [hold.applied, hold.caught, hcaught]
        exact hkeep
    exact ⟨hnew.keyed, hnew.signalled, hnew.told⟩
  interrupt := fun _ _ _ _ _ _ _ _ _ _ _ _ _ => trivial
  crash := fun _ _ _ _ _ _ _ _ hoke => (Event.not_steady_crash (hok _ _ hoke).1).elim
  dial := fun _ _ _ _ _ _ _ _ _ _ _ _ => trivial
  answer := fun _ i _ _ n _ _ h _ hn hanswer => (h.node i n hn).answer hanswer

end Cluster

/-! Readings and the orders they come from. -/

/-- What a reading was told is what its key holds after the first `upTo` entries of a list. -/
structure Reading.Sound (env : Env) (applied : List LogEntry) (bound upTo : Nat)
    (r : Reading) : Prop where
  asked : r.asked < bound
  since : r.since ≤ applied.length
  acked : ∀ index ∈ r.acked, index ≤ r.since
  told : ∀ t response, r.told = some (t, response) → t < bound ∧ (response.error = [] →
    r.since ≤ upTo ∧ upTo ≤ applied.length ∧
      response = (KV.after env (applied.take upTo)).response r.key)

structure Explained (env : Env) (applied : String → List LogEntry) (bound : Nat)
    (readings : List Reading) (upTo : Nat → Nat) : Prop where
  sound : ∀ (q : Nat) (r : Reading), readings[q]? = some r →
    r.Sound env (applied r.node) bound (upTo q)
  forward : ∀ (a b : Nat) (ra rb : Reading) (t : Nat) (response : Pb.ReadResponse),
    readings[a]? = some ra → readings[b]? = some rb → ra.node = rb.node →
    ra.told = some (t, response) → response.error = [] → t < rb.asked → upTo a ≤ rb.since

namespace Explained

variable {env : Env} {applied applied' : String → List LogEntry} {bound bound' : Nat}
variable {readings : List Reading} {upTo : Nat → Nat}

theorem grow (h : Explained env applied bound readings upTo)
    (happlied : ∀ i, applied i <+: applied' i) (hbound : bound ≤ bound') :
    Explained env applied' bound' readings upTo where
  sound := by
    intro q r hr
    obtain ⟨hasked, hsince, hacked, htold⟩ := h.sound q r hr
    have hlen := (happlied r.node).length_le
    refine ⟨hasked.trans_le hbound, hsince.trans hlen, hacked, fun t response heq => ?_⟩
    obtain ⟨ht, hvalue⟩ := htold t response heq
    refine ⟨ht.trans_le hbound, fun hok => ?_⟩
    obtain ⟨hfrom, hto, hresponse⟩ := hvalue hok
    obtain ⟨new, hnew⟩ := happlied r.node
    refine ⟨hfrom, hto.trans hlen, ?_⟩
    rw [hresponse, ← hnew, List.take_append_of_le_length hto]
  forward := h.forward

theorem ask (h : Explained env applied bound readings upTo) {r : Reading}
    (hasked : r.asked = bound) (hsince : r.since = (applied r.node).length)
    (hacked : ∀ index ∈ r.acked, index ≤ r.since)
    (htold : ∀ t response, r.told = some (t, response) → t = bound ∧ response.error ≠ []) :
    Explained env applied (bound + 1) (readings ++ [r]) upTo := by
  have hcases : ∀ (q : Nat) (r' : Reading), (readings ++ [r])[q]? = some r' →
      readings[q]? = some r' ∨ r' = r := by
    intro q r' hr'
    rw [List.getElem?_append] at hr'
    split at hr'
    · exact .inl hr'
    · exact .inr (List.mem_singleton.mp (List.mem_of_getElem? hr'))
  have hgrown := h.grow (fun i => List.prefix_refl (applied i)) (Nat.le_succ bound)
  refine ⟨fun q r' hr' => ?_, fun a b ra rb t response ha hb hnode heq hok hlt => ?_⟩
  · rcases hcases q r' hr' with hold | rfl
    · exact hgrown.sound q r' hold
    · refine ⟨by omega, by omega, hacked, fun t response heq => ?_⟩
      obtain ⟨ht, herror⟩ := htold t response heq
      exact ⟨by omega, fun hok => absurd hok herror⟩
  · rcases hcases a ra ha with hold | rfl
    · rcases hcases b rb hb with hold' | rfl
      · exact h.forward a b ra rb t response hold hold' hnode heq hok hlt
      · rw [hsince, ← hnode]
        exact (((h.sound a ra hold).told t response heq).2 hok).2.1
    · exact absurd hok (htold t response heq).2

theorem tell (h : Explained env applied (bound + 1) readings upTo) {q k : Nat} {r : Reading}
    {kv : KV} (hr : readings[q]? = some r) (hfrom : r.since ≤ k)
    (hto : k ≤ (applied r.node).length) (hkv : kv = KV.after env ((applied r.node).take k)) :
    Explained env applied (bound + 1)
      (readings.set q { r with told := some (bound, kv.response r.key) })
      (Function.update upTo q k) := by
  have hq := (List.getElem?_eq_some_iff.mp hr).1
  have hcases : ∀ (p : Nat) (r' : Reading),
      (readings.set q { r with told := some (bound, kv.response r.key) })[p]? = some r' →
      p = q ∧ r' = { r with told := some (bound, kv.response r.key) } ∨
        p ≠ q ∧ readings[p]? = some r' := by
    intro p r' hr'
    rw [List.getElem?_set] at hr'
    split at hr'
    next heq =>
      cases hr'
      exact .inl ⟨heq.symm, rfl⟩
    next hne => exact .inr ⟨Ne.symm hne, hr'⟩
  have hold := h.sound q r hr
  refine ⟨fun p r' hr' => ?_, fun a b ra rb t response ha hb hnode heq hok hlt => ?_⟩
  · rcases hcases p r' hr' with ⟨rfl, rfl⟩ | ⟨hne, hr'⟩
    · refine ⟨hold.asked, hold.since, hold.acked, fun t response heq => ?_⟩
      cases heq
      rw [Function.update_self]
      exact ⟨Nat.lt_succ_self _, fun _ => ⟨hfrom, hto, by rw [hkv]⟩⟩
    · rw [Function.update_of_ne hne]
      exact h.sound p r' hr'
  · -- Nothing has been asked after this moment, so the reading bounds no other yet.
    have hbefore : rb.asked ≤ bound := by
      rcases hcases b rb hb with ⟨-, rfl⟩ | ⟨-, hb⟩
      · exact Nat.le_of_lt_succ hold.asked
      · exact Nat.le_of_lt_succ (h.sound b rb hb).asked
    have hsince : ∃ rb', readings[b]? = some rb' ∧ rb'.node = rb.node ∧
        rb'.asked = rb.asked ∧ rb'.since = rb.since := by
      rcases hcases b rb hb with ⟨rfl, rfl⟩ | ⟨-, hb⟩
      · exact ⟨r, hr, rfl, rfl, rfl⟩
      · exact ⟨rb, hb, rfl, rfl, rfl⟩
    obtain ⟨rb', hb', hnode', hasked', hsince'⟩ := hsince
    rcases hcases a ra ha with ⟨rfl, rfl⟩ | ⟨hne, ha⟩
    · cases heq
      omega
    · rw [Function.update_of_ne hne, ← hsince']
      exact h.forward a b ra rb' t response ha hb' (hnode.trans hnode'.symm) heq hok
        (by omega)

end Explained

theorem screenRead_error {response : Pb.ReadResponse} (h : n.screenRead = some response) :
    response.error ≠ [] := by
  unfold Node.screenRead at h
  split at h
  · cases h
    exact (by decide : goString "not leader" ≠ [])
  · split at h
    · cases h
      exact (by decide :
        goString "leader lost quorum — cannot serve linearizable read" ≠ [])
    · cases h

namespace Session

variable {s s' : Session}

theorem explained_fetches (hstatic : Static w) (hreach : s.Reach w)
    (hbelow : s.cluster.TermsBelow) {e : Event} (hstep : s.cluster.step w e = some c')
    (hgrows : ∀ i, s.cluster.appliedAt i <+: c'.appliedAt i) {bound : Nat}
    {fetches : List (Nat × Nat)} {readings readings' : List Reading} {upTo : Nat → Nat}
    (h : Explained w.env c'.appliedAt (bound + 1) readings upTo)
    (hsince : ∀ r ∈ readings, r.since ≤ (s.cluster.appliedAt r.node).length)
    (hfold : fetches.foldlM (fun readings f =>
      tell bound readings f.1 fun i => midway w s.cluster e i f.2) readings = some readings') :
    ∃ upTo', Explained w.env c'.appliedAt (bound + 1) readings' upTo' := by
  induction fetches generalizing readings upTo with
  | nil =>
    cases hfold
    exact ⟨upTo, h⟩
  | cons f rest ih =>
    rw [List.foldlM_cons] at hfold
    obtain ⟨readings₁, htell, hfold⟩ := Option.bind_eq_some_iff.mp hfold
    obtain ⟨r, kv, hr, hkv, -, rfl⟩ := tell_cases htell
    obtain ⟨k, hfrom, hto, hafter⟩ : ∃ k, (s.cluster.appliedAt r.node).length ≤ k ∧
        k ≤ (c'.appliedAt r.node).length ∧
        kv = KV.after w.env ((c'.appliedAt r.node).take k) := by
      cases e with
      | handle i stimulus =>
        obtain ⟨n, hn, hkv⟩ := Option.bind_eq_some_iff.mp hkv
        obtain ⟨⟨input, via⟩, hinput, hkv⟩ := Option.bind_eq_some_iff.mp hkv
        obtain ⟨n₁, hbefore, hkv⟩ := Option.bind_eq_some_iff.mp hkv
        split at hkv
        next hi =>
          cases hkv
          have happlying := hreach.cluster.applying hstatic hbelow hn
          obtain ⟨k, hfrom, hto, hafter⟩ := happlying.fsmAfter hbefore f.2
          have hact := (Node.beforeApply_eq w.env hbefore).1
          obtain ⟨n', input', via', hn', hinput', hcase⟩ := Cluster.step_handle hstep
          cases hn.symm.trans hn'
          cases hinput.symm.trans hinput'
          rcases hcase with ⟨hdeclines, -⟩ | ⟨n₂, hact', rfl⟩
          · cases input <;> first | cases hdeclines | cases hbefore
          · cases hact.symm.trans hact'
            rw [← hi, Cluster.appliedAt_eq hn, Cluster.appliedAt_eq
              (n := ((Node.applyCommitted w.env n₁).release true).1) (Function.update_self ..)]
            exact ⟨k, hfrom, hto, hafter⟩
        next => cases hkv
      | crash i during => cases hkv
      | dial k => cases hkv
      | answer i call success => cases hkv
    have hmem := List.mem_of_getElem? hr
    refine ih (h.tell hr ((hsince r hmem).trans hfrom) hto hafter) ?_ hfold
    intro r' hr'
    rcases List.mem_or_eq_of_mem_set hr' with hold | rfl
    · exact hsince r' hold
    · exact hsince r hmem

theorem Reach.explained (hstatic : Static w) (hreach : s.Reach w)
    (hbelow : s.cluster.TermsBelow) :
    ∃ upTo, Explained w.env s.cluster.appliedAt s.clock s.readings upTo := by
  induction hreach with
  | start h =>
    obtain ⟨cluster, -, h⟩ := Option.map_eq_some_iff.mp h
    cases h
    exact ⟨fun _ => 0, fun q r hr => (by simp at hr), fun a b ra rb t resp ha => (by simp at ha)⟩
  | @step s s' v hreach hok hstep ih =>
    cases v with
    | event e fetches =>
      obtain ⟨hcluster, hclock, hfold⟩ := step_event hstep
      have hbefore := hbelow.before hcluster
      obtain ⟨upTo, hold⟩ := ih hbefore
      have hgrows := Cluster.step_applied_grows hok hcluster
      rw [hclock]
      refine explained_fetches hstatic hreach hbefore hcluster hgrows
        (hold.grow hgrows (Nat.le_succ _)) (fun r hr => ?_) hfold
      obtain ⟨q, hq⟩ := List.getElem?_of_mem hr
      exact (hold.sound q r hq).since
    | ask i key =>
      obtain ⟨n, hn, rfl⟩ := step_ask hstep
      obtain ⟨upTo, hold⟩ := ih hbelow
      refine ⟨upTo, hold.ask rfl ?_ ?_ ?_⟩
      · exact congrArg List.length (Cluster.appliedAt_eq hn).symm
      · intro index hindex
        obtain ⟨call, hcall, rfl⟩ := List.mem_map.mp hindex
        obtain ⟨hmem, hout⟩ := List.mem_filter.mp hcall
        have hacked : n.Acked := ((Cluster.acked_kept hstatic (fun _ _ h => h)).reach
          ((Reach.cluster hreach).before (fun _ _ _ hstep h => h.before hstep) hbelow)).node i n hn
        exact hacked.signalled call hmem (hacked.told call hmem (of_decide_eq_true hout))
      · intro t response heq
        obtain ⟨response', hscreen, heq⟩ := Option.map_eq_some_iff.mp heq
        cases heq
        exact ⟨rfl, screenRead_error hscreen⟩
    | fetch q =>
      obtain ⟨readings, rfl, htell⟩ := step_fetch hstep
      obtain ⟨upTo, hold⟩ := ih hbelow
      obtain ⟨r, kv, hr, hkv, -, rfl⟩ := tell_cases htell
      obtain ⟨n, hn, rfl⟩ := Option.map_eq_some_iff.mp hkv
      have hfsm := ((Reach.cluster hreach).applying hstatic hbelow hn).fsm
      refine ⟨_, (hold.grow (fun i => List.prefix_refl _) (Nat.le_succ _)).tell hr
        (hold.sound q r hr).since le_rfl ?_⟩
      rw [List.take_length, Cluster.appliedAt_eq hn]
      exact hfsm

end Session

/-- Lists that agree pairwise are beginnings of the longest of them. -/
theorem exists_common_order {α κ : Type} (keys : List κ) (lists : κ → List α)
    (hagree : ∀ a b, lists a <+: lists b ∨ lists b <+: lists a) :
    ∃ order, (∀ a ∈ keys, lists a <+: order) ∧ (order = [] ∨ ∃ a, order = lists a) := by
  induction keys with
  | nil => exact ⟨[], by simp, .inl rfl⟩
  | cons a rest ih =>
    obtain ⟨order, hall, hbest⟩ := ih
    have hcompare : lists a <+: order ∨ order <+: lists a := by
      rcases hbest with rfl | ⟨b, rfl⟩
      · exact .inr List.nil_prefix
      · exact hagree a b
    rcases hcompare with hshort | hlong
    · refine ⟨order, fun b hb => ?_, hbest⟩
      rcases List.mem_cons.mp hb with rfl | hb
      · exact hshort
      · exact hall b hb
    · refine ⟨lists a, fun b hb => ?_, .inr ⟨a, rfl⟩⟩
      rcases List.mem_cons.mp hb with rfl | hb
      · exact List.prefix_refl _
      · exact (hall b hb).trans hlong

namespace Cluster

theorem Reach.appliedAt_agree (hstatic : Static w)
    (hreach : Reach w (fun _ e => e.steady = true) c) (hbelow : c.TermsBelow) (a b : String) :
    c.appliedAt a <+: c.appliedAt b ∨ c.appliedAt b <+: c.appliedAt a := by
  unfold appliedAt
  cases ha : c.node a with
  | none => exact .inl List.nil_prefix
  | some n =>
    cases hb : c.node b with
    | none => exact .inr List.nil_prefix
    | some m => exact hreach.applied_agree hstatic hbelow ha hb

end Cluster

theorem reads_follow_one_order (hstatic : Static w) {s : Session} (hreach : s.Reach w)
    (hbelow : s.cluster.TermsBelow) :
    ∃ (order : List LogEntry) (upTo : Nat → Nat),
      (∀ i n, s.cluster.node i = some n →
        n.applied <+: order ∧ n.fsm = KV.after w.env n.applied) ∧
      (∀ (q : Nat) (r : Reading) (t : Nat) (response : Pb.ReadResponse),
        s.readings[q]? = some r → r.told = some (t, response) → response.error = [] →
        r.since ≤ upTo q ∧ upTo q ≤ order.length ∧
          (∀ index ∈ r.acked, index ≤ upTo q) ∧
          response = (KV.after w.env (order.take (upTo q))).response r.key) ∧
      ∀ (a b : Nat) (ra rb : Reading) (t : Nat) (response : Pb.ReadResponse),
        s.readings[a]? = some ra → s.readings[b]? = some rb → ra.node = rb.node →
        ra.told = some (t, response) → response.error = [] → t < rb.asked →
        upTo a ≤ rb.since := by
  have hcluster := hreach.cluster
  obtain ⟨upTo, hsound, hforward⟩ := hreach.explained hstatic hbelow
  obtain ⟨order, horder, -⟩ := exists_common_order (s.readings.map Reading.node ++ w.members)
    s.cluster.appliedAt (hcluster.appliedAt_agree hstatic hbelow)
  refine ⟨order, upTo, fun i n hn => ?_, fun q r t response hr heq hok => ?_, hforward⟩
  · have hmember := (hcluster.orderly.node i n hn).member
    have hpre := horder i (List.mem_append_right _ hmember)
    rw [Cluster.appliedAt_eq hn] at hpre
    exact ⟨hpre, (hcluster.applying hstatic hbelow hn).fsm⟩
  · have hread := hsound q r hr
    obtain ⟨hfrom, hto, hresponse⟩ := (hread.told t response heq).2 hok
    have hpre := horder r.node (List.mem_append_left _
      (List.mem_map_of_mem (List.mem_of_getElem? hr)))
    refine ⟨hfrom, hto.trans hpre.length_le, fun index hindex =>
      (hread.acked index hindex).trans hfrom, ?_⟩
    obtain ⟨new, hnew⟩ := hpre
    rw [hresponse, ← hnew, List.take_append_of_le_length hto]

/-- A leads and is asked for a key. While it applies the entry that sets the key the answer is
fixed, and a reading that is asked for later finds no less. -/
theorem reads_follow_one_order_overlap :
    ∃ s, Session.Reach (mesh ["a", "b", "c"] 1 1) s ∧
      ∃ r ∈ s.readings[0]?, ∃ later ∈ s.readings[1]?, ∃ told ∈ r.told,
        ∃ (order : List LogEntry) (upTo : Nat), r.since = 1 ∧ told.2.found = true ∧
        told.2 = (KV.after (mesh ["a", "b", "c"] 1 1).env (order.take upTo)).response [7] ∧
        upTo ≤ later.since := by
  obtain ⟨s, hreach, hbelow, r, hr, later, hlater, told, htold, hkey, hsince, hfound, herror,
    hnode, htime⟩ : ∃ s, Session.Reach (mesh ["a", "b", "c"] 1 1) s ∧ s.cluster.TermsBelow ∧
      ∃ r ∈ s.readings[0]?, ∃ later ∈ s.readings[1]?, ∃ told ∈ r.told, r.key = [7] ∧
        r.since = 1 ∧ told.2.found = true ∧ told.2.error = [] ∧ r.node = later.node ∧
        told.1 < later.asked :=
    Reachable.of_any
    [.event (.handle "a" .tick) [], .event (.dial 0) [],
      .event (.handle "b" (.packet 2)) [], .event (.handle "a" (.packet 3)) [],
      .event (.dial 4) [], .event (.handle "b" (.packet 6)) [],
      .event (.handle "a" (.packet 7)) [], .ask "a" [7], .event (.handle "a" (.propose [7])) [],
      .event (.dial 8) [], .event (.handle "b" (.packet 10)) [],
      .event (.handle "a" (.packet 11)) [(0, 1)], .ask "a" [7], .fetch 1] rfl
  obtain ⟨order, upTo, -, htold', hforward⟩ :=
    reads_follow_one_order (mesh_static (by decide) (by decide) 1 1) hreach hbelow
  obtain ⟨-, -, -, hresponse⟩ := htold' 0 r told.1 told.2 hr htold herror
  rw [hkey] at hresponse
  exact ⟨s, hreach, r, hr, later, hlater, told, htold, order, upTo 0, hsince, hfound, hresponse,
    hforward 0 1 r later told.1 told.2 hr hlater hnode htold herror htime⟩

end Phalanx
