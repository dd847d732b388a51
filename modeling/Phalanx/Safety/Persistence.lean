import Phalanx.Raft.Outbox
import Phalanx.Raft.Operations
import Phalanx.Refinement.Cluster
import Phalanx.Transition

/-! What a node has on disk when its messages leave. Every handler writes the term and the
vote before it drains the outbox, but `persistState` only logs an error of the store, so
that a handler whose write failed sends what it would have sent anyway. -/
namespace Phalanx

open Raft

namespace Node

variable {env : Env} {cfg : NodeConfig} {store : Store} {n n' : Node} {input : Input}
  {saved : Bool} {out : List Message}

/-- A handler from its lock to its unlock, with what it lets out. Whether the store takes
the write is `saved`. -/
def serve (env : Env) (n : Node) (input : Input) (saved : Bool) : Option (Node × List Message) :=
  if n.declines input then some (n, []) else do
    let n ← n.act env input
    pure (n.release saved)

abbrev Run (env : Env) (cfg : NodeConfig) (store : Store) : Node → Prop :=
  Reachable (newNode env cfg store)
    (fun n (event : Input × Bool) => (serve env n event.1 event.2).map Prod.fst)
    fun _ _ => True

theorem serve_cases (h : n.serve env input saved = some (n', out)) :
    (n' = n ∧ out = []) ∨ ∃ n₁, n.act env input = some n₁ ∧ n₁.release saved = (n', out) := by
  unfold serve at h
  split at h
  · cases h
    exact .inl ⟨rfl, rfl⟩
  · obtain ⟨n₁, hact, h⟩ := Option.bind_eq_some_iff.mp h
    exact .inr ⟨n₁, hact, Option.some.inj h⟩

theorem release_frame (h : n.release saved = (n', out)) :
    n'.raft = { n.raft with msgs := [] } ∧ out = n.raft.msgs ∧
      n'.store = if saved then n.store.saveState n.raft.currentTerm n.raft.votedFor
        else n.store := by
  cases h
  cases saved <;> exact ⟨rfl, rfl, rfl⟩

theorem Run.drained (h : Run env cfg store n) : n.raft.msgs = [] := by
  induction h with
  | start hnew =>
    obtain ⟨raft, hraft, hnew⟩ := Option.bind_eq_some_iff.mp hnew
    cases hnew
    obtain ⟨rand, -, rfl⟩ := newRaft_eq hraft
    rfl
  | step _ _ hstep ih =>
    obtain ⟨⟨n', out⟩, hserve, rfl⟩ := Option.map_eq_some_iff.mp hstep
    rcases serve_cases hserve with ⟨rfl, -⟩ | ⟨n₁, -, hrelease⟩
    · exact ih
    · rw [(release_frame hrelease).1]

end Node

def Message.isGrant (m : Message) : Bool :=
  m.type = .requestVoteResp ∧ m.reject = false ∧ m.isPreVote = false

/-- What has to be on disk when `m` leaves. -/
def Store.Covers (store : Store) (m : Message) : Prop :=
  m.term ≤ store.loadState.1 ∧ (m.isGrant → store.loadState = (m.term, m.recipient))

instance (store : Store) (m : Message) : Decidable (store.Covers m) :=
  inferInstanceAs (Decidable (_ ∧ _))

theorem Store.covers_of_posted {store : Store} {r r' : Raft} {m : Message}
    (hstore : store.loadState = (r'.currentTerm, r'.votedFor)) (hposted : Posted r r' m) :
    store.Covers m := by
  refine ⟨?_, fun hgrant => ?_⟩
  · rw [hstore, hposted.term]
  · obtain ⟨htype, hreject, hprevote⟩ := of_decide_eq_true hgrant
    rw [hstore, hposted.term, hposted.grant htype hreject hprevote]

/-- The write of this handler would change nothing: the store already holds the term and
the vote that the handler ends with. -/
def Node.Settled (env : Env) (n : Node) (input : Input) : Prop :=
  ∀ n', n.act env input = some n' →
    n.store.loadState = (n'.raft.currentTerm, n'.raft.votedFor)

def ballotBox : NodeConfig :=
  { id := "b", peers := ["a", "c"], electionTimeout := 1, heartbeatTimeout := 1 }

def ballot (term : Nat) : Message :=
  { type := .requestVote, sender := "a", recipient := "b", term }

/-- Whatever a handler lets out is covered by the store, if its write succeeds or has
nothing to change. Earlier failures do no harm: each write brings the whole state. -/
theorem nothing_unpersisted_leaves {env : Env} {cfg : NodeConfig} {store : Store} {n n' : Node}
    {input : Input} {saved : Bool} {out : List Message} (hrun : n.Run env cfg store)
    (hserve : n.serve env input saved = some (n', out))
    (hwrite : saved = true ∨ n.Settled env input) : ∀ m ∈ out, n'.store.Covers m := by
  intro m hm
  rcases Node.serve_cases hserve with ⟨-, rfl⟩ | ⟨n₁, hact, hrelease⟩
  · cases hm
  obtain ⟨hraft, rfl, hstore⟩ := Node.release_frame hrelease
  refine Store.covers_of_posted ?_ (Node.act_posts hrun.drained hact m hm)
  rcases hwrite with rfl | hsettled
  · rw [hstore]
    rfl
  · cases saved with
    | true =>
      rw [hstore]
      rfl
    | false =>
      obtain ⟨-, -, -, -, hkept⟩ := Node.act_performs hact
      rw [hstore]
      change n₁.store.loadState = _
      rw [hkept]
      exact hsettled n₁ hact

/-- A node whose first write fails stands in term 1 unsaved. The vote that it then gives in
term 2 leaves only once it is on disk. -/
theorem nothing_unpersisted_leaves_vote :
    ∃ n, Node.Run (mesh ["a", "b", "c"] 1 1).env ballotBox {} n ∧
      ∃ served ∈ n.serve (mesh ["a", "b", "c"] 1 1).env (.request (ballot 2)) true,
        served.2.any Message.isGrant ∧ ∀ m ∈ served.2, served.1.store.Covers m := by
  obtain ⟨n, hrun, served, hserve, hgrant⟩ :
      ∃ n, Node.Run (mesh ["a", "b", "c"] 1 1).env ballotBox {} n ∧
        ∃ served ∈ n.serve (mesh ["a", "b", "c"] 1 1).env (.request (ballot 2)) true,
        served.2.any Message.isGrant :=
    Reachable.of_any [(.tick, false)] rfl
  exact ⟨n, hrun, served, hserve, hgrant, nothing_unpersisted_leaves hrun hserve (.inl rfl)⟩

/-- A vote is given although the write fails, and nothing of it is on disk. -/
theorem failed_write_lets_vote_out :
    ∃ n, Node.Run (mesh ["a", "b", "c"] 1 1).env ballotBox {} n ∧
      ∃ served ∈ n.serve (mesh ["a", "b", "c"] 1 1).env (.request (ballot 1)) false,
        ∃ m ∈ served.2, m.isGrant ∧ m.term = 1 ∧ m.recipient = "a" ∧
          served.1.store.loadState = (0, None) ∧ ¬ served.1.store.Covers m :=
  Reachable.of_any [] rfl

end Phalanx
