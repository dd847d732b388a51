import Phalanx.Safety.Persistence

/-! The channels on which clients of `HandlePropose` wait. `n.proposals` holds one channel for
each index; a second proposal at an index takes the place of the first, and `applyCommitted`
closes whatever it finds. Nothing is known of the messages that come in. -/
namespace Phalanx

open Consensus Go

def Call.close (call : Call) : Option Call :=
  if call.signalled then none else some { call with signalled := true }

namespace Node

section Panics

variable (env : Env)

/-- `applyCommitted` on one entry, with the panic of `close`. -/
def applyEntryOrPanic (n : Node) (entry : LogEntry) : Option Node :=
  let fsm := if entry.type = .command ∧ entry.data ≠ [] then
    n.fsm.applied env.unmarshal entry.data else n.fsm
  match n.proposals.lookup entry.index with
  | none => some { n with fsm }
  | some q => do
    let call ← (← n.calls[q]?).close
    pure { n with fsm, calls := n.calls.set q call, proposals := n.proposals.delete entry.index }

def applyCommittedOrPanic (n : Node) : Option Node :=
  let (entries, raft) := n.raft.applicableEntries
  entries.foldlM (applyEntryOrPanic env) { n with raft, applied := n.applied ++ entries }

end Panics

/-- What happens at a node: a handler runs, with a store that may fail, or a call returns. -/
inductive Occasion where
  | serve (input : Input) (saved : Bool)
  | answer (call : Nat) (success : Bool)

def meet (env : Env) (n : Node) : Occasion → Option Node
  | .serve input saved => (n.serve env input saved).map Prod.fst
  | .answer call success => n.answer call success

abbrev Onward (env : Env) (init : Option Node) : Node → Prop :=
  Reachable init (meet env) fun _ _ => True

variable {env : Env} {n n' : Node} {init : Option Node} {P : Node → Prop} {q : Nat}

structure Booked (env : Env) (P : Node → Prop) : Prop where
  congr : ∀ (n : Node) {n' : Node}, n'.calls = n.calls → n'.proposals = n.proposals → P n → P n'
  entry : ∀ {n : Node} (entry : LogEntry), P n → P (n.applyEntry env entry)
  register : ∀ {n : Node} {call : Call} {proposals : GoMap Nat Nat}, call.signalled = false →
    n.proposals.write call.index n.calls.length = some proposals → P n →
    P { n with proposals, calls := n.calls ++ [call] }
  answer : ∀ {n : Node} {q : Nat} {call : Call} (success : Bool), n.calls[q]? = some call →
    P n → P { n with calls := n.calls.set q { call with outcome := some success } }

namespace Booked

theorem apply (hP : Booked env P) (h : P n) (r : Raft) :
    P (({ n with raft := r } : Node).applyCommitted env) := by
  have hfold : ∀ (entries : List LogEntry) (n : Node), P n →
      P (entries.foldl (Node.applyEntry env) n) := by
    intro entries
    induction entries with
    | nil => exact fun n h => h
    | cons entry rest ih => exact fun n h => ih _ (hP.entry entry h)
  exact hfold _ _ (hP.congr n rfl rfl h)

theorem act (hP : Booked env P) (h : P n) {input : Input} (hact : n.act env input = some n') :
    P n' := by
  cases input with
  | tick =>
    obtain ⟨raft, -, hact⟩ := Option.bind_eq_some_iff.mp hact
    cases hact
    exact hP.apply h raft
  | propose data =>
    obtain ⟨⟨proposed, raft⟩, -, hact⟩ := Option.bind_eq_some_iff.mp hact
    cases proposed with
    | none =>
      cases hact
      exact hP.congr n rfl rfl h
    | some idx =>
      obtain ⟨proposals, hwrite, hact⟩ := Option.bind_eq_some_iff.mp hact
      cases hact
      have hregistered : P { n with
          proposals, calls := n.calls ++ [{ index := idx, term := raft.currentTerm, data }] } :=
        hP.register rfl hwrite h
      refine hP.congr { n with proposals, calls := n.calls ++ [_] } ?_ rfl hregistered
      rfl
  | request msg =>
    obtain ⟨raft, -, hact⟩ := Option.bind_eq_some_iff.mp hact
    split at hact
    · cases hact
      exact hP.apply h raft
    · cases hact
      exact hP.congr n rfl rfl h
  | response msg =>
    obtain ⟨raft, -, hact⟩ := Option.bind_eq_some_iff.mp hact
    split at hact
    · cases hact
      exact hP.apply h raft
    · cases hact
      exact hP.congr n rfl rfl h
  | join nodeID raftAddr =>
    obtain ⟨peerAddrs, -, hact⟩ := Option.bind_eq_some_iff.mp hact
    cases hact
    exact hP.congr n rfl rfl h

theorem answers (hP : Booked env P) (h : P n) {success : Bool}
    (hanswer : n.answer q success = some n') : P n' := by
  unfold Node.answer at hanswer
  split at hanswer
  next call hcall =>
    split at hanswer
    · cases hanswer
      exact hP.answer success hcall h
    · cases hanswer
  · cases hanswer

theorem meet (hP : Booked env P) (h : P n) {e : Occasion} (hmeet : n.meet env e = some n') :
    P n' := by
  cases e with
  | serve input saved =>
    obtain ⟨⟨n₂, out⟩, hserve, rfl⟩ := Option.map_eq_some_iff.mp hmeet
    unfold serve at hserve
    split at hserve
    · cases hserve
      exact h
    · obtain ⟨n₁, hact, hserve⟩ := Option.bind_eq_some_iff.mp hserve
      cases hserve
      refine hP.congr n₁ ?_ ?_ (hP.act h hact) <;> unfold persistState <;> split <;> rfl
  | answer q success => exact hP.answers h hmeet

theorem onward (hP : Booked env P) (hstart : ∀ n, init = some n → P n)
    (h : Onward env init n) : P n := by
  induction h with
  | start h => exact hstart _ h
  | step _ _ hstep ih => exact hP.meet ih hstep

end Booked

/-- A later call was registered at the index. -/
def Displaced (n : Node) (q index : Nat) : Prop :=
  ∃ p later, q < p ∧ n.calls[p]? = some later ∧ later.index = index

/-- The map holds open channels under their own index, and every open channel that has not been
displaced. -/
structure Tallied (n : Node) : Prop where
  keyed : ∀ k q, n.proposals.lookup k = some q →
    ∃ call, n.calls[q]? = some call ∧ call.index = k ∧ call.signalled = false
  waits : ∀ (q : Nat) (call : Call), n.calls[q]? = some call → call.signalled = false →
    n.proposals.lookup call.index = some q ∨ n.Displaced q call.index

namespace Tallied

theorem signal (h : n.Tallied) {k : Nat} (hq : n.proposals.lookup k = some q) :
    Tallied { n with
      calls := n.calls.modify q fun call => { call with signalled := true }
      proposals := n.proposals.delete k } := by
  obtain ⟨waiter, hwaiter, hindex, -⟩ := h.keyed k q hq
  refine ⟨fun k' p hp => ?_, fun p call hcall hopen => ?_⟩
  · rw [GoMap.lookup_delete] at hp
    split at hp
    · cases hp
    next hne =>
      obtain ⟨call, hcall, hk, hopen⟩ := h.keyed k' p hp
      refine ⟨call, ?_, hk, hopen⟩
      have hpq : q ≠ p := by
        rintro rfl
        cases hwaiter.symm.trans hcall
        exact hne (hk.symm.trans hindex)
      simp [List.getElem?_modify, if_neg hpq, hcall]
  · simp only [List.getElem?_modify] at hcall
    obtain ⟨old, hold, rfl⟩ := Option.map_eq_some_iff.mp hcall
    split at hopen
    next => cases hopen
    next hpq =>
      rw [if_neg hpq]
      rcases h.waits p old hold hopen with hkey | ⟨p', later, hlt, hlater, hsame⟩
      · refine .inl ?_
        rw [GoMap.lookup_delete, if_neg, hkey]
        intro heq
        rw [heq, hq] at hkey
        exact hpq (Option.some.inj hkey)
      · refine .inr ⟨p', if q = p' then { later with signalled := true } else later, hlt, ?_, ?_⟩
        · simp only [List.getElem?_modify, hlater]
          split <;> rfl
        · split <;> exact hsame

theorem applyEntry (h : n.Tallied) (entry : LogEntry) :
    n.applyEntryOrPanic env entry = some (n.applyEntry env entry) ∧
      (n.applyEntry env entry).Tallied := by
  unfold applyEntryOrPanic Node.applyEntry
  cases hq : n.proposals.lookup entry.index with
  | none => exact ⟨rfl, h.keyed, h.waits⟩
  | some q =>
    obtain ⟨call, hcall, -, hopen⟩ := h.keyed _ _ hq
    have hsignal := h.signal hq
    refine ⟨?_, hsignal.keyed, hsignal.waits⟩
    simp [hcall, List.modify_eq_set_getElem?, Call.close, hopen]

theorem register (h : n.Tallied) {call : Call} {proposals : GoMap Nat Nat}
    (hopen : call.signalled = false)
    (hwrite : n.proposals.write call.index n.calls.length = some proposals) :
    Tallied { n with proposals, calls := n.calls ++ [call] } := by
  refine ⟨fun k q hq => ?_, fun q old hold hwaits => ?_⟩
  · rw [GoMap.lookup_write hwrite] at hq
    split at hq
    next heq =>
      cases hq
      exact ⟨call, List.getElem?_concat_length, heq.symm, hopen⟩
    next =>
      obtain ⟨old, hold, hrest⟩ := h.keyed k q hq
      exact ⟨old, getElem?_of_isPrefix (List.prefix_append _ _) hold, hrest⟩
  · simp only at hold ⊢
    rw [GoMap.lookup_write hwrite]
    rcases Nat.lt_trichotomy q n.calls.length with hlt | rfl | hgt
    · rw [List.getElem?_append_left hlt] at hold
      by_cases hsame : old.index = call.index
      · exact .inr ⟨n.calls.length, call, hlt, List.getElem?_concat_length, hsame.symm⟩
      · rw [if_neg hsame]
        refine (h.waits q old hold hwaits).imp_right ?_
        rintro ⟨p, later, hqp, hlater, hindex⟩
        exact ⟨p, later, hqp, getElem?_of_isPrefix (List.prefix_append _ _) hlater, hindex⟩
    · rw [List.getElem?_concat_length] at hold
      cases hold
      exact .inl (if_pos rfl)
    · rw [List.getElem?_eq_none (by simp; omega)] at hold
      cases hold

end Tallied

theorem getElem?_answered {call : Call} (hcall : n.calls[q]? = some call) (success : Bool)
    {p : Nat} {old : Call} (hold : n.calls[p]? = some old) :
    ∃ now, (n.calls.set q { call with outcome := some success })[p]? = some now ∧
      now.index = old.index ∧ now.signalled = old.signalled := by
  rw [List.getElem?_set]
  split
  next heq =>
    subst heq
    cases hcall.symm.trans hold
    rw [if_pos (List.getElem?_eq_some_iff.mp hcall).1]
    exact ⟨_, rfl, rfl, rfl⟩
  next => exact ⟨old, hold, rfl, rfl⟩

theorem Tallied.answer (h : n.Tallied) {call : Call} (hcall : n.calls[q]? = some call)
    (success : Bool) :
    Tallied { n with calls := n.calls.set q { call with outcome := some success } } := by
  refine ⟨fun k p hp => ?_, fun p now hnow hopen => ?_⟩
  · obtain ⟨old, hold, hk, hopen⟩ := h.keyed k p hp
    obtain ⟨now, hnow, hindex, hsignalled⟩ := getElem?_answered hcall success hold
    exact ⟨now, hnow, hindex.trans hk, hsignalled.trans hopen⟩
  · obtain ⟨old, hold⟩ : ∃ old, n.calls[p]? = some old := by
      refine ⟨_, List.getElem?_eq_getElem ?_⟩
      have hlt := (List.getElem?_eq_some_iff.mp hnow).1
      rwa [List.length_set] at hlt
    obtain ⟨now', hnow', hindex, hsignalled⟩ := getElem?_answered hcall success hold
    cases hnow.symm.trans hnow'
    rw [hindex]
    refine (h.waits p old hold (hsignalled.symm.trans hopen)).imp_right ?_
    rintro ⟨p', later, hlt, hlater, hsame⟩
    obtain ⟨later', hlater', hindex', -⟩ := getElem?_answered hcall success hlater
    exact ⟨p', later', hlt, hlater', hindex'.trans hsame⟩

theorem tallied_booked (env : Env) : Booked env Tallied where
  congr := by
    intro n n' hcalls hproposals h
    refine ⟨?_, ?_⟩
    · rw [hproposals, hcalls]
      exact h.keyed
    · unfold Displaced
      rw [hproposals, hcalls]
      exact h.waits
  entry := fun entry h => (h.applyEntry entry).2
  register := fun hopen hwrite h => h.register hopen hwrite
  answer := fun success hcall h => h.answer hcall success

theorem newNode_tallied {cfg : NodeConfig} {store : Store} (h : newNode env cfg store = some n) :
    n.Tallied := by
  obtain ⟨raft, -, h⟩ := Option.bind_eq_some_iff.mp h
  cases h
  exact ⟨fun k q hq => (by simp at hq), fun q call hcall => (by simp at hcall)⟩

theorem Tallied.applyCommitted (h : n.Tallied) (r : Raft) :
    ({ n with raft := r } : Node).applyCommittedOrPanic env =
      some (({ n with raft := r } : Node).applyCommitted env) := by
  have hfold : ∀ (entries : List LogEntry) (n : Node), n.Tallied →
      entries.foldlM (applyEntryOrPanic env) n =
        some (entries.foldl (Node.applyEntry env) n) := by
    intro entries
    induction entries with
    | nil => exact fun n h => rfl
    | cons entry rest ih =>
      intro n h
      obtain ⟨hone, htallied⟩ := h.applyEntry entry
      rw [List.foldlM_cons, hone, List.foldl_cons]
      exact ih _ htallied
  exact hfold _ _ ⟨h.keyed, h.waits⟩

/-- The channel of call `q` is open, and the node has no hold of it. -/
structure Adrift (q : Nat) (n : Node) : Prop where
  waits : ∃ call, n.calls[q]? = some call ∧ call.signalled = false
  unkeyed : ∀ k, n.proposals.lookup k ≠ some q

theorem adrift_booked (env : Env) (q : Nat) : Booked env (Adrift q) where
  congr := by
    intro n n' hcalls hproposals h
    exact ⟨hcalls ▸ h.waits, hproposals ▸ h.unkeyed⟩
  entry := by
    intro n entry h
    unfold applyEntry
    cases hp : n.proposals.lookup entry.index with
    | none => exact ⟨h.waits, h.unkeyed⟩
    | some p =>
      have hpq : p ≠ q := fun heq => h.unkeyed entry.index (heq ▸ hp)
      obtain ⟨call, hcall, hopen⟩ := h.waits
      refine ⟨⟨call, ?_, hopen⟩, fun k hk => ?_⟩
      · simp [List.getElem?_modify, if_neg hpq, hcall]
      · simp only [GoMap.lookup_delete] at hk
        split at hk
        · cases hk
        · exact h.unkeyed k hk
  register := by
    intro n call proposals _ hwrite h
    obtain ⟨old, hold, hopen⟩ := h.waits
    refine ⟨⟨old, getElem?_of_isPrefix (List.prefix_append _ _) hold, hopen⟩, fun k hk => ?_⟩
    simp only [GoMap.lookup_write hwrite] at hk
    split at hk
    · have hlt := (List.getElem?_eq_some_iff.mp hold).1
      have := Option.some.inj hk
      omega
    · exact h.unkeyed k hk
  answer := by
    intro n p call success hcall h
    obtain ⟨old, hold, hopen⟩ := h.waits
    obtain ⟨now, hnow, -, hsignalled⟩ := getElem?_answered hcall success hold
    exact ⟨⟨now, hnow, hsignalled.trans hopen⟩, h.unkeyed⟩

theorem answer_open {call : Call} (hcall : n.calls[q]? = some call)
    (hopen : call.signalled = false) {success : Bool} (h : n.answer q success = some n') :
    success = false := by
  unfold answer at h
  rw [hcall] at h
  simp only at h
  split at h
  next hguard =>
    cases success with
    | false => rfl
    | true => exact absurd (hguard.2 rfl) (by simp [hopen])
  · cases h

end Node

/-- No channel is closed twice, whatever the instance hands out to be applied; and a call whose
channel is open is found under its index unless a later one has been put there. -/
theorem done_channels_close_once {env : Env} {cfg : NodeConfig} {store : Store} {n : Node}
    (hrun : Node.Onward env (Node.newNode env cfg store) n) :
    (∀ raft : Raft, ({ n with raft } : Node).applyCommittedOrPanic env =
      some (({ n with raft } : Node).applyCommitted env)) ∧
    (∀ k q, n.proposals.lookup k = some q →
      ∃ call, n.calls[q]? = some call ∧ call.index = k ∧ call.signalled = false) ∧
    ∀ (q : Nat) (call : Call), n.calls[q]? = some call → call.signalled = false →
      n.proposals.lookup call.index = some q ∨
        ∃ p later, q < p ∧ n.calls[p]? = some later ∧ later.index = call.index := by
  have htallied := (Node.tallied_booked env).onward (fun _ h => Node.newNode_tallied h) hrun
  exact ⟨htallied.applyCommitted, htallied.keyed, htallied.waits⟩

/-- A leader with two proposals that loses its log to another, and proposes once more when it
leads again: the third call is registered where the second was. -/
def comeback : List Node.Occasion :=
  [.serve .tick true,
    .serve (.response
      { type := .requestVoteResp, sender := "a", recipient := "b", term := 1 }) true,
    .serve (.propose [7]) true,
    .serve (.propose [8]) true,
    .serve (.request
      { type := .appendEntries, sender := "a", recipient := "b", term := 2
        entries := [{ index := 1, term := 2 }] }) true,
    .serve .tick true,
    .serve (.response
      { type := .requestVoteResp, sender := "a", recipient := "b", term := 3 }) true,
    .serve (.propose [9]) true]

theorem done_channels_close_once_comeback :
    ∃ n, Node.Onward (mesh ["a", "b", "c"] 1 1).env
        (Node.newNode (mesh ["a", "b", "c"] 1 1).env ballotBox {}) n ∧
      n.proposals.lookup 3 = some 2 ∧
      ∃ call later, n.calls[1]? = some call ∧ call.signalled = false ∧
        n.calls[2]? = some later ∧ later.index = call.index ∧ later.signalled = false := by
  obtain ⟨n, hrun, hkey, call, hcall, hopen⟩ :
      ∃ n, Node.Onward (mesh ["a", "b", "c"] 1 1).env
          (Node.newNode (mesh ["a", "b", "c"] 1 1).env ballotBox {}) n ∧
        n.proposals.lookup 3 = some 2 ∧ ∃ call ∈ n.calls[1]?, call.index = 3 ∧
        call.signalled = false :=
    Reachable.of_any comeback rfl
  obtain ⟨-, hkeyed, -⟩ := done_channels_close_once hrun
  obtain ⟨later, hlater, hindex, hwaits⟩ := hkeyed 3 2 hkey
  exact ⟨n, hrun, hkey, call, later, hcall, hopen.2, hlater, hindex.trans hopen.1.symm, hwaits⟩

/-- A call whose channel has been displaced waits in vain: however the node goes on, all that
can come back to the client is the timeout. -/
theorem displaced_call_times_out {env : Env} {cfg : NodeConfig} {store : Store} {n n' : Node}
    {q : Nat} {call : Call} (hrun : Node.Onward env (Node.newNode env cfg store) n)
    (hcall : n.calls[q]? = some call) (hopen : call.signalled = false)
    (hlost : n.proposals.lookup call.index ≠ some q) (hlater : Node.Onward env (some n) n') :
    ∃ now, n'.calls[q]? = some now ∧ now.signalled = false ∧
      ∀ success n'', n'.answer q success = some n'' → success = false := by
  have htallied := (Node.tallied_booked env).onward (fun _ h => Node.newNode_tallied h) hrun
  have hadrift : n.Adrift q := by
    refine ⟨⟨call, hcall, hopen⟩, fun k hk => ?_⟩
    obtain ⟨found, hfound, hindex, -⟩ := htallied.keyed k q hk
    cases hcall.symm.trans hfound
    exact hlost (hindex ▸ hk)
  have hend : n'.Adrift q := by
    refine (Node.adrift_booked env q).onward (fun _ h => ?_) hlater
    cases h
    exact hadrift
  obtain ⟨now, hnow, hnowOpen⟩ := hend.waits
  exact ⟨now, hnow, hnowOpen, fun _ _ h => Node.answer_open hnow hnowOpen h⟩

/-- The third entry is applied, and the second call still waits. -/
theorem displaced_call_times_out_applied :
    ∃ n n', Node.Onward (mesh ["a", "b", "c"] 1 1).env
        (Node.newNode (mesh ["a", "b", "c"] 1 1).env ballotBox {}) n ∧
      Node.Onward (mesh ["a", "b", "c"] 1 1).env (some n) n' ∧ n'.raft.lastApplied = 3 ∧
      ∃ now, n'.calls[1]? = some now ∧ now.signalled = false ∧
        ∀ success n'', n'.answer 1 success = some n'' → success = false := by
  obtain ⟨n, hrun, ⟨call, hcall, hopen, hlost⟩, hgoes⟩ :
      ∃ n, Node.Onward (mesh ["a", "b", "c"] 1 1).env
          (Node.newNode (mesh ["a", "b", "c"] 1 1).env ballotBox {}) n ∧
        (∃ call ∈ n.calls[1]?, call.signalled = false ∧
          n.proposals.lookup call.index ≠ some 1) ∧
        (runFrom (some n) (Node.meet (mesh ["a", "b", "c"] 1 1).env) (fun _ _ => True)
          [.serve (.response { type := .appendEntriesResp, sender := "a", recipient := "b"
                               term := 3, index := 3 }) true]).any
          (fun n' => decide (n'.raft.lastApplied = 3)) = true :=
    Reachable.of_any comeback rfl
  obtain ⟨n', hlater, happlied⟩ := Reachable.of_any _ hgoes
  exact ⟨n, n', hrun, hlater, happlied,
    displaced_call_times_out hrun hcall hopen hlost hlater⟩

end Phalanx
