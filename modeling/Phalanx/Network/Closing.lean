import Mathlib.Data.List.Count
import Phalanx.Network.Local

/-! What closing a transport does to those who send to it. `Close` shuts the inbox of the
transport and sets its flag; it does not touch the tables of the transports that are linked
to it, and `Send` looks at the sender's own flag only. -/
namespace Phalanx.Network

open Go

section Calls

variable {ι κ : Type}

def Stage.peer : Stage ι → Option ι
  | .resolved peer | .selecting peer _ => some peer
  | _ => none

/-- How many sections a `Send` has left at most. -/
def Stage.left : Stage ι → Nat
  | .called => 5
  | .unclosed => 4
  | .unblocked => 3
  | .resolved _ => 2
  | .selecting _ _ => 1
  | .returned _ | .panicked _ => 0

def Task.peer : Task ι κ → Option ι
  | .send _ stage => stage.peer
  | _ => none

def Task.finds (heap : Heap ι κ) : Task ι κ → Option (SendCall ι κ × ι)
  | .send call .unblocked =>
    ((heap.transports call.transport).peers.lookup call.target).map fun peer => (call, peer)
  | _ => none

def Task.closes : Task ι κ → Option ι
  | .close t => some t
  | _ => none

def Task.shuts : Task ι κ → Option ι
  | .closeInbox t => some t
  | _ => none

def Heap.Waits (heap : Heap ι κ) (call : SendCall ι κ) : Stage ι → Prop
  | .selecting peer _ =>
    (heap.transports peer).inbox.buffer.length = (heap.transports peer).inbox.capacity ∧
      ∃ ctx, call.ctx = some ctx ∧ heap.contexts ctx = none
  | _ => False

/-- The peer is open, and neither the entry nor the context is nil. -/
def Heap.Ready (heap : Heap ι κ) (call : SendCall ι κ) (peer : ι) : Prop :=
  (heap.transports peer).closed = false ∧ call.entry.isSome = true ∧ call.ctx.isSome = true

instance (heap : Heap ι κ) (call : SendCall ι κ) (peer : ι) : Decidable (heap.Ready call peer) :=
  inferInstanceAs (Decidable (_ ∧ _))

/-- Nothing panics where the call is now, nor in the rest of it if the peer stays open. -/
def Heap.Safe (heap : Heap ι κ) : Task ι κ → Prop
  | .send call stage =>
    (∀ fault, stage ≠ .panicked fault) ∧ ∀ peer ∈ stage.peer, heap.Ready call peer
  | .panicked _ => False
  | _ => True

def Heap.Flagged (heap : Heap ι κ) : Prop :=
  ∀ t, (heap.transports t).inbox.closed = true → (heap.transports t).closed = true

def Heap.Steady (heap heap' : Heap ι κ) : Prop :=
  ∀ t, (heap'.transports t).closed = (heap.transports t).closed ∧
    (heap'.transports t).inbox.closed = (heap.transports t).inbox.closed

variable {heap heap' : Heap ι κ} {task : Task ι κ}

theorem Heap.Steady.refl (heap : Heap ι κ) : heap.Steady heap := fun _ => ⟨rfl, rfl⟩

theorem Heap.Safe.of_peer (h : heap.Safe task)
    (hsame : ∀ peer ∈ task.peer,
      (heap'.transports peer).closed = (heap.transports peer).closed) : heap'.Safe task := by
  cases task with
  | send call stage =>
    refine ⟨h.1, fun peer hpeer => ?_⟩
    rw [Ready, hsame peer hpeer]
    exact h.2 peer hpeer
  | _ => exact h

theorem Heap.Flagged.inbox_open (h : heap.Flagged) {t : ι}
    (hopen : (heap.transports t).closed = false) : (heap.transports t).inbox.closed = false := by
  by_contra hclosed
  rw [h t (eq_true_of_ne_false hclosed)] at hopen
  cases hopen

end Calls

namespace Net

variable {ι κ : Type} [DecidableEq ι]

/-- A `Send` that finds its peer finds it open, and has an entry and a context; a `Close`
finds no `Send` between that and its return. -/
def Guarded (net : Net ι κ) : Event ι κ → Prop
  | .run n _ => ∀ task ∈ net.tasks[n]?,
    (∀ found ∈ task.finds net.heap, net.heap.Ready found.1 found.2) ∧
    ∀ t ∈ task.closes, ∀ other ∈ net.tasks, other.peer ≠ some t
  | _ => True

instance (net : Net ι κ) : (e : Event ι κ) → Decidable (net.Guarded e)
  | .run _ _ => inferInstanceAs (Decidable (∀ _ ∈ _, _))
  | .call _ | .done _ _ => inferInstanceAs (Decidable True)

/-- A closed inbox has its flag set, no call panics, and whoever set a flag is alone with the
inbox until it has closed it. -/
structure Sound (net : Net ι κ) : Prop where
  flagged : net.heap.Flagged
  safe : ∀ task ∈ net.tasks, net.heap.Safe task
  closers : ∀ t, net.tasks.countP (·.shuts = some t) =
    if (net.heap.transports t).closed ∧ (net.heap.transports t).inbox.closed = false then 1 else 0

end Net

section Sections

variable {ι κ : Type} [DecidableEq ι] {heap heap' : Heap ι κ} {call : SendCall ι κ}
  {stage stage' : Stage ι} {task task' : Task ι κ} {prefersDone : Bool}

theorem Heap.transports_update (heap : Heap ι κ) (t : ι) (f : LocalTransport ι → LocalTransport ι)
    (i : ι) : (heap.update t f).transports i =
      if i = t then f (heap.transports t) else heap.transports i :=
  Function.update_apply _ _ _ _

theorem Heap.Steady.update {t : ι} {f : LocalTransport ι → LocalTransport ι}
    (hclosed : (f (heap.transports t)).closed = (heap.transports t).closed)
    (hinbox : (f (heap.transports t)).inbox.closed = (heap.transports t).inbox.closed) :
    heap.Steady (heap.update t f) := by
  intro i
  rw [transports_update]
  split
  next heq =>
    subst heq
    exact ⟨hclosed, hinbox⟩
  next => exact ⟨rfl, rfl⟩

/-- What a section of a `Send` can do: get on or return, find the peer, copy the entry, panic,
or put the message into the inbox. -/
inductive SendCall.Move (call : SendCall ι κ) (heap : Heap ι κ) :
    Stage ι → Heap ι κ → Stage ι → Prop
  | goesOn (stage stage' : Stage ι) (hleft : stage'.left < stage.left)
      (hpeer : stage'.peer = none) (hcalm : ∀ fault, stage' ≠ .panicked fault) :
      Move call heap stage heap stage'
  | finds (peer : ι)
      (hpeer : (heap.transports call.transport).peers.lookup call.target = some peer) :
      Move call heap .unblocked heap (.resolved peer)
  | copies (peer : ι) (msg : Message) :
      Move call heap (.resolved peer) heap (.selecting peer msg)
  | panics (stage : Stage ι) (peer : ι) (fault : Fault) (hpeer : stage.peer = some peer)
      (hfault : call.entry = none ∨ call.ctx = none ∨
        (heap.transports peer).inbox.closed = true) :
      Move call heap stage heap (.panicked fault)
  | delivers (peer : ι) (msg : Message) (inbox : Chan Message)
      (hinbox : inbox.closed = (heap.transports peer).inbox.closed) :
      Move call heap (.selecting peer msg) (heap.update peer fun t => { t with inbox })
        (.returned none)

theorem SendCall.next_move (h : call.next heap prefersDone stage = some (heap', stage')) :
    call.Move heap stage heap' stage' := by
  cases stage with
  | called =>
    simp only [next] at h
    split at h <;> cases h <;> exact .goesOn _ _ (by simp [Stage.left]) rfl (by simp)
  | unclosed =>
    simp only [next] at h
    split at h <;> cases h <;> exact .goesOn _ _ (by simp [Stage.left]) rfl (by simp)
  | unblocked =>
    simp only [next] at h
    split at h
    next =>
      cases h
      exact .goesOn _ _ (by simp [Stage.left]) rfl (by simp)
    next peer hpeer =>
      cases h
      exact .finds peer hpeer
  | resolved peer =>
    simp only [next] at h
    split at h
    next hentry =>
      cases h
      exact .panics _ peer _ rfl (.inl hentry)
    next =>
      cases h
      exact .copies peer _
  | selecting peer msg =>
    simp only [next] at h
    split at h
    next hctx =>
      cases h
      exact .panics _ peer _ rfl (.inr (.inl hctx))
    next =>
      split at h
      next => cases h
      next hpanics =>
        cases h
        exact .panics _ peer _ rfl (.inr (.inr (Chan.select_panics hpanics)))
      next inbox hsent =>
        cases h
        exact .delivers peer msg inbox (Chan.select_sent hsent)
      next =>
        cases h
        exact .goesOn _ _ (by simp [Stage.left]) rfl (by simp)
  | _ => cases h

theorem SendCall.next_or_waits (call : SendCall ι κ) (heap : Heap ι κ) (stage : Stage ι) :
    (∃ err, stage = .returned err) ∨ (∃ fault, stage = .panicked fault) ∨
      heap.Waits call stage ∨
      ∀ prefersDone, ∃ heap' stage', call.next heap prefersDone stage = some (heap', stage') := by
  cases stage with
  | returned err => exact .inl ⟨err, rfl⟩
  | panicked fault => exact .inr (.inl ⟨fault, rfl⟩)
  | selecting peer msg =>
    by_cases hwaits : heap.Waits call (.selecting peer msg)
    · exact .inr (.inr (.inl hwaits))
    refine .inr (.inr (.inr fun prefersDone => ?_))
    simp only [next]
    split
    next => exact ⟨_, _, rfl⟩
    next ctx hctx =>
      split
      next hblocks =>
        obtain ⟨-, hfull, hlive⟩ := Chan.select_blocks hblocks
        exact absurd ⟨hfull, ctx, hctx, hlive⟩ hwaits
      all_goals exact ⟨_, _, rfl⟩
  | _ =>
    refine .inr (.inr (.inr fun prefersDone => ?_))
    simp only [next]
    split <;> exact ⟨_, _, rfl⟩

namespace SendCall.Move

theorem left_lt (h : call.Move heap stage heap' stage') : stage'.left < stage.left := by
  cases h with
  | goesOn _ _ hleft => exact hleft
  | panics _ peer fault hpeer =>
    cases stage with
    | resolved | selecting => exact Nat.zero_lt_succ _
    | _ => cases hpeer
  | _ => exact Nat.lt_succ_self _

theorem steady (h : call.Move heap stage heap' stage') : heap.Steady heap' := by
  cases h with
  | delivers peer msg inbox hinbox => exact .update rfl hinbox
  | _ => exact .refl _

theorem safe (h : call.Move heap stage heap' stage') (hsafe : heap.Safe (.send call stage))
    (hflagged : heap.Flagged)
    (hfinds : ∀ found ∈ (Task.send call stage).finds heap, heap.Ready found.1 found.2) :
    heap.Safe (.send call stage') := by
  cases h with
  | goesOn _ _ _ hpeer hcalm =>
    refine ⟨hcalm, ?_⟩
    rw [hpeer]
    exact fun _ hno => nomatch hno
  | finds peer hpeer =>
    refine ⟨by simp, fun p hp => ?_⟩
    cases hp
    exact hfinds (call, peer) (by simp [Task.finds, hpeer])
  | copies peer msg =>
    refine ⟨by simp, fun p hp => ?_⟩
    cases hp
    exact hsafe.2 peer rfl
  | panics _ peer fault hpeer hfault =>
    obtain ⟨hopen, hentry, hctx⟩ := hsafe.2 peer hpeer
    rcases hfault with hnone | hnone | hclosed
    · simp [hnone] at hentry
    · simp [hnone] at hctx
    · rw [hflagged.inbox_open hopen] at hclosed
      cases hclosed
  | delivers => exact ⟨by simp, fun _ hno => nomatch hno⟩

end SendCall.Move

theorem Task.next_cases (h : task.next heap prefersDone = some (heap', task')) :
    heap.Steady heap' ∧ task.shuts = none ∧ task'.shuts = none ∨
    (∃ t, task = .close t ∧ task' = .closeInbox t ∧ (heap.transports t).closed = false ∧
      heap' = heap.update t fun t => { t with closed := true }) ∨
    ∃ t, task = .closeInbox t ∧ ((heap.transports t).inbox.closed = false →
      task' = .closed none ∧ heap' = heap.update t fun t =>
        { t with inbox := { t.inbox with closed := true } }) := by
  cases task with
  | send call stage =>
    obtain ⟨⟨heap₁, stage₁⟩, hnext, heq⟩ := Option.map_eq_some_iff.mp h
    cases heq
    exact .inl ⟨(SendCall.next_move hnext).steady, rfl, rfl⟩
  | receive t =>
    left
    simp only [next] at h
    split at h
    next => cases h
    next =>
      cases h
      exact ⟨.refl _, rfl, rfl⟩
    next msg inbox hvalue =>
      cases h
      exact ⟨.update rfl (Chan.receive_value hvalue), rfl, rfl⟩
  | close t =>
    simp only [next] at h
    split at h
    next =>
      cases h
      exact .inl ⟨.refl _, rfl, rfl⟩
    next hopen =>
      cases h
      exact .inr (.inl ⟨t, rfl, rfl, eq_false_of_ne_true hopen, rfl⟩)
  | closeInbox t =>
    refine .inr (.inr ⟨t, rfl, fun hopen => ?_⟩)
    simp only [next, Chan.close_of_open hopen] at h
    cases h
    exact ⟨rfl, rfl⟩
  | drain t =>
    left
    simp only [next] at h
    split at h
    next msg inbox hvalue =>
      cases h
      exact ⟨.update rfl (Chan.receive_value hvalue), rfl, rfl⟩
    all_goals
      cases h
      exact ⟨.refl _, rfl, rfl⟩
  | returned | received | closed | panicked => cases h
  | _ =>
    cases h
    exact .inl ⟨.update rfl rfl, rfl, rfl⟩

theorem Task.next_safe (hsafe : heap.Safe task) (hflagged : heap.Flagged)
    (hfinds : ∀ found ∈ task.finds heap, heap.Ready found.1 found.2)
    (hopen : ∀ t, task = .closeInbox t → (heap.transports t).inbox.closed = false)
    (h : task.next heap prefersDone = some (heap', task')) : heap.Safe task' := by
  cases task with
  | send call stage =>
    obtain ⟨⟨heap₁, stage₁⟩, hnext, heq⟩ := Option.map_eq_some_iff.mp h
    cases heq
    exact (SendCall.next_move hnext).safe hsafe hflagged hfinds
  | receive t =>
    simp only [next] at h
    split at h <;> cases h <;> trivial
  | close t =>
    simp only [next] at h
    split at h <;> cases h <;> trivial
  | closeInbox t =>
    simp only [next, Chan.close_of_open (hopen t rfl)] at h
    cases h
    trivial
  | drain t =>
    simp only [next] at h
    split at h <;> cases h <;> trivial
  | returned | received | closed | panicked => cases h
  | _ =>
    cases h
    trivial

end Sections

namespace Net

variable {ι κ : Type} [DecidableEq ι] {net net' : Net ι κ} {heap : Heap ι κ}
  {task task' : Task ι κ} {n : Nat} {t : ι}

theorem countP_shuts_set (hn : net.tasks[n]? = some task) (t : ι) :
    (net.tasks.set n task').countP (·.shuts = some t) =
      (net.tasks.countP (·.shuts = some t) - if task.shuts = some t then 1 else 0) +
        if task'.shuts = some t then 1 else 0 := by
  obtain ⟨hlt, rfl⟩ := List.getElem?_eq_some_iff.mp hn
  rw [List.countP_set hlt]
  simp only [decide_eq_true_eq]

namespace Sound

theorem shutting (h : net.Sound) (hmem : task ∈ net.tasks) (hshuts : task.shuts = some t) :
    (net.heap.transports t).closed = true ∧ (net.heap.transports t).inbox.closed = false := by
  by_contra hno
  have hcount := h.closers t
  rw [if_neg hno] at hcount
  have hpos : 0 < net.tasks.countP (·.shuts = some t) :=
    List.countP_pos_iff.mpr ⟨task, hmem, decide_eq_true hshuts⟩
  omega

theorem safe_set (h : net.Sound) (hsafe : net.heap.Safe task')
    (hsame : ∀ other, other ∈ net.tasks ∨ other = task' → ∀ peer ∈ other.peer,
      (heap.transports peer).closed = (net.heap.transports peer).closed) :
    ∀ other ∈ net.tasks.set n task', heap.Safe other := by
  intro other hother
  have hcases := List.mem_or_eq_of_mem_set hother
  refine Heap.Safe.of_peer ?_ (hsame other hcases)
  rcases hcases with hmem | rfl
  · exact h.safe other hmem
  · exact hsafe

theorem steady (h : net.Sound) (hn : net.tasks[n]? = some task) (hsafe : net.heap.Safe task')
    (hsteady : net.heap.Steady heap) (hshuts : task.shuts = none) (hshuts' : task'.shuts = none) :
    Sound { heap, tasks := net.tasks.set n task' } where
  flagged := by
    intro t
    rw [(hsteady t).1, (hsteady t).2]
    exact h.flagged t
  safe := h.safe_set hsafe fun _ _ peer _ => (hsteady peer).1
  closers := by
    intro t
    rw [countP_shuts_set hn, hshuts, hshuts', (hsteady t).1, (hsteady t).2, h.closers t]
    simp

theorem marked (h : net.Sound) (hn : net.tasks[n]? = some (.close t))
    (hopen : (net.heap.transports t).closed = false)
    (hunheld : ∀ other ∈ net.tasks, other.peer ≠ some t) :
    Sound
      { heap := net.heap.update t fun t => { t with closed := true }
        tasks := net.tasks.set n (.closeInbox t) } where
  flagged := by
    intro i
    simp only [Heap.transports_update]
    split
    · exact fun _ => rfl
    · exact h.flagged i
  safe := by
    refine h.safe_set trivial fun other hother peer hpeer => ?_
    rw [Heap.transports_update, if_neg]
    rintro rfl
    rcases hother with hmem | rfl
    · exact hunheld other hmem hpeer
    · cases hpeer
  closers := by
    intro i
    rw [countP_shuts_set hn, h.closers i]
    simp only [Heap.transports_update, Task.shuts, reduceCtorEq, if_false, Option.some.injEq,
      Nat.sub_zero]
    by_cases heq : i = t
    · subst heq
      simp [hopen, h.flagged.inbox_open hopen]
    · rw [if_neg heq, if_neg (Ne.symm heq), Nat.add_zero]

theorem shut (h : net.Sound) (hn : net.tasks[n]? = some (.closeInbox t)) :
    Sound
      { heap := net.heap.update t fun t => { t with inbox := { t.inbox with closed := true } }
        tasks := net.tasks.set n (.closed none) } where
  flagged := by
    intro i
    simp only [Heap.transports_update]
    split
    · exact fun _ => (h.shutting (List.mem_of_getElem? hn) rfl).1
    · exact h.flagged i
  safe := by
    refine h.safe_set trivial fun other _ peer _ => ?_
    rw [Heap.transports_update]
    split
    next heq => rw [heq]
    next => rfl
  closers := by
    intro i
    rw [countP_shuts_set hn, h.closers i]
    simp only [Heap.transports_update, Task.shuts, reduceCtorEq, if_false, Option.some.injEq,
      Nat.add_zero]
    by_cases heq : i = t
    · subst heq
      simp [h.shutting (List.mem_of_getElem? hn) rfl]
    · rw [if_neg heq, if_neg (Ne.symm heq), Nat.sub_zero]

theorem call (h : net.Sound) (hfresh : task.fresh = true) :
    Sound { net with tasks := net.tasks ++ [task] } where
  flagged := h.flagged
  safe := by
    intro other hother
    rcases List.mem_append.mp hother with hmem | hmem
    · exact h.safe other hmem
    · rw [List.mem_singleton.mp hmem]
      cases task with
      | send call stage =>
        cases stage with
        | called => exact ⟨by simp, fun _ hno => nomatch hno⟩
        | _ => cases hfresh
      | panicked => cases hfresh
      | _ => trivial
  closers := by
    intro t
    have hshuts : task.shuts = none := by
      cases task with
      | closeInbox => cases hfresh
      | _ => rfl
    simp [h.closers t, hshuts]

variable [DecidableEq κ]

theorem run {prefersDone : Bool} (h : net.Sound) (hguard : net.Guarded (.run n prefersDone))
    (hstep : net.step (.run n prefersDone) = some net') : net'.Sound := by
  obtain ⟨task, hn, hmap⟩ := Option.bind_eq_some_iff.mp hstep
  obtain ⟨⟨heap', task'⟩, hnext, rfl⟩ := Option.map_eq_some_iff.mp hmap
  obtain ⟨hfinds, hcloses⟩ := hguard task hn
  have hmem := List.mem_of_getElem? hn
  have hopen : ∀ t, task = .closeInbox t → (net.heap.transports t).inbox.closed = false :=
    fun t heq => (h.shutting hmem (heq ▸ rfl)).2
  rcases Task.next_cases hnext with ⟨hsteady, hshuts, hshuts'⟩ | ⟨t, rfl, rfl, hunmarked, rfl⟩ |
    ⟨t, rfl, hshut⟩
  · exact h.steady hn (Task.next_safe (h.safe task hmem) h.flagged hfinds hopen hnext) hsteady
      hshuts hshuts'
  · exact h.marked hn hunmarked (hcloses t rfl)
  · obtain ⟨rfl, rfl⟩ := hshut (hopen t rfl)
    exact h.shut hn

theorem step {e : Event ι κ} (h : net.Sound) (hguard : net.Guarded e)
    (hstep : net.step e = some net') : net'.Sound := by
  cases e with
  | call task =>
    simp only [Net.step] at hstep
    split at hstep
    next hfresh =>
      cases hstep
      exact h.call hfresh
    next => cases hstep
  | run n prefersDone => exact h.run hguard hstep
  | done ctx err =>
    simp only [Net.step] at hstep
    split at hstep
    next =>
      cases hstep
      exact ⟨h.flagged, fun task hmem => (h.safe task hmem).of_peer fun _ _ => rfl, h.closers⟩
    next => cases hstep

end Sound

theorem Run.sound [DecidableEq κ] {addr : ι → String} (hrun : Run addr Guarded net) :
    net.Sound := by
  induction hrun with
  | start h =>
    cases h
    exact ⟨fun _ hno => Bool.noConfusion hno, fun _ hno => absurd hno List.not_mem_nil,
      fun _ => rfl⟩
  | step _ hguard hstep ih => exact ih.step hguard hstep

end Net

/-- In the runs where every `Send` finds its peer open, and no peer is closed before the
`Send` that found it returns, no call panics; a `Send` returns within five sections, but for
waiting at its select as long as the inbox is full and the context is not done. -/
theorem send_never_crashes {ι κ : Type} [DecidableEq ι] [DecidableEq κ] {addr : ι → String}
    {net : Net ι κ} {n : Nat} {call : SendCall ι κ} {stage : Stage ι}
    (hrun : Net.Run addr Net.Guarded net) (hcall : net.tasks[n]? = some (.send call stage)) :
    (∀ task ∈ net.tasks, ∀ fault, task ≠ .panicked fault) ∧ (∀ fault, stage ≠ .panicked fault) ∧
      (∀ peer msg, stage = .selecting peer msg →
        (net.heap.transports peer).inbox.closed = false) ∧
      ((∃ err, stage = .returned err) ∨ net.heap.Waits call stage ∨
        ∀ prefersDone, ∃ net' stage', net.step (.run n prefersDone) = some net' ∧
          net'.tasks[n]? = some (.send call stage') ∧ stage'.left < stage.left) := by
  have hsound := hrun.sound
  obtain ⟨hcalm, hpeer⟩ := hsound.safe _ (List.mem_of_getElem? hcall)
  refine ⟨?_, hcalm, ?_, ?_⟩
  · rintro task hmem fault rfl
    exact hsound.safe _ hmem
  · rintro peer msg rfl
    exact hsound.flagged.inbox_open (hpeer peer rfl).1
  · rcases call.next_or_waits net.heap stage with hreturned | ⟨fault, hpanicked⟩ | hwaits | hnext
    · exact .inl hreturned
    · exact absurd hpanicked (hcalm fault)
    · exact .inr (.inl hwaits)
    · refine .inr (.inr fun prefersDone => ?_)
      obtain ⟨heap', stage', hnext⟩ := hnext prefersDone
      obtain ⟨hlt, -⟩ := List.getElem?_eq_some_iff.mp hcall
      refine ⟨{ heap := heap', tasks := net.tasks.set n (.send call stage') }, stage', ?_,
        List.getElem?_set_self hlt, (SendCall.next_move hnext).left_lt⟩
      simp [Net.step, hcall, Task.next, hnext]

/-- A transport that sends, is disconnected, and sends again after its peer was closed. -/
theorem send_never_crashes_disconnected :
    ∃ (net net' : Net (Fin 2) Unit) (stage' : Stage (Fin 2)),
      Net.Run (fun t => if t = 0 then "a" else "b") Net.Guarded net ∧
      net.tasks[1]? = some (.send ⟨0, some (), "b", some sentinel⟩ (.returned none)) ∧
      (net.heap.transports 1).closed = true ∧
      net.step (.run 4 false) = some net' ∧
      net'.tasks[4]? = some (.send ⟨0, some (), "b", some sentinel⟩ stage') ∧ stage'.left < 3 := by
  obtain ⟨net, hrun, hfirst, hclosed, hcall⟩ :
      ∃ net : Net (Fin 2) Unit, Net.Run (fun t => if t = 0 then "a" else "b") Net.Guarded net ∧
        net.tasks[1]? = some (.send ⟨0, some (), "b", some sentinel⟩ (.returned none)) ∧
        (net.heap.transports 1).closed = true ∧
        net.tasks[4]? = some (.send ⟨0, some (), "b", some sentinel⟩ .unblocked) :=
    Reachable.of_any
      [.call (.connect 0 1), .run 0 false, .run 0 false,
        .call (.send ⟨0, some (), "b", some sentinel⟩ .called),
        .run 1 false, .run 1 false, .run 1 false, .run 1 false, .run 1 false,
        .call (.disconnect 0 1), .run 2 false, .run 2 false,
        .call (.close 1), .run 3 false, .run 3 false,
        .call (.send ⟨0, some (), "b", some sentinel⟩ .called), .run 4 false, .run 4 false] rfl
  obtain ⟨-, -, -, ⟨_, hno⟩ | hno | hnext⟩ := send_never_crashes hrun hcall
  · cases hno
  · cases hno
  · obtain ⟨net', stage', hstep, hcall', hleft⟩ := hnext false
    exact ⟨net, net', stage', hrun, hfirst, hclosed, hstep, hcall', hleft⟩

/-- The link outlives the peer: a `Send` after the peer's `Close` panics. -/
theorem send_to_closed_peer_panics :
    ∃ net : Net (Fin 2) Unit,
      Net.Run (fun t => if t = 0 then "a" else "b") (fun _ _ => True) net ∧
      (net.heap.transports 0).closed = false ∧
      net.tasks[2]? = some (.send ⟨0, some (), "b", some sentinel⟩
        (.panicked .sendOnClosedChannel)) :=
  Reachable.of_any
    [.call (.connect 0 1), .run 0 false, .run 0 false,
      .call (.close 1), .run 1 false, .run 1 false,
      .call (.send ⟨0, some (), "b", some sentinel⟩ .called),
      .run 2 false, .run 2 false, .run 2 false, .run 2 false, .run 2 false] rfl

end Phalanx.Network
