import Phalanx.Network.Conns

/-! What holds of the client connections however calls overlap. The double check in `getConn`
keeps a target from being dialled twice, and the flag of `Close` lets one call close what there
is; a connection that is dialled later is nobody's to close. -/
namespace Phalanx.Network

open Go

variable {t t' : GRPCTransport} {task task' : ConnTask} {target : String} {conn n : Nat}
variable {chance : Chance} {d d' : Dialer}

def GetConn.hold : GetConn → Hold
  | .looking | .found _ | .missed => .read
  | .checking | .dialing | .storing _ | .leaving _ => .write
  | _ => .none

def CloseAll.hold : CloseAll → Hold
  | .sweeping | .dropping _ | .leaving => .write
  | _ => .none

def ConnTask.hold : ConnTask → Hold
  | .getConn _ stage => stage.hold
  | .close stage => stage.hold

def CloseAll.shuts : CloseAll → Bool
  | .stopping | .locking | .sweeping | .dropping _ => true
  | _ => false

def ConnTask.shuts : ConnTask → Bool
  | .getConn _ _ => false
  | .close stage => stage.shuts

/-- The call is about to change the map or to close a connection. -/
def ConnTask.alters : ConnTask → Bool
  | .getConn _ (.storing _) => true
  | .close .sweeping => true
  | .close (.dropping _) => true
  | _ => false

def GRPCTransport.Leads (t : GRPCTransport) (target : String) (conn : Nat) : Prop :=
  ∃ l, t.dialed[conn]? = some l ∧ l.target = target

/-- What a call may rely on. -/
def GRPCTransport.Fits (t : GRPCTransport) : ConnTask → Prop
  | .getConn target (.found conn) => t.Leads target conn
  | .getConn target .dialing => t.conns.lookup target = none
  | .getConn target (.storing conn) => t.conns.lookup target = none ∧
      ∃ l, t.dialed[conn]? = some l ∧ l.target = target ∧ l.isOpen = true
  | .getConn target (.leaving (.ok conn)) => t.Leads target conn
  | .getConn target (.returned (.ok conn)) => t.Leads target conn
  | .close (.dropping addr) => ∃ conn l, t.conns.lookup addr = some conn ∧
      t.dialed[conn]? = some l ∧ l.isOpen = false
  | _ => True

/-- What an operation of a call does. A quiet one changes the mutex at most. -/
inductive ConnTask.Move (t : GRPCTransport) : ConnTask → GRPCTransport → ConnTask → Prop
  | quiet {task task' : ConnTask} {mu : RWMutex}
      (hguards : ∀ holds n, t.mu.Guards holds → holds[n]? = some task.hold →
        mu.Guards (holds.set n task'.hold))
      (hfits : (∀ target conn, t.conns.lookup target = some conn → t.Leads target conn) →
        t.Fits task → t.Fits task')
      (hshuts : task'.shuts = task.shuts) (halters : task.alters = false) :
      Move t task { t with mu } task'
  | flag (hopen : t.closed = false) :
      Move t (.close .called) { t with closed := true } (.close .stopping)
  | dial (target : String) :
      Move t (.getConn target .dialing)
        { t with dialed := t.dialed ++ [{ target, isOpen := true, late := t.swept }] }
        (.getConn target (.storing t.dialed.length))
  | store (target : String) (conn : Nat) :
      Move t (.getConn target (.storing conn)) { t with conns := t.conns.insert target conn }
        (.getConn target (.leaving (.ok conn)))
  | finish (hempty : t.conns = ∅) :
      Move t (.close .sweeping) { t with swept := true } (.close .leaving)
  | shut {addr : String} {conn : Nat} (hconn : t.conns.lookup addr = some conn) :
      Move t (.close .sweeping)
        { t with dialed := t.dialed.modify conn fun l => { l with isOpen := false } }
        (.close (.dropping addr))
  | drop (addr : String) :
      Move t (.close (.dropping addr)) { t with conns := t.conns.erase addr } (.close .sweeping)

theorem ConnTask.Move.look (hhold : task'.hold = task.hold)
    (hfits : (∀ target conn, t.conns.lookup target = some conn → t.Leads target conn) →
      t.Fits task → t.Fits task')
    (hshuts : task'.shuts = task.shuts) (halters : task.alters = false) : Move t task t task' := by
  refine .quiet (fun holds n hguards hn => ?_) hfits hshuts halters
  obtain ⟨hlt, hget⟩ := List.getElem?_eq_some_iff.mp hn
  rw [hhold, ← hget, List.set_getElem_self]
  exact hguards

theorem GetConn.next_move {stage stage' : GetConn}
    (h : stage.next t target chance = some (t', stage')) :
    ConnTask.Move t (.getConn target stage) t' (.getConn target stage') := by
  cases stage with
  | called =>
    obtain ⟨mu, hmu, h⟩ := Option.map_eq_some_iff.mp h
    cases h
    exact .quiet (fun _ _ hguards hn => hguards.rlock hn hmu) (fun _ _ => trivial) rfl rfl
  | looking =>
    simp only [next] at h
    split at h
    next conn hconn =>
      cases h
      exact .look rfl (fun hleads _ => hleads target conn hconn) rfl rfl
    next =>
      cases h
      exact .look rfl (fun _ _ => trivial) rfl rfl
  | found conn =>
    obtain ⟨mu, hmu, h⟩ := Option.map_eq_some_iff.mp h
    cases h
    exact .quiet (fun _ _ hguards hn => hguards.runlock hn hmu) (fun _ hleads => hleads) rfl rfl
  | missed =>
    obtain ⟨mu, hmu, h⟩ := Option.map_eq_some_iff.mp h
    cases h
    exact .quiet (fun _ _ hguards hn => hguards.runlock hn hmu) (fun _ _ => trivial) rfl rfl
  | upgrading =>
    obtain ⟨mu, hmu, h⟩ := Option.map_eq_some_iff.mp h
    cases h
    exact .quiet (fun _ _ hguards hn => hguards.lock hn hmu) (fun _ _ => trivial) rfl rfl
  | checking =>
    simp only [next] at h
    split at h
    next conn hconn =>
      cases h
      exact .look rfl (fun hleads _ => hleads target conn hconn) rfl rfl
    next hnone =>
      cases h
      exact .look rfl (fun _ _ => hnone) rfl rfl
  | dialing =>
    simp only [next] at h
    split at h
    · cases h
      exact .look rfl (fun _ _ => trivial) rfl rfl
    · cases h
      exact .dial target
  | storing conn =>
    cases h
    exact .store target conn
  | leaving result =>
    obtain ⟨mu, hmu, h⟩ := Option.map_eq_some_iff.mp h
    cases h
    refine .quiet (fun _ _ hguards hn => hguards.unlock hn hmu) (fun _ hfits => ?_) rfl rfl
    cases result <;> exact hfits
  | returned => cases h

theorem CloseAll.next_move {stage stage' : CloseAll}
    (h : stage.next t chance = some (t', stage')) :
    ConnTask.Move t (.close stage) t' (.close stage') := by
  cases stage with
  | called =>
    simp only [next] at h
    split at h
    · cases h
      exact .look rfl (fun _ _ => trivial) rfl rfl
    next hopen =>
      cases h
      exact .flag (eq_false_of_ne_true hopen)
  | stopping =>
    cases h
    exact .look rfl (fun _ _ => trivial) rfl rfl
  | locking =>
    obtain ⟨mu, hmu, h⟩ := Option.map_eq_some_iff.mp h
    cases h
    exact .quiet (fun _ _ hguards hn => hguards.lock hn hmu) (fun _ _ => trivial) rfl rfl
  | sweeping =>
    simp only [next] at h
    split at h
    next hempty =>
      cases h
      exact .finish hempty
    next =>
      obtain ⟨conn, hconn, h⟩ := Option.bind_eq_some_iff.mp h
      cases h
      exact .shut hconn
  | dropping addr =>
    cases h
    exact .drop addr
  | leaving =>
    obtain ⟨mu, hmu, h⟩ := Option.map_eq_some_iff.mp h
    cases h
    exact .quiet (fun _ _ hguards hn => hguards.unlock hn hmu) (fun _ _ => trivial) rfl rfl
  | returned => cases h

theorem ConnTask.next_move (h : task.next t chance = some (t', task')) :
    ConnTask.Move t task t' task' := by
  cases task with
  | getConn target stage =>
    obtain ⟨⟨_, _⟩, hnext, h⟩ := Option.map_eq_some_iff.mp h
    cases h
    exact GetConn.next_move hnext
  | close stage =>
    obtain ⟨⟨_, _⟩, hnext, h⟩ := Option.map_eq_some_iff.mp h
    cases h
    exact CloseAll.next_move hnext

theorem ConnTask.alters_of_sweeps (hshuts : task.shuts = true) (hwrite : task.hold = .write) :
    task.alters = true := by
  cases task with
  | getConn _ _ => cases hshuts
  | close stage =>
    cases stage with
    | sweeping => rfl
    | dropping _ => rfl
    | leaving => cases hshuts
    | _ => cases hwrite

namespace Dialer

/-- At most one call closes connections, and the map has the open ones, each under its target. -/
structure Sound (d : Dialer) : Prop where
  guards : d.transport.mu.Guards (d.tasks.map ConnTask.hold)
  fits : ∀ task ∈ d.tasks, d.transport.Fits task
  cached : ∀ target conn, d.transport.conns.lookup target = some conn →
    ∃ l, d.transport.dialed[conn]? = some l ∧ l.target = target ∧
      (l.isOpen = false → .close (.dropping target) ∈ d.tasks)
  opened : ∀ (conn : Nat) (l : ClientConn), d.transport.dialed[conn]? = some l →
    l.isOpen = true → d.transport.conns.lookup l.target = some conn ∨
      .getConn l.target (.storing conn) ∈ d.tasks
  shutting : d.tasks.countP ConnTask.shuts + d.transport.swept.toNat = d.transport.closed.toNat
  late : ∀ (conn : Nat) (l : ClientConn), d.transport.dialed[conn]? = some l → l.late = true →
    l.isOpen = true ∧ d.transport.swept = true
  early : d.transport.swept = true → ∀ (conn : Nat) (l : ClientConn),
    d.transport.dialed[conn]? = some l → l.late = false → l.isOpen = false
  shut : ∀ (conn : Nat) (l : ClientConn), d.transport.dialed[conn]? = some l →
    l.isOpen = false →
    d.transport.swept = true ∨ ∃ task ∈ d.tasks, task.shuts = true ∧ task.hold = .write
  unique : ∀ (conn conn' : Nat) (l l' : ClientConn), d.transport.dialed[conn]? = some l →
    d.transport.dialed[conn']? = some l' → l.target = l'.target → l.late = l'.late → conn = conn'

theorem start_sound : Sound start where
  guards := .empty
  fits := fun _ h => by cases h
  cached := fun _ _ h => by cases h
  opened := fun _ _ h => by cases h
  shutting := rfl
  late := fun _ _ h => by cases h
  early := fun h => by cases h
  shut := fun _ _ h => by cases h
  unique := fun _ _ _ _ h => by cases h

theorem mem_set (hn : d.tasks[n]? = some task) {other : ConnTask} (h : other ∈ d.tasks)
    (hne : other ≠ task) : other ∈ d.tasks.set n task' := by
  obtain ⟨k, hk⟩ := List.getElem?_of_mem h
  refine List.mem_of_getElem? (i := k) ?_
  rw [List.getElem?_set_ne, hk]
  rintro rfl
  cases hk.symm.trans hn
  exact hne rfl

theorem mem_of_set {other : ConnTask} (h : other ∈ d.tasks.set n task') :
    other = task' ∨ ∃ k, k ≠ n ∧ d.tasks[k]? = some other := by
  obtain ⟨k, hk⟩ := List.getElem?_of_mem h
  by_cases hkn : k = n
  · subst hkn
    rw [List.getElem?_set_self'] at hk
    obtain ⟨_, -, rfl⟩ := Option.map_eq_some_iff.mp hk
    exact .inl rfl
  · rw [List.getElem?_set_ne (Ne.symm hkn)] at hk
    exact .inr ⟨k, hkn, hk⟩

theorem countP_set (hn : d.tasks[n]? = some task) (task' : ConnTask) :
    (d.tasks.set n task').countP ConnTask.shuts + task.shuts.toNat =
      d.tasks.countP ConnTask.shuts + task'.shuts.toNat := by
  obtain ⟨hlt, hget⟩ := List.getElem?_eq_some_iff.mp hn
  rw [List.countP_set hlt, hget]
  cases hshuts : task.shuts with
  | false => cases task'.shuts <;> simp
  | true =>
    have hpos : 0 < d.tasks.countP ConnTask.shuts :=
      List.countP_pos_iff.mpr ⟨task, List.mem_of_getElem? hn, hshuts⟩
    cases task'.shuts <;> simp <;> omega

namespace Sound

theorem hold (hn : d.tasks[n]? = some task) :
    (d.tasks.map ConnTask.hold)[n]? = some task.hold := by
  rw [List.getElem?_map, hn, Option.map_some]

theorem alone (h : d.Sound) (hn : d.tasks[n]? = some task) (hwrite : task.hold = .write)
    {k : Nat} {other : ConnTask} (hk : d.tasks[k]? = some other) (hkn : k ≠ n) :
    other.hold = .none :=
  h.guards.alone (hwrite ▸ hold hn) (hold hk) hkn

theorem only (h : d.Sound) (hn : d.tasks[n]? = some task) (hwrite : task.hold = .write)
    {other : ConnTask} (hmem : other ∈ d.tasks) (hother : other.hold ≠ .none) : other = task := by
  obtain ⟨k, hk⟩ := List.getElem?_of_mem hmem
  by_cases hkn : k = n
  · subst hkn
    cases hk.symm.trans hn
    rfl
  · exact absurd (h.alone hn hwrite hk hkn) hother

theorem leads (h : d.Sound) : ∀ target conn, d.transport.conns.lookup target = some conn →
    d.transport.Leads target conn := by
  intro target conn hconn
  obtain ⟨l, hl, htarget, -⟩ := h.cached target conn hconn
  exact ⟨l, hl, htarget⟩

theorem not_swept (h : d.Sound) (hmem : task ∈ d.tasks) (hshuts : task.shuts = true) :
    d.transport.swept = false := by
  have hpos : 0 < d.tasks.countP ConnTask.shuts := List.countP_pos_iff.mpr ⟨task, hmem, hshuts⟩
  have hcount := h.shutting
  cases hswept : d.transport.swept with
  | false => rfl
  | true =>
    rw [hswept] at hcount
    have := Bool.toNat_le d.transport.closed
    simp only [Bool.toNat_true] at hcount
    omega

theorem guards_set (h : d.Sound) (hn : d.tasks[n]? = some task) {mu : RWMutex}
    (hguards : ∀ holds n, d.transport.mu.Guards holds → holds[n]? = some task.hold →
      mu.Guards (holds.set n task'.hold)) :
    mu.Guards ((d.tasks.set n task').map ConnTask.hold) := by
  rw [List.map_set]
  exact hguards _ n h.guards (hold hn)

theorem guards_same (h : d.Sound) (hn : d.tasks[n]? = some task) (hhold : task'.hold = task.hold) :
    d.transport.mu.Guards ((d.tasks.set n task').map ConnTask.hold) := by
  obtain ⟨hlt, hget⟩ := List.getElem?_eq_some_iff.mp (hold hn)
  rw [List.map_set, hhold, ← hget, List.set_getElem_self]
  exact h.guards

theorem fits_set (h : d.Sound) (hn : d.tasks[n]? = some task) (hwrite : task.hold = .write)
    (hleads : ∀ target conn, d.transport.Leads target conn → t'.Leads target conn)
    (hfits : t'.Fits task') : ∀ other ∈ d.tasks.set n task', t'.Fits other := by
  intro other hother
  rcases mem_of_set hother with rfl | ⟨k, hkn, hk⟩
  · exact hfits
  · have hnone := h.alone hn hwrite hk hkn
    have hold := h.fits other (List.mem_of_getElem? hk)
    cases other with
    | getConn target stage =>
      cases stage with
      | returned result =>
        cases result with
        | error _ => trivial
        | ok conn => exact hleads target conn hold
      | called => trivial
      | upgrading => trivial
      | _ => cases hnone
    | close stage =>
      cases stage with
      | dropping addr => cases hnone
      | _ => trivial

theorem shutting_set (h : d.Sound) (hn : d.tasks[n]? = some task) (task' : ConnTask) :
    (d.tasks.set n task').countP ConnTask.shuts + task.shuts.toNat + d.transport.swept.toNat =
      d.transport.closed.toNat + task'.shuts.toNat := by
  have hcount := h.shutting
  have hset := countP_set hn task'
  omega

theorem shutting_same (h : d.Sound) (hn : d.tasks[n]? = some task)
    (hshuts : task'.shuts = task.shuts) :
    (d.tasks.set n task').countP ConnTask.shuts + d.transport.swept.toNat =
      d.transport.closed.toNat := by
  have hset := h.shutting_set hn task'
  rw [hshuts] at hset
  omega

theorem quiet (h : d.Sound) (hn : d.tasks[n]? = some task) {mu : RWMutex}
    (hguards : ∀ holds n, d.transport.mu.Guards holds → holds[n]? = some task.hold →
      mu.Guards (holds.set n task'.hold))
    (hfits : d.transport.Fits task → d.transport.Fits task')
    (hshuts : task'.shuts = task.shuts) (halters : task.alters = false) :
    Sound { transport := { d.transport with mu }, tasks := d.tasks.set n task' } where
  guards := h.guards_set hn hguards
  fits := by
    have hsame : ∀ other, d.transport.Fits other →
        GRPCTransport.Fits { d.transport with mu } other := fun other hother => hother
    intro other hother
    rcases mem_of_set hother with rfl | ⟨k, -, hk⟩
    · exact hsame _ (hfits (h.fits task (List.mem_of_getElem? hn)))
    · exact hsame _ (h.fits other (List.mem_of_getElem? hk))
  cached := by
    intro target conn hconn
    obtain ⟨l, hl, htarget, hclosed⟩ := h.cached target conn hconn
    refine ⟨l, hl, htarget, fun hno => mem_set hn (hclosed hno) ?_⟩
    rintro rfl
    cases halters
  opened := by
    intro conn l hl hopen
    refine (h.opened conn l hl hopen).imp id fun hstoring => mem_set hn hstoring ?_
    rintro rfl
    cases halters
  shutting := h.shutting_same hn hshuts
  late := h.late
  early := h.early
  shut := by
    intro conn l hl hclosed
    refine (h.shut conn l hl hclosed).imp id fun ⟨other, hother, hsweeps⟩ => ?_
    refine ⟨other, mem_set hn hother ?_, hsweeps⟩
    rintro rfl
    cases halters.symm.trans (ConnTask.alters_of_sweeps hsweeps.1 hsweeps.2)
  unique := h.unique

theorem flag (h : d.Sound) (hn : d.tasks[n]? = some (.close .called))
    (hopen : d.transport.closed = false) :
    Sound { transport := { d.transport with closed := true }
            tasks := d.tasks.set n (.close .stopping) } where
  guards := h.guards_same hn rfl
  fits := by
    intro other hother
    rcases mem_of_set hother with rfl | ⟨k, -, hk⟩
    · trivial
    · exact h.fits other (List.mem_of_getElem? hk)
  cached := by
    intro target conn hconn
    obtain ⟨l, hl, htarget, hclosed⟩ := h.cached target conn hconn
    exact ⟨l, hl, htarget, fun hno => mem_set hn (hclosed hno) nofun⟩
  opened := fun conn l hl hisOpen =>
    (h.opened conn l hl hisOpen).imp id fun hstoring => mem_set hn hstoring nofun
  shutting := by
    have hset := h.shutting_set hn (.close .stopping)
    rw [hopen] at hset
    exact hset
  late := h.late
  early := h.early
  shut := by
    intro conn l hl hclosed
    refine (h.shut conn l hl hclosed).imp id fun ⟨other, hother, hsweeps⟩ => ?_
    refine ⟨other, mem_set hn hother ?_, hsweeps⟩
    rintro rfl
    cases hsweeps.1
  unique := h.unique

theorem dialing_closed (h : d.Sound) (hn : d.tasks[n]? = some (.getConn target .dialing))
    {l : ClientConn} (hl : d.transport.dialed[conn]? = some l) (htarget : l.target = target) :
    l.isOpen = false := by
  rw [← Bool.not_eq_true]
  intro hopen
  rcases h.opened conn l hl hopen with hconn | hstoring
  · have hnone := h.fits _ (List.mem_of_getElem? hn)
    rw [htarget] at hconn
    cases hnone.symm.trans hconn
  · cases h.only hn rfl hstoring nofun

theorem dialed_cases {dialed : List ClientConn} {l new : ClientConn}
    (h : (dialed ++ [new])[conn]? = some l) :
    dialed[conn]? = some l ∨ conn = dialed.length ∧ l = new := by
  rcases Nat.lt_or_ge conn dialed.length with hlt | hge
  · exact .inl (by rwa [List.getElem?_append_left hlt] at h)
  · rw [List.getElem?_append_right hge, List.getElem?_singleton] at h
    split at h
    · cases h
      exact .inr ⟨by omega, rfl⟩
    · cases h

theorem dialed_before {dialed : List ClientConn} {l new : ClientConn}
    (h : dialed[conn]? = some l) : (dialed ++ [new])[conn]? = some l := by
  rw [List.getElem?_append_left (List.getElem?_eq_some_iff.mp h).1, h]

theorem dial (h : d.Sound) (hn : d.tasks[n]? = some (.getConn target .dialing)) :
    Sound
      { transport :=
          { d.transport with
            dialed := d.transport.dialed ++
              [{ target, isOpen := true, late := d.transport.swept }] }
        tasks := d.tasks.set n (.getConn target (.storing d.transport.dialed.length)) } where
  guards := h.guards_same hn rfl
  fits := by
    refine h.fits_set hn rfl ?_ ?_
    · rintro other conn ⟨l, hl, htarget⟩
      exact ⟨l, dialed_before hl, htarget⟩
    · have hnone := h.fits _ (List.mem_of_getElem? hn)
      exact ⟨hnone, _, List.getElem?_concat_length, rfl, rfl⟩
  cached := by
    intro other conn hconn
    obtain ⟨l, hl, htarget, hclosed⟩ := h.cached other conn hconn
    exact ⟨l, dialed_before hl, htarget, fun hno => mem_set hn (hclosed hno) nofun⟩
  opened := by
    intro conn l hl hopen
    rcases dialed_cases hl with hl | ⟨rfl, rfl⟩
    · exact (h.opened conn l hl hopen).imp id fun hstoring => mem_set hn hstoring nofun
    · exact .inr (List.mem_set (List.getElem?_eq_some_iff.mp hn).1 _)
  shutting := h.shutting_same hn rfl
  late := by
    intro conn l hl hlate
    rcases dialed_cases hl with hl | ⟨rfl, rfl⟩
    · exact h.late conn l hl hlate
    · exact ⟨rfl, hlate⟩
  early := by
    intro hswept conn l hl hlate
    rcases dialed_cases hl with hl | ⟨rfl, rfl⟩
    · exact h.early hswept conn l hl hlate
    · cases hlate.symm.trans hswept
  shut := by
    intro conn l hl hclosed
    rcases dialed_cases hl with hl | ⟨rfl, rfl⟩
    · refine (h.shut conn l hl hclosed).imp id fun ⟨other, hother, hsweeps⟩ => ?_
      refine ⟨other, mem_set hn hother ?_, hsweeps⟩
      rintro rfl
      cases hsweeps.1
    · cases hclosed
  unique := by
    -- an older connection to the target is closed, so it was there before the sweep
    have hfresh : ∀ (conn : Nat) (l : ClientConn), d.transport.dialed[conn]? = some l →
        l.target = target → l.late ≠ d.transport.swept := by
      intro conn l hl htarget hlate
      have hclosed := h.dialing_closed hn hl htarget
      rcases h.shut conn l hl hclosed with hswept | ⟨other, hother, hshuts, hwrite⟩
      · cases hclosed.symm.trans (h.late conn l hl (hlate.trans hswept)).1
      · cases h.only hn rfl hother (by rw [hwrite]; nofun)
        cases hshuts
    intro conn conn' l l' hl hl' htarget hlate
    rcases dialed_cases hl with hl | ⟨rfl, rfl⟩
    · rcases dialed_cases hl' with hl' | ⟨rfl, rfl⟩
      · exact h.unique conn conn' l l' hl hl' htarget hlate
      · exact absurd hlate (hfresh conn l hl htarget)
    · rcases dialed_cases hl' with hl' | ⟨rfl, rfl⟩
      · exact absurd hlate.symm (hfresh conn' l' hl' htarget.symm)
      · rfl

theorem store (h : d.Sound) (hn : d.tasks[n]? = some (.getConn target (.storing conn))) :
    Sound
      { transport := { d.transport with conns := d.transport.conns.insert target conn }
        tasks := d.tasks.set n (.getConn target (.leaving (.ok conn))) } := by
  obtain ⟨hnone, l₀, hl₀, htarget₀, hopen₀⟩ := h.fits _ (List.mem_of_getElem? hn)
  refine { guards := h.guards_same hn rfl, fits := ?_, cached := ?_, opened := ?_,
           shutting := h.shutting_same hn rfl, late := h.late, early := h.early, shut := ?_,
           unique := h.unique }
  · exact h.fits_set hn rfl (fun _ _ hleads => hleads) ⟨l₀, hl₀, htarget₀⟩
  · intro other conn' hconn
    by_cases hother : other = target
    · subst hother
      cases (Finmap.lookup_insert _).symm.trans hconn
      exact ⟨l₀, hl₀, htarget₀, fun hno => by cases hopen₀.symm.trans hno⟩
    · obtain ⟨l, hl, htarget, hclosed⟩ :=
        h.cached other conn' ((Finmap.lookup_insert_of_ne _ hother).symm.trans hconn)
      exact ⟨l, hl, htarget, fun hno => mem_set hn (hclosed hno) nofun⟩
  · intro conn' l hl hopen
    by_cases hsame : l.target = target
    · left
      rcases h.opened conn' l hl hopen with hconn | hstoring
      · rw [hsame] at hconn
        cases hnone.symm.trans hconn
      · cases h.only hn rfl hstoring nofun
        exact Finmap.lookup_insert _
    · rcases h.opened conn' l hl hopen with hconn | hstoring
      · exact .inl ((Finmap.lookup_insert_of_ne _ hsame).trans hconn)
      · cases h.only hn rfl hstoring nofun
        exact absurd rfl hsame
  · intro conn' l hl hclosed
    refine (h.shut conn' l hl hclosed).imp id fun ⟨other, hother, hsweeps⟩ => ?_
    refine ⟨other, mem_set hn hother ?_, hsweeps⟩
    rintro rfl
    cases hsweeps.1

theorem finish (h : d.Sound) (hn : d.tasks[n]? = some (.close .sweeping))
    (hempty : d.transport.conns = ∅) :
    Sound { transport := { d.transport with swept := true }
            tasks := d.tasks.set n (.close .leaving) } := by
  have hmem := List.mem_of_getElem? hn
  have hclosed : ∀ (conn : Nat) (l : ClientConn), d.transport.dialed[conn]? = some l →
      l.isOpen = false := by
    intro conn l hl
    rw [← Bool.not_eq_true]
    intro hopen
    rcases h.opened conn l hl hopen with hconn | hstoring
    · rw [hempty, Finmap.lookup_empty] at hconn
      cases hconn
    · cases h.only hn rfl hstoring nofun
  refine { guards := h.guards_same hn rfl, fits := ?_, cached := ?_, opened := ?_,
           shutting := ?_, late := ?_, early := fun _ conn l hl _ => hclosed conn l hl,
           shut := fun _ _ _ _ => .inl rfl, unique := h.unique }
  · exact h.fits_set hn rfl (fun _ _ hleads => hleads) trivial
  · intro target conn hconn
    change Finmap.lookup target d.transport.conns = _ at hconn
    rw [hempty, Finmap.lookup_empty] at hconn
    cases hconn
  · intro conn l hl hopen
    cases (hclosed conn l hl).symm.trans hopen
  · have hset := h.shutting_set hn (.close .leaving)
    rw [h.not_swept hmem rfl] at hset
    exact hset
  · intro conn l hl hlate
    cases (hclosed conn l hl).symm.trans (h.late conn l hl hlate).1

theorem closed_cases {dialed : List ClientConn} {other : Nat} {l : ClientConn}
    (h : (dialed.modify conn fun l => { l with isOpen := false })[other]? = some l) :
    ∃ l₀, dialed[other]? = some l₀ ∧ l.target = l₀.target ∧ l.late = l₀.late ∧
      (other = conn ∧ l.isOpen = false ∨ other ≠ conn ∧ l.isOpen = l₀.isOpen) := by
  rw [List.getElem?_modify] at h
  obtain ⟨l₀, hl₀, rfl⟩ := Option.map_eq_some_iff.mp h
  by_cases hsame : conn = other
  · simp only [if_pos hsame]
    exact ⟨l₀, hl₀, rfl, rfl, .inl ⟨hsame.symm, trivial⟩⟩
  · simp only [if_neg hsame]
    exact ⟨l₀, hl₀, rfl, rfl, .inr ⟨Ne.symm hsame, rfl⟩⟩

theorem close (h : d.Sound) (hn : d.tasks[n]? = some (.close .sweeping)) {addr : String}
    (hconn : d.transport.conns.lookup addr = some conn) :
    Sound
      { transport :=
          { d.transport with
            dialed := d.transport.dialed.modify conn fun l => { l with isOpen := false } }
        tasks := d.tasks.set n (.close (.dropping addr)) } := by
  obtain ⟨l₀, hl₀, htarget₀, -⟩ := h.cached addr conn hconn
  have hself : (d.transport.dialed.modify conn fun l => { l with isOpen := false })[conn]? =
      some { l₀ with isOpen := false } := by
    simp [hl₀]
  have hkept : ∀ (other : Nat) (l : ClientConn), d.transport.dialed[other]? = some l →
      other ≠ conn →
      (d.transport.dialed.modify conn fun l => { l with isOpen := false })[other]? = some l := by
    intro other l hl hne
    simp [Ne.symm hne, hl]
  have hmem : .close (.dropping addr) ∈ d.tasks.set n (.close (.dropping addr)) :=
    List.mem_set (List.getElem?_eq_some_iff.mp hn).1 _
  refine { guards := h.guards_same hn rfl, fits := ?_, cached := ?_, opened := ?_,
           shutting := h.shutting_same hn rfl, late := ?_, early := ?_,
           shut := fun _ _ _ _ => .inr ⟨_, hmem, rfl, rfl⟩, unique := ?_ }
  · refine h.fits_set hn rfl ?_ ⟨conn, _, hconn, hself, rfl⟩
    rintro target other ⟨l, hl, htarget⟩
    by_cases hother : other = conn
    · subst hother
      cases hl₀.symm.trans hl
      exact ⟨_, hself, htarget⟩
    · exact ⟨l, hkept other l hl hother, htarget⟩
  · intro target other hother
    obtain ⟨l, hl, htarget, hclosed⟩ := h.cached target other hother
    by_cases hsame : other = conn
    · subst hsame
      cases hl₀.symm.trans hl
      refine ⟨_, hself, htarget, fun _ => ?_⟩
      rw [← htarget, htarget₀]
      exact hmem
    · exact ⟨l, hkept other l hl hsame, htarget, fun hno => mem_set hn (hclosed hno) nofun⟩
  · intro other l hl hopen
    obtain ⟨l₁, hl₁, htarget, -, ⟨-, hclosed⟩ | ⟨-, hsame⟩⟩ := closed_cases hl
    · cases hopen.symm.trans hclosed
    · rw [htarget]
      exact (h.opened other l₁ hl₁ (hsame.symm.trans hopen)).imp id
        fun hstoring => mem_set hn hstoring nofun
  · intro other l hl hlate
    obtain ⟨l₁, hl₁, -, hlate₁, -⟩ := closed_cases hl
    have hswept := (h.late other l₁ hl₁ (hlate₁.symm.trans hlate)).2
    cases (h.not_swept (List.mem_of_getElem? hn) rfl).symm.trans hswept
  · intro hswept
    cases (h.not_swept (List.mem_of_getElem? hn) rfl).symm.trans hswept
  · intro c c' l l' hl hl' htarget hlate
    obtain ⟨l₁, hl₁, htarget₁, hlate₁, -⟩ := closed_cases hl
    obtain ⟨l₂, hl₂, htarget₂, hlate₂, -⟩ := closed_cases hl'
    exact h.unique c c' l₁ l₂ hl₁ hl₂ (htarget₁.symm.trans (htarget.trans htarget₂))
      (hlate₁.symm.trans (hlate.trans hlate₂))

theorem drop (h : d.Sound) {addr : String} (hn : d.tasks[n]? = some (.close (.dropping addr))) :
    Sound { transport := { d.transport with conns := d.transport.conns.erase addr }
            tasks := d.tasks.set n (.close .sweeping) } := by
  obtain ⟨conn₀, l₀, hconn₀, hl₀, hclosed₀⟩ := h.fits _ (List.mem_of_getElem? hn)
  have hmem : .close .sweeping ∈ d.tasks.set n (.close .sweeping) :=
    List.mem_set (List.getElem?_eq_some_iff.mp hn).1 _
  refine { guards := h.guards_same hn rfl, fits := ?_, cached := ?_, opened := ?_,
           shutting := h.shutting_same hn rfl, late := h.late, early := h.early,
           shut := fun _ _ _ _ => .inr ⟨_, hmem, rfl, rfl⟩, unique := h.unique }
  · exact h.fits_set hn rfl (fun _ _ hleads => hleads) trivial
  · intro target conn hconn
    by_cases hsame : target = addr
    · subst hsame
      cases (Finmap.lookup_erase _ _).symm.trans hconn
    · obtain ⟨l, hl, htarget, hclosed⟩ :=
        h.cached target conn ((Finmap.lookup_erase_ne hsame).symm.trans hconn)
      refine ⟨l, hl, htarget, fun hno => mem_set hn (hclosed hno) ?_⟩
      rintro ⟨⟩
      exact hsame rfl
  · intro conn l hl hopen
    rcases h.opened conn l hl hopen with hconn | hstoring
    · by_cases hsame : l.target = addr
      · rw [hsame] at hconn
        cases hconn₀.symm.trans hconn
        cases hl₀.symm.trans hl
        cases hclosed₀.symm.trans hopen
      · exact .inl ((Finmap.lookup_erase_ne hsame).trans hconn)
    · exact .inr (mem_set hn hstoring nofun)

theorem run (h : d.Sound) (hn : d.tasks[n]? = some task)
    (hnext : task.next d.transport chance = some (t', task')) :
    Sound { transport := t', tasks := d.tasks.set n task' } := by
  cases ConnTask.next_move hnext with
  | quiet hguards hfits hshuts halters => exact h.quiet hn hguards (hfits h.leads) hshuts halters
  | flag hopen => exact h.flag hn hopen
  | dial target => exact h.dial hn
  | store target conn => exact h.store hn
  | finish hempty => exact h.finish hn hempty
  | shut hconn => exact h.close hn hconn
  | drop addr => exact h.drop hn

theorem join (h : d.Sound) (hhold : task.hold = .none) (hshuts : task.shuts = false)
    (hfits : d.transport.Fits task) : Sound { d with tasks := d.tasks ++ [task] } where
  guards := by
    rw [List.map_append]
    simp only [List.map_cons, List.map_nil, hhold]
    exact h.guards.join
  fits := by
    intro other hother
    rcases List.mem_append.mp hother with hold | hnew
    · exact h.fits other hold
    · rw [List.mem_singleton.mp hnew]
      exact hfits
  cached := by
    intro target conn hconn
    obtain ⟨l, hl, htarget, hclosed⟩ := h.cached target conn hconn
    exact ⟨l, hl, htarget, fun hno => List.mem_append_left _ (hclosed hno)⟩
  opened := fun conn l hl hopen =>
    (h.opened conn l hl hopen).imp id fun hstoring => List.mem_append_left _ hstoring
  shutting := by
    simpa [List.countP_append, hshuts] using h.shutting
  late := h.late
  early := h.early
  shut := fun conn l hl hclosed => (h.shut conn l hl hclosed).imp id
    fun ⟨other, hother, hsweeps⟩ => ⟨other, List.mem_append_left _ hother, hsweeps⟩
  unique := h.unique

theorem step (h : d.Sound) {e : DialerEvent} (hstep : d.step e = some d') : d'.Sound := by
  cases e with
  | getConn target =>
    cases hstep
    exact h.join rfl rfl trivial
  | close =>
    cases hstep
    exact h.join rfl rfl trivial
  | run n chance =>
    obtain ⟨task, hn, hstep⟩ := Option.bind_eq_some_iff.mp hstep
    obtain ⟨⟨_, _⟩, hnext, hstep⟩ := Option.map_eq_some_iff.mp hstep
    cases hstep
    exact h.run hn hnext

end Sound

theorem Run.sound (h : Run d) : d.Sound := by
  induction h with
  | start h =>
    cases h
    exact start_sound
  | step _ _ hstep ih => exact ih.step hstep

end Dialer

theorem Dialer.Sound.writes (h : d.Sound) (hmem : task ∈ d.tasks) (hwrite : task.hold = .write) :
    d.transport.mu.writer = true := by
  obtain ⟨n, hn⟩ := List.getElem?_of_mem hmem
  exact h.guards.writer_of_hold (hwrite ▸ Dialer.Sound.hold hn)

theorem Dialer.Sound.late_eq (h : d.Sound) {l : ClientConn}
    (hl : d.transport.dialed[conn]? = some l) (hopen : d.transport.swept = true → l.isOpen = true) :
    l.late = d.transport.swept := by
  cases hswept : d.transport.swept with
  | true =>
    rw [← Bool.not_eq_false]
    intro hno
    cases (h.early hswept conn l hl hno).symm.trans (hopen hswept)
  | false =>
    rw [← Bool.not_eq_true]
    intro hyes
    cases hswept.symm.trans (h.late conn l hl hyes).2

def ConnTask.over : ConnTask → Bool
  | .getConn _ (.returned _) => true
  | .close .returned => true
  | _ => false

theorem Dialer.Sound.holder_runs (h : d.Sound) (hn : d.tasks[n]? = some task)
    (hhold : task.hold ≠ .none) : ∃ chance, (task.next d.transport chance).isSome = true := by
  have hheld := Dialer.Sound.hold hn
  cases task with
  | getConn target stage =>
    refine ⟨{}, ?_⟩
    rw [ConnTask.next, Option.isSome_map]
    cases stage with
    | called => exact absurd rfl hhold
    | upgrading => exact absurd rfl hhold
    | returned => exact absurd rfl hhold
    | looking | checking =>
      simp only [GetConn.next]
      split <;> rfl
    | dialing => rfl
    | storing => rfl
    | found | missed =>
      obtain ⟨mu, hmu⟩ := h.guards.runlock_returns hheld
      simp [GetConn.next, hmu]
    | leaving =>
      obtain ⟨mu, hmu⟩ := h.guards.unlock_returns hheld
      simp [GetConn.next, hmu]
  | close stage =>
    cases stage with
    | sweeping =>
      by_cases hempty : d.transport.conns = ∅
      · exact ⟨{}, by simp [ConnTask.next, CloseAll.next, hempty]⟩
      · obtain ⟨addr, conn, hconn⟩ : ∃ addr conn, d.transport.conns.lookup addr = some conn := by
          by_contra hno
          push Not at hno
          refine hempty (Finmap.ext_lookup fun addr => ?_)
          rw [Finmap.lookup_empty]
          exact Option.eq_none_iff_forall_ne_some.mpr (hno addr)
        exact ⟨{ addr }, by simp [ConnTask.next, CloseAll.next, hempty, hconn]⟩
    | dropping addr => exact ⟨{}, rfl⟩
    | leaving =>
      obtain ⟨mu, hmu⟩ := h.guards.unlock_returns hheld
      exact ⟨{}, by simp [ConnTask.next, CloseAll.next, hmu]⟩
    | _ => exact absurd rfl hhold

theorem Dialer.step_run (hn : d.tasks[n]? = some task)
    (h : ∃ chance, (task.next d.transport chance).isSome = true) :
    ∃ chance d', d.step (.run n chance) = some d' := by
  obtain ⟨chance, hnext⟩ := h
  obtain ⟨next, hnext⟩ := Option.isSome_iff_exists.mp hnext
  exact ⟨chance, _, by rw [step, hn, Option.bind_some, hnext]; rfl⟩

theorem Dialer.Sound.free_runs (h : d.Sound) (hfree : ∀ task ∈ d.tasks, task.hold = .none)
    (hmem : task ∈ d.tasks) (hover : task.over = false) :
    ∃ chance, (task.next d.transport chance).isSome = true := by
  have hcount : ∀ hold, hold ≠ .none → (d.tasks.map ConnTask.hold).count hold = 0 := by
    intro hold hne
    refine List.count_eq_zero.mpr fun hin => ?_
    obtain ⟨task, htask, rfl⟩ := List.mem_map.mp hin
    exact hne (hfree task htask)
  have hreaders : d.transport.mu.readers = 0 := h.guards.readers.trans (hcount .read nofun)
  have hwriter : d.transport.mu.writer = false := by
    have := h.guards.writer.trans (hcount .write nofun)
    simpa using this
  have hnone := hfree task hmem
  refine ⟨{}, ?_⟩
  cases task with
  | getConn target stage =>
    cases stage with
    | called => simp [ConnTask.next, GetConn.next, RWMutex.rlock, hwriter]
    | upgrading => simp [ConnTask.next, GetConn.next, RWMutex.lock, hwriter, hreaders]
    | returned => cases hover
    | _ => cases hnone
  | close stage =>
    cases stage with
    | called =>
      simp only [ConnTask.next, CloseAll.next]
      split <;> rfl
    | stopping => rfl
    | locking => simp [ConnTask.next, CloseAll.next, RWMutex.lock, hwriter, hreaders]
    | returned => cases hover
    | _ => cases hnone

open Dialer

/-- Whatever calls of `getConn` and `Close` overlap and however their operations mix: a target
has at most one open connection, and the map has exactly the open ones whenever nobody is
writing. A call gets a connection to its own target, all calls for one target the same as long as
`Close` is not through; no target has more than two in the lifetime of the transport. A call that
writes the map has it to itself, as long as a call is not over some call can go on, and one that
holds the mutex can always go on, so that it never unlocks what is not locked. -/
theorem connections_are_shared (h : Run d) :
    (∀ (c c' : Nat) (l l' : ClientConn), d.transport.dialed[c]? = some l →
      d.transport.dialed[c']? = some l' → l.isOpen = true → l'.isOpen = true →
      l.target = l'.target → c = c') ∧
    (d.transport.mu.writer = false → ∀ target c, d.transport.conns.lookup target = some c ↔
      ∃ l, d.transport.dialed[c]? = some l ∧ l.target = target ∧ l.isOpen = true) ∧
    (∀ target c, .getConn target (.returned (.ok c)) ∈ d.tasks →
      (∃ l, d.transport.dialed[c]? = some l ∧ l.target = target) ∧
      ∀ c', .getConn target (.returned (.ok c')) ∈ d.tasks → d.transport.swept = false → c = c') ∧
    (∀ (c₁ c₂ c₃ : Nat) (l₁ l₂ l₃ : ClientConn), d.transport.dialed[c₁]? = some l₁ →
      d.transport.dialed[c₂]? = some l₂ → d.transport.dialed[c₃]? = some l₃ →
      l₁.target = l₂.target → l₂.target = l₃.target → c₁ = c₂ ∨ c₂ = c₃ ∨ c₁ = c₃) ∧
    (∀ (n k : Nat) (task other : ConnTask), d.tasks[n]? = some task → d.tasks[k]? = some other →
      task.hold = .write → other.hold ≠ .none → n = k) ∧
    ((∃ task ∈ d.tasks, task.over = false) →
      ∃ n chance d', d.step (.run n chance) = some d') ∧
    (∀ (n : Nat) (task : ConnTask), d.tasks[n]? = some task → task.hold ≠ .none →
      ∃ chance d', d.step (.run n chance) = some d') := by
  have hsound := h.sound
  refine ⟨?_, fun hwriter target c => ⟨?_, ?_⟩, fun target c hc => ⟨?_, ?_⟩, ?_, ?_, ?_, ?_⟩
  · intro c c' l l' hl hl' hopen hopen' htarget
    refine hsound.unique c c' l l' hl hl' htarget ?_
    rw [hsound.late_eq hl fun _ => hopen, hsound.late_eq hl' fun _ => hopen']
  · intro hconn
    obtain ⟨l, hl, htarget, hclosed⟩ := hsound.cached target c hconn
    refine ⟨l, hl, htarget, ?_⟩
    rw [← Bool.not_eq_false]
    intro hno
    cases hwriter.symm.trans (hsound.writes (hclosed hno) rfl)
  · rintro ⟨l, hl, rfl, hopen⟩
    rcases hsound.opened c l hl hopen with hconn | hstoring
    · exact hconn
    · cases hwriter.symm.trans (hsound.writes hstoring rfl)
  · exact hsound.fits _ hc
  · intro c' hc' hswept
    obtain ⟨l, hl, htarget⟩ := hsound.fits _ hc
    obtain ⟨l', hl', htarget'⟩ := hsound.fits _ hc'
    have hbefore : d.transport.swept ≠ true := by simp [hswept]
    refine hsound.unique c c' l l' hl hl' (htarget.trans htarget'.symm) ?_
    rw [hsound.late_eq hl fun hno => absurd hno hbefore,
      hsound.late_eq hl' fun hno => absurd hno hbefore]
  · intro c₁ c₂ c₃ l₁ l₂ l₃ h₁ h₂ h₃ h₁₂ h₂₃
    by_cases heq : l₁.late = l₂.late
    · exact .inl (hsound.unique c₁ c₂ l₁ l₂ h₁ h₂ h₁₂ heq)
    · by_cases heq' : l₂.late = l₃.late
      · exact .inr (.inl (hsound.unique c₂ c₃ l₂ l₃ h₂ h₃ h₂₃ heq'))
      · refine .inr (.inr (hsound.unique c₁ c₃ l₁ l₃ h₁ h₃ (h₁₂.trans h₂₃) ?_))
        rw [Bool.eq_not_of_ne heq, Bool.eq_not_of_ne (Ne.symm heq')]
  · intro n k task other hn hk hwrite hholds
    by_contra hne
    exact hholds (hsound.alone hn hwrite hk (Ne.symm hne))
  · rintro ⟨task, hmem, hover⟩
    by_cases hheld : ∃ task ∈ d.tasks, task.hold ≠ .none
    · obtain ⟨holder, hmem, hhold⟩ := hheld
      obtain ⟨n, hn⟩ := List.getElem?_of_mem hmem
      exact ⟨n, step_run hn (hsound.holder_runs hn hhold)⟩
    · push Not at hheld
      obtain ⟨n, hn⟩ := List.getElem?_of_mem hmem
      exact ⟨n, step_run hn (hsound.free_runs hheld hmem hover)⟩
  · intro n task hn hhold
    exact step_run hn (hsound.holder_runs hn hhold)

/-- Two calls for one target that both miss in the map, and one of them dials. -/
theorem connections_are_shared_race :
    ∃ d, Run d ∧ ConnTask.getConn "b" (.returned (.ok 0)) ∈ d.tasks ∧ d.tasks.length = 2 ∧
      d.transport.dialed.length = 1 ∧
      ∀ c, .getConn "b" (.returned (.ok c)) ∈ d.tasks → 0 = c := by
  obtain ⟨d, hrun, hmem, hlength, hdialed, hswept⟩ :
      ∃ d, Run d ∧
        ConnTask.getConn "b" (.returned (.ok 0)) ∈ d.tasks ∧ d.tasks.length = 2 ∧
        d.transport.dialed.length = 1 ∧ d.transport.swept = false :=
    Reachable.of_any
      [.getConn "b", .getConn "b", .run 0 {}, .run 1 {}, .run 0 {}, .run 1 {}, .run 0 {}, .run 1 {},
        .run 1 {}, .run 1 {}, .run 1 {}, .run 1 {}, .run 1 {}, .run 0 {}, .run 0 {}, .run 0 {}] rfl
  refine ⟨d, hrun, hmem, hlength, hdialed, fun c hc => ?_⟩
  exact ((connections_are_shared hrun).2.2.1 "b" 0 hmem).2 c hc hswept

theorem Dialer.Sound.stays (h : d.Sound) (hswept : d.transport.swept = true) {l : ClientConn}
    (hl : d.transport.dialed[conn]? = some l) {e : DialerEvent} (hstep : d.step e = some d') :
    d'.transport.swept = true ∧ d'.transport.dialed[conn]? = some l := by
  cases e with
  | getConn target =>
    cases hstep
    exact ⟨hswept, hl⟩
  | close =>
    cases hstep
    exact ⟨hswept, hl⟩
  | run n chance =>
    obtain ⟨task, hn, hstep⟩ := Option.bind_eq_some_iff.mp hstep
    obtain ⟨⟨_, _⟩, hnext, hstep⟩ := Option.map_eq_some_iff.mp hstep
    cases hstep
    cases ConnTask.next_move hnext with
    | dial target => exact ⟨hswept, Dialer.Sound.dialed_before hl⟩
    | shut hconn =>
      -- only the call that sets the flag gets here, and it has gone already
      cases (h.not_swept (List.mem_of_getElem? hn) rfl).symm.trans hswept
    | finish => exact ⟨rfl, hl⟩
    | _ => exact ⟨hswept, hl⟩

/-- Once `Close` has closed the connections there were, no connection is closed any more: what
is dialled from then on stays open, whoever calls `Close` again. -/
theorem late_connections_stay_open (h : Run d) (hswept : d.transport.swept = true)
    {l : ClientConn} (hl : d.transport.dialed[conn]? = some l)
    (hrun : Reachable (some d) Dialer.step (fun _ _ => True) d') :
    d'.transport.dialed[conn]? = some l := by
  have hkept : Run d' ∧ d'.transport.swept = true ∧ d'.transport.dialed[conn]? = some l := by
    induction hrun with
    | start hstart =>
      cases hstart
      exact ⟨h, hswept, hl⟩
    | step _ _ hstep ih =>
      obtain ⟨hrun, hswept, hl⟩ := ih
      exact ⟨hrun.step trivial hstep, hrun.sound.stays hswept hl hstep⟩
  exact hkept.2.2

theorem late_connections_stay_open_after_close :
    ∃ d d' l, Run d ∧ .close .returned ∈ d.tasks ∧ d.transport.dialed[0]? = some l ∧
      l.isOpen = true ∧ Reachable (some d) Dialer.step (fun _ _ => True) d' ∧
      d'.tasks[2]? = some (.close .returned) ∧ d'.transport.dialed[0]? = some l := by
  obtain ⟨d, hrun, hmem, hswept, hopen, hagain⟩ :
      ∃ d, Run d ∧
        ConnTask.close .returned ∈ d.tasks ∧ d.transport.swept = true ∧
        (∃ l ∈ d.transport.dialed[0]?, ClientConn.isOpen l = true) ∧
        (runFrom (some d) Dialer.step (fun _ _ => True) [.close, .run 2 {}]).any
          (fun d' => decide (d'.tasks[2]? = some (ConnTask.close .returned))) = true :=
    Reachable.of_any
      [.close, .run 0 {}, .run 0 {}, .run 0 {}, .run 0 {}, .run 0 {}, .getConn "b", .run 1 {},
        .run 1 {}, .run 1 {}, .run 1 {}, .run 1 {}, .run 1 {}, .run 1 {}, .run 1 {}] rfl
  obtain ⟨l, hl, hisOpen⟩ := hopen
  obtain ⟨d', hreach, hreturned⟩ := Reachable.of_any _ hagain
  exact ⟨d, d', l, hrun, hmem, hl, hisOpen, hreach, hreturned,
    late_connections_stay_open hrun hswept hl hreach⟩

end Phalanx.Network
