import Mathlib.Init

/-! Systems that run event by event, where an event may be impossible (`step`) or
not allowed (`ok`) in a state. -/
namespace Phalanx

variable {σ ε : Type}

/-- The states of the runs whose every event is allowed. -/
inductive Reachable (init : Option σ) (step : σ → ε → Option σ) (ok : σ → ε → Prop) : σ → Prop
  | start {s : σ} (h : init = some s) : Reachable init step ok s
  | step {s s' : σ} {e : ε} (h : Reachable init step ok s) (hok : ok s e)
      (hstep : step s e = some s') : Reachable init step ok s'

def walk (step : σ → ε → Option σ) (ok : σ → ε → Prop) [∀ s e, Decidable (ok s e)] (s : σ) :
    List ε → Option σ
  | [] => some s
  | e :: rest => if ok s e then (step s e).bind fun s => walk step ok s rest else none

def runFrom (init : Option σ) (step : σ → ε → Option σ) (ok : σ → ε → Prop)
    [∀ s e, Decidable (ok s e)] (events : List ε) : Option σ :=
  init.bind fun s => walk step ok s events

namespace Reachable

variable {init : Option σ} {step : σ → ε → Option σ} {ok ok' : σ → ε → Prop} {s s' : σ}

theorem mono (hok : ∀ s e, ok s e → ok' s e) (h : Reachable init step ok s) :
    Reachable init step ok' s := by
  induction h with
  | start h => exact .start h
  | step _ hstepOk hstep ih => exact ih.step (hok _ _ hstepOk) hstep

theorem origin (h : Reachable init step ok s) :
    ∃ s₀, init = some s₀ ∧ Reachable (some s₀) step ok s := by
  induction h with
  | start h => exact ⟨_, h, .start rfl⟩
  | step _ hok hstep ih =>
    obtain ⟨s₀, hinit, hreach⟩ := ih
    exact ⟨s₀, hinit, hreach.step hok hstep⟩

/-- What holds at the end and cannot have failed before held before every event. -/
theorem before {P : σ → Prop} (hback : ∀ s s' e, step s e = some s' → P s' → P s)
    (h : Reachable init step ok s) (hP : P s) :
    Reachable init step (fun s e => ok s e ∧ P s) s := by
  induction h with
  | start h => exact .start h
  | step _ hok hstep ih =>
    have hbefore := hback _ _ _ hstep hP
    exact (ih hbefore).step ⟨hok, hbefore⟩ hstep

theorem throughout {P : σ → Prop} (hback : ∀ s s' e, step s e = some s' → P s' → P s)
    (h : Reachable init step ok s) (hP : P s) :
    Reachable init step (fun s e => ok s e ∧ ∀ s', step s e = some s' → P s') s := by
  induction h with
  | start h => exact .start h
  | step _ hok hstep ih =>
    refine (ih (hback _ _ _ hstep hP)).step ⟨hok, fun s' hs' => ?_⟩ hstep
    cases hstep.symm.trans hs'
    exact hP

variable [∀ s e, Decidable (ok s e)]

theorem of_walk {events : List ε} (hreach : Reachable init step ok s)
    (h : walk step ok s events = some s') : Reachable init step ok s' := by
  induction events generalizing s with
  | nil =>
    cases h
    exact hreach
  | cons e rest ih =>
    rw [walk] at h
    split at h
    next hok =>
      obtain ⟨s₁, hstep, h⟩ := Option.bind_eq_some_iff.mp h
      exact ih (hreach.step hok hstep) h
    next => cases h

/-- A run that was computed, and what its end was found to satisfy. -/
theorem of_any {P : σ → Prop} [DecidablePred P] (events : List ε)
    (h : (runFrom init step ok events).any (fun s => decide (P s)) = true) :
    ∃ s, Reachable init step ok s ∧ P s := by
  obtain ⟨s, hrun, hP⟩ := (Option.any_eq_true _ _).mp h
  obtain ⟨s₀, hstart, hwalk⟩ := Option.bind_eq_some_iff.mp hrun
  exact ⟨s, of_walk (.start hstart) hwalk, of_decide_eq_true hP⟩

end Reachable
end Phalanx
