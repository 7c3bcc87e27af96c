/-
YamuxLowMem/Lib/Refinement.lean

One machine refines another, and machines side by side.

A refinement maps the states of one machine to those of another so that initial
states become initial, and what one step does becomes one step, or none.  Runs
are carried along (`Refines.steps`, `Refines.reachable`), and
with them every invariant.

In a family of machines one member makes a step at a time; what a run of the
family does to one member is a run of it.
-/
import YamuxLowMem.Lib.Run
import Mathlib.Logic.Function.Basic

namespace Run

open Relation

universe u v

namespace Machine

variable {σ : Type u} {τ : Type v}

/-! ### Refinement -/

/-- `f` takes every step of `M` to a step of `N`, or to none. -/
structure Refines (M : Machine σ) (N : Machine τ) (f : σ → τ) : Prop where
  init : ∀ s, M.init s → N.init (f s)
  step : ∀ s t, M.Reachable s → M.step s t → ReflGen N.step (f s) (f t)

namespace Refines

variable {M : Machine σ} {N : Machine τ} {f : σ → τ} {s t : σ}

theorem steps (h : M.Refines N f) (hs : M.Reachable s) (hst : M.Steps s t) :
    N.Steps (f s) (f t) := by
  induction hst with
  | refl => exact .refl
  | tail hsu hstep ih => exact ih.trans (h.step _ _ (hs.steps hsu) hstep).to_reflTransGen

theorem reachable (h : M.Refines N f) (hs : M.Reachable s) : N.Reachable (f s) := by
  induction hs with
  | init hinit => exact .init (h.init _ hinit)
  | step hs hstep ih => exact ih.steps (h.step _ _ hs hstep).to_reflTransGen

end Refines

/-! ### Families -/

section Family

variable {ι : Type v} [DecidableEq ι]

/-- The machines side by side: a step is a step of one of them. -/
def family (M : ι → Machine σ) : Machine (ι → σ) where
  init s := ∀ i, (M i).init (s i)
  step s t := ∃ i a, (M i).step (s i) a ∧ t = Function.update s i a

variable {M : ι → Machine σ} {s t : ι → σ}

/-- One member makes a step, and the others stay where they are. -/
theorem family_step {i : ι} (h : (M i).step (s i) (t i)) (hothers : ∀ j, j ≠ i → t j = s j) :
    (family M).step s t := by
  refine ⟨i, t i, h, ?_⟩
  funext j
  by_cases hj : j = i
  · subst hj
    rw [Function.update_self]
  · rw [Function.update_of_ne hj]
    exact hothers j hj

theorem Steps.member (h : (family M).Steps s t) (i : ι) : (M i).Steps (s i) (t i) := by
  induction h with
  | refl => exact .refl
  | tail _ hstep ih =>
      obtain ⟨j, a, ha, rfl⟩ := hstep
      by_cases hij : i = j
      · subst hij
        rw [Function.update_self]
        exact ih.tail ha
      · rw [Function.update_of_ne hij]
        exact ih

theorem Reachable.member (h : (family M).Reachable s) (i : ι) : (M i).Reachable (s i) := by
  induction h with
  | init hinit => exact .init (hinit i)
  | @step s t _ hstep ih =>
      have hsteps : (family M).Steps s t := .single hstep
      exact ih.steps (hsteps.member i)

end Family

end Machine

end Run
