/-
YamuxLowMem/Lib/Run.lean

Transition systems, their reachable states, and the rules for invariants.

An invariant may use facts that are already known of every reachable state
(`Reachable.invariant_with`).  Where a step may break a property, and does so
exactly when it does not meet a condition, a run keeps the property throughout
exactly when all of its steps meet the condition (`throughout_iff`).
-/
import Mathlib.Data.List.Induction
import Mathlib.Logic.Relation

namespace Run

open Relation

universe u

/-- Initial states and steps. -/
structure Machine (σ : Type u) where
  init : σ → Prop
  step : σ → σ → Prop

namespace Machine

variable {σ : Type u}

inductive Reachable (M : Machine σ) : σ → Prop where
  | init {s : σ} : M.init s → Reachable M s
  | step {s t : σ} : Reachable M s → M.step s t → Reachable M t

/-- Any number of steps. -/
abbrev Steps (M : Machine σ) : σ → σ → Prop := ReflTransGen M.step

variable {M : Machine σ} {P Q : σ → Prop} {s t : σ}

theorem Reachable.steps (hs : M.Reachable s) (hst : M.Steps s t) : M.Reachable t := by
  induction hst with
  | refl => exact hs
  | tail _ hstep ih => exact .step ih hstep

/-- What every step preserves, any number of steps preserve. -/
theorem Steps.preserves (hstep : ∀ s t, P s → M.step s t → P t) (hst : M.Steps s t) (hs : P s) :
    P t := by
  induction hst with
  | refl => exact hs
  | tail _ hst ih => exact hstep _ _ ih hst

/-- The induction rule for invariants. -/
@[elab_as_elim]
theorem Reachable.invariant (hs : M.Reachable s) (hinit : ∀ s, M.init s → P s)
    (hstep : ∀ s t, P s → M.step s t → P t) : P s := by
  induction hs with
  | init h => exact hinit _ h
  | step _ h ih => exact hstep _ _ ih h

/-- The same rule, with the invariant `Q` already at hand. -/
@[elab_as_elim]
theorem Reachable.invariant_with (hs : M.Reachable s) (hQ : ∀ s, M.Reachable s → Q s)
    (hinit : ∀ s, M.init s → P s) (hstep : ∀ s t, Q s → P s → M.step s t → P t) : P s := by
  induction hs with
  | init h => exact hinit _ h
  | step hr h ih => exact hstep _ _ (hQ _ hr) ih h

end Machine

/-! ### Runs given by a list of actions -/

/-- Something holds wherever a list is split at an element if and only if it
holds at the first element and wherever the rest is split. -/
theorem forall_split_cons {α : Type*} {a : α} {as : List α} {Q : List α → α → List α → Prop} :
    (∀ pre x post, a :: as = pre ++ x :: post → Q pre x post) ↔
      Q [] a as ∧ ∀ pre x post, as = pre ++ x :: post → Q (a :: pre) x post := by
  constructor
  · intro h
    exact ⟨h [] a as rfl, fun pre x post hsplit => h (a :: pre) x post (by rw [hsplit]; rfl)⟩
  · rintro ⟨hfirst, hrest⟩ pre x post hsplit
    rcases List.cons_eq_append_iff.mp hsplit with ⟨rfl, hx⟩ | ⟨pre', rfl, hpost⟩
    · cases hx
      exact hfirst
    · exact hrest pre' x post hpost

section Lists

variable {σ α : Type*} (step : σ → α → σ) (as : List α) {P : σ → Prop} {C : σ → α → Prop} {s : σ}

/-- If, from some point of a run on, one step keeps the property `P` exactly
when it meets the condition `C`, then `P` holds from there on exactly when each
step meets `C`. -/
theorem throughout_from_iff (pre : List α) (hinit : pre <+: as → P (pre.foldl step s))
    (hstep : ∀ post a, pre ++ post ++ [a] <+: as → P ((pre ++ post).foldl step s) →
      (P (step ((pre ++ post).foldl step s) a) ↔ C ((pre ++ post).foldl step s) a)) :
    (∀ post, pre ++ post <+: as → P ((pre ++ post).foldl step s)) ↔
      ∀ post a, pre ++ post ++ [a] <+: as → C ((pre ++ post).foldl step s) a := by
  have hlast : ∀ (post : List α) (a : α),
      (pre ++ (post ++ [a])).foldl step s = step ((pre ++ post).foldl step s) a := by
    intro post a
    rw [← List.append_assoc, List.foldl_append, List.foldl_cons, List.foldl_nil]
  constructor
  · intro hall post a hpre
    have hnext := hall (post ++ [a]) (List.append_assoc _ _ _ ▸ hpre)
    rw [hlast] at hnext
    exact (hstep post a hpre (hall post ((List.prefix_append _ _).trans hpre))).mp hnext
  · intro hall post hpre
    induction post using List.reverseRecOn with
    | nil =>
        rw [List.append_nil] at hpre ⊢
        exact hinit hpre
    | append_singleton post a ih =>
        rw [← List.append_assoc] at hpre
        rw [hlast]
        apply (hstep post a hpre (ih ((List.prefix_append _ _).trans hpre))).mpr
        exact hall post a hpre

/-- The same from the beginning of the run on. -/
theorem throughout_iff (hinit : P s)
    (hstep : ∀ pre a, pre ++ [a] <+: as → P (pre.foldl step s) →
      (P (step (pre.foldl step s) a) ↔ C (pre.foldl step s) a)) :
    (∀ pre, pre <+: as → P (pre.foldl step s)) ↔
      ∀ pre a, pre ++ [a] <+: as → C (pre.foldl step s) a :=
  throughout_from_iff step as [] (fun _ => hinit) hstep

end Lists

end Run
