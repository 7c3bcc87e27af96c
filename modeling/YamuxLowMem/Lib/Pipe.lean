/-
YamuxLowMem/Lib/Pipe.lean

A reliable one-way pipe, seen from outside: what has been written to it, what
has been read from it, whether it has been closed, and whether its reader has
been told so.

Nothing is said about where the items are in between, or how long they take.
An item is read in its turn, and the end is reported once everything has been
read; after that nothing can happen any more (`frozen`).
-/
import YamuxLowMem.Lib.Run

universe u

structure Pipe (α : Type u) where
  written : List α
  closed : Bool
  read : List α
  ended : Bool

namespace Pipe

variable {α : Type u}

def empty : Pipe α := { written := [], closed := false, read := [], ended := false }

inductive Step : Pipe α → Pipe α → Prop where
  | write {p : Pipe α} (items : List α) : p.closed = false →
      Step p { p with written := p.written ++ items }
  | close {p : Pipe α} : Step p { p with closed := true }
  | read {p : Pipe α} (items : List α) : p.read ++ items <+: p.written →
      Step p { p with read := p.read ++ items }
  | finish {p : Pipe α} : p.closed = true → p.read = p.written → Step p { p with ended := true }

/-- A pipe from its creation on. -/
def machine : Run.Machine (Pipe α) where
  init p := p = empty
  step := Step

/-- Reading keeps the order and loses nothing. -/
structure Sound (p : Pipe α) : Prop where
  isPrefix : p.read <+: p.written
  complete : p.ended = true → p.closed = true ∧ p.read = p.written

variable {p q : Pipe α}

/-- After the end nothing more happens. -/
theorem Step.frozen (h : Step p q) (hp : p.Sound) (hended : p.ended = true) : q = p := by
  obtain ⟨hclosed, hall⟩ := hp.complete hended
  cases h with
  | write items hopen =>
      rw [hclosed] at hopen
      cases hopen
  | close => rw [← hclosed]
  | read items hfront =>
      -- there is nothing left to read
      have hlen := hfront.length_le
      rw [List.length_append, hall] at hlen
      have hnone : items = [] := List.length_eq_zero_iff.mp (by omega)
      rw [hnone, List.append_nil]
  | finish => rw [← hended]

theorem Step.sound (h : Step p q) (hp : p.Sound) : q.Sound := by
  by_cases hended : p.ended = true
  · rw [h.frozen hp hended]
    exact hp
  · cases h with
    | write items =>
        exact ⟨hp.isPrefix.trans (List.prefix_append _ _), fun h => absurd h hended⟩
    | close => exact ⟨hp.isPrefix, fun h => absurd h hended⟩
    | read items hfront => exact ⟨hfront, fun h => absurd h hended⟩
    | finish hclosed hall => exact ⟨hp.isPrefix, fun _ => ⟨hclosed, hall⟩⟩

theorem sound_of_reachable (h : machine.Reachable p) : p.Sound := by
  refine h.invariant ?_ ?_
  · rintro p rfl
    exact ⟨List.prefix_rfl, fun h => by cases h⟩
  · intro p q hp hstep
    exact hstep.sound hp

/-- Once the end has been reported, the pipe stays as it is. -/
theorem frozen (hsteps : machine.Steps p q) (hp : p.Sound) (hended : p.ended = true) : q = p := by
  induction hsteps with
  | refl => rfl
  | tail _ hstep ih =>
      subst ih
      exact Step.frozen hstep hp hended

end Pipe
