/-
YamuxLowMem/Lib/Fifo.lean

Objects that implement a first-in first-out queue.

An object is driven by calls, each of which answers and moves its state or
fails; its callers keep to the calls that are allowed in the state at hand.
`Queue` says what makes such an object a queue: an invariant, the contents its
states denote, what a call puts in and what it takes out, and that one allowed
call succeeds and balances the four.  Every sequence of allowed calls then
succeeds, and what it took out, followed by what is left, is what was put in,
in order.
-/
import Mathlib.Algebra.Ring.Nat
import Mathlib.Data.List.Basic

namespace Fifo

/-- Something that is called; `none` is a call that fails. -/
structure Object (σ α ρ : Type*) where
  call : σ → α → Option (ρ × σ)
  allowed : σ → α → Prop

/-- One call: the states before and after it, and its answer. -/
structure Call (σ α ρ : Type*) where
  before : σ
  op : α
  answer : ρ
  after : σ

namespace Object

variable {σ α ρ : Type*} (O : Object σ α ρ)

/-- The calls `as` one after the other, and the state they lead to. -/
def run : σ → List α → Option (List (Call σ α ρ) × σ)
  | s, [] => some ([], s)
  | s, a :: as =>
      (O.call s a).bind fun x =>
        (run x.2 as).map fun y => (⟨s, a, x.1, x.2⟩ :: y.1, y.2)

/-- Each of the calls `as` is allowed where it is made. -/
def Allowed : σ → List α → Prop
  | _, [] => True
  | s, a :: as => O.allowed s a ∧ ∀ x ∈ O.call s a, Allowed x.2 as

instance decidableAllowed [∀ s, DecidablePred (O.allowed s)] :
    ∀ s as, Decidable (O.Allowed s as)
  | _, [] => isTrue trivial
  | s, a :: as =>
      have := fun x : ρ × σ => decidableAllowed x.2 as
      inferInstanceAs (Decidable (O.allowed s a ∧ ∀ x ∈ O.call s a, O.Allowed x.2 as))

variable {O} {s t : σ}

theorem run_cons {a : α} {as : List α} {r : ρ} (h : O.call s a = some (r, t)) :
    O.run s (a :: as) = (O.run t as).map fun y => (⟨s, a, r, t⟩ :: y.1, y.2) := by
  rw [run, h, Option.bind_some]

theorem Allowed.next {a : α} {as : List α} {r : ρ} (h : O.Allowed s (a :: as))
    (hcall : O.call s a = some (r, t)) : O.Allowed t as :=
  h.2 (r, t) hcall

theorem allowed_of_forall (h : ∀ s a, O.allowed s a) (as : List α) : O.Allowed s as := by
  induction as generalizing s with
  | nil => trivial
  | cons a as ih => exact ⟨h s a, fun _ _ => ih⟩

/-- What holds of every call made under an invariant holds of the calls of a run. -/
theorem run_forall {inv : σ → Prop} {P : Call σ α ρ → Prop}
    (hstep : ∀ {s a r t}, inv s → O.allowed s a → O.call s a = some (r, t) →
      inv t ∧ P ⟨s, a, r, t⟩)
    {as : List α} {calls : List (Call σ α ρ)} (hs : inv s) (h : O.Allowed s as)
    (hrun : O.run s as = some (calls, t)) : inv t ∧ ∀ c ∈ calls, P c := by
  induction as generalizing s calls with
  | nil =>
      cases hrun
      exact ⟨hs, by simp⟩
  | cons a as ih =>
      obtain ⟨⟨r, m⟩, hcall, hrest⟩ := Option.bind_eq_some_iff.mp hrun
      obtain ⟨⟨calls', u⟩, hrun', heq⟩ := Option.map_eq_some_iff.mp hrest
      cases heq
      obtain ⟨hm, hP⟩ := hstep hs h.1 hcall
      obtain ⟨hu, hall⟩ := ih hm (h.next hcall) hrun'
      exact ⟨hu, List.forall_mem_cons.mpr ⟨hP, hall⟩⟩

end Object

/-- `O` implements a queue of `β`s. -/
structure Queue {σ α ρ : Type*} (O : Object σ α ρ) (β : Type*) where
  inv : σ → Prop
  contents : σ → List β
  puts : α → List β
  gots : Call σ α ρ → List β
  call_spec : ∀ {s a}, inv s → O.allowed s a → ∃ r t, O.call s a = some (r, t) ∧ inv t ∧
    contents s ++ puts a = gots ⟨s, a, r, t⟩ ++ contents t

namespace Queue

variable {σ α ρ β : Type*} {O : Object σ α ρ} (Q : Queue O β) {s : σ} {as : List α}

/-- No call of a run fails, and what was taken out and what is left are what
was there and what was put in. -/
theorem run_spec (hs : Q.inv s) (h : O.Allowed s as) :
    ∃ calls t, O.run s as = some (calls, t) ∧ Q.inv t ∧
      Q.contents s ++ as.flatMap Q.puts = calls.flatMap Q.gots ++ Q.contents t := by
  induction as generalizing s with
  | nil => exact ⟨[], s, rfl, hs, by simp⟩
  | cons a as ih =>
      obtain ⟨r, m, hcall, hm, hbal⟩ := Q.call_spec hs h.1
      obtain ⟨calls, t, hrun, ht, hbal'⟩ := ih hm (h.next hcall)
      refine ⟨⟨s, a, r, m⟩ :: calls, t, by rw [Object.run_cons hcall, hrun]; rfl, ht, ?_⟩
      rw [List.flatMap_cons, List.flatMap_cons, ← List.append_assoc, hbal, List.append_assoc,
        hbal', List.append_assoc]

/-- Where the number of items a call takes out is known beforehand, so is what
is left. -/
theorem run_drop (size : α → Nat) (hs : Q.inv s) (h : O.Allowed s as)
    (hsize : ∀ {s a r t}, Q.inv s → O.allowed s a → O.call s a = some (r, t) →
      (Q.gots ⟨s, a, r, t⟩).length = size a) :
    ∃ calls t, O.run s as = some (calls, t) ∧ Q.inv t ∧
      (as.map size).sum ≤ (Q.contents s ++ as.flatMap Q.puts).length ∧
      Q.contents t = (Q.contents s ++ as.flatMap Q.puts).drop (as.map size).sum := by
  induction as generalizing s with
  | nil => exact ⟨[], s, rfl, hs, Nat.zero_le _, by simp⟩
  | cons a as ih =>
      obtain ⟨r, m, hcall, hm, hbal⟩ := Q.call_spec hs h.1
      obtain ⟨calls, t, hrun, ht, hle, hleft⟩ := ih hm (h.next hcall)
      have hlen := hsize hs h.1 hcall
      have htotal : Q.contents s ++ (a :: as).flatMap Q.puts =
          Q.gots ⟨s, a, r, m⟩ ++ (Q.contents m ++ as.flatMap Q.puts) := by
        rw [List.flatMap_cons, ← List.append_assoc, hbal, List.append_assoc]
      refine ⟨⟨s, a, r, m⟩ :: calls, t, by rw [Object.run_cons hcall, hrun]; rfl, ht, ?_, ?_⟩
      · rw [htotal, List.map_cons, List.sum_cons, List.length_append, hlen]
        exact Nat.add_le_add_left hle _
      · rw [htotal, List.map_cons, List.sum_cons, ← hlen, List.drop_length_add_append]
        exact hleft

end Queue

end Fifo
