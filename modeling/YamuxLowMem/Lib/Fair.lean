/-
YamuxLowMem/Lib/Fair.lean

Runs without end in which every agent of a system gets its turns.

A measure that never falls and is bounded stops rising at some time.  If a turn
that does not raise it leaves its agent done, and undoes nobody, then from some
time on all agents are done (`Fair.settles`).  It does not matter in which order
the agents take their turns, nor how often, as long as nobody is left out for
ever.
-/
import Mathlib.Data.Fintype.Order
import Mathlib.Order.Lattice.Nat

namespace Run

variable {σ ι : Type*}

/-- At time `n` the agent `agent n` takes its turn, and no agent is left out
for ever. -/
structure Fair (Turn : ι → σ → σ → Prop) (run : ℕ → σ) (agent : ℕ → ι) : Prop where
  turn : ∀ n, Turn (agent n) (run n) (run (n + 1))
  again : ∀ i n, ∃ m, n ≤ m ∧ agent m = i

/-- Where every agent can always take a turn, there are runs for every order of
turns that leaves nobody out. -/
theorem exists_fair {Turn : ι → σ → σ → Prop} {P : σ → Prop} {agent : ℕ → ι}
    (hagain : ∀ i n, ∃ m, n ≤ m ∧ agent m = i) (hturn : ∀ i s, P s → ∃ t, Turn i s t ∧ P t)
    {s : σ} (hs : P s) : ∃ run, run 0 = s ∧ Fair Turn run agent := by
  choose next hnext hP using hturn
  let run : ℕ → { s // P s } := fun n =>
    n.rec ⟨s, hs⟩ fun n s => ⟨next (agent n) s.1 s.2, hP (agent n) s.1 s.2⟩
  exact ⟨fun n => (run n).1, rfl, fun n => hnext (agent n) (run n).1 (run n).2, hagain⟩

/-- A bounded monotone sequence of numbers is constant from some time on. -/
theorem exists_constant {f : ℕ → ℕ} {bound : ℕ} (hmono : Monotone f) (hbound : ∀ n, f n ≤ bound) :
    ∃ n, ∀ m, n ≤ m → f m = f n := by
  have habove : BddAbove (Set.range f) := ⟨bound, by rintro _ ⟨n, rfl⟩; exact hbound n⟩
  obtain ⟨n, hn⟩ := Nat.sSup_mem (Set.range_nonempty f) habove
  refine ⟨n, fun m hm => le_antisymm ?_ (hmono hm)⟩
  rw [hn]
  exact le_csSup habove ⟨m, rfl⟩

namespace Fair

variable {Turn : ι → σ → σ → Prop} {run : ℕ → σ} {agent : ℕ → ι} {P : σ → Prop}

/-- What every turn preserves holds throughout. -/
theorem always (h : Fair Turn run agent) (hinit : P (run 0))
    (hturn : ∀ i s t, P s → Turn i s t → P t) (n : ℕ) : P (run n) := by
  induction n with
  | zero => exact hinit
  | succ n ih => exact hturn _ _ _ ih (h.turn n)

/-- The rule for coming to rest. -/
theorem settles [Finite ι] {measure : σ → ℕ} {bound : ℕ} {done : ι → σ → Prop}
    (h : Fair Turn run agent) (hinit : P (run 0)) (hturn : ∀ i s t, P s → Turn i s t → P t)
    (hbound : ∀ s, P s → measure s ≤ bound)
    (hmono : ∀ i s t, P s → Turn i s t → measure s ≤ measure t)
    (hdone : ∀ i s t, P s → Turn i s t → measure t = measure s →
      done i t ∧ ∀ j, done j s → done j t) :
    ∃ n, ∀ m, n ≤ m → ∀ i, done i (run m) := by
  have hrun := h.always hinit hturn
  obtain ⟨n, hn⟩ := exists_constant (f := fun n => measure (run n))
    (monotone_nat_of_le_succ fun n => hmono _ _ _ (hrun n) (h.turn n)) fun n => hbound _ (hrun n)
  have hstep : ∀ m, n ≤ m → done (agent m) (run (m + 1)) ∧
      ∀ j, done j (run m) → done j (run (m + 1)) := by
    intro m hm
    apply hdone _ _ _ (hrun m) (h.turn m)
    exact (hn (m + 1) (Nat.le_succ_of_le hm)).trans (hn m hm).symm
  -- the time of the first turn an agent has from then on
  choose first hfirst hagent using fun i => h.again i n
  obtain ⟨last, hlast⟩ := Finite.exists_le first
  refine ⟨last + 1, fun m hm i => ?_⟩
  have hlater : first i + 1 ≤ m := (Nat.succ_le_succ (hlast i)).trans hm
  clear hm
  induction m, hlater using Nat.le_induction with
  | base =>
      obtain ⟨hturned, -⟩ := hstep (first i) (hfirst i)
      rwa [hagent i] at hturned
  | succ m hm ih =>
      obtain ⟨-, hkeep⟩ := hstep m ((hfirst i).trans ((Nat.le_succ _).trans hm))
      exact hkeep i ih

end Fair

end Run
