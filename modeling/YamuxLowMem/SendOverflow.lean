/-
YamuxLowMem/SendOverflow.lean

The width of the send window.

`on_input` adds the credit of a window update to the send window unchecked,
where `poll_next` takes a chunk from it with `saturating_sub`.  The window is a
`usize`; here it is a natural number, so that a sum is seen before it is cut
off, and up to the first sum that does not fit the two are the same.

By the accounting of the two windows, what has to fit is the credit the peer has
given less the payload announced to it.  A peer that only gives exceeds any
width; one of 32 bits is exceeded by a single window update.
-/
import YamuxLowMem.HeadCredit

namespace YamuxLowMem

open Async

/-! ### The credit given -/

/-- The credit that an operation brings. -/
def PairOp.delta : PairOp → Nat
  | .input event => event.delta
  | .poll | .handle _ => 0

/-- All the credit the peer gives in the course of a run. -/
def creditGiven (ops : List PairOp) : Nat := (ops.map PairOp.delta).sum

theorem creditGiven_concat (ops : List PairOp) (op : PairOp) :
    creditGiven (ops ++ [op]) = creditGiven ops + op.delta := by
  simp [creditGiven]

namespace StreamPair

variable {p q : StreamPair}

/-- No credit comes with an event that is refused. -/
theorem onInput_error_delta {event : FrameStreamEvent} {e : YamuxStreamHeadError}
    (h : p.onInput event = (.error e, q)) : event.delta = 0 := by
  cases event with
  | data flags size | dataChunk chunk => rfl
  | windowUpdate flags delta =>
      rw [onInput_window] at h
      cases h

theorem step_delta (halive : p.headAlive) (op : PairOp) :
    total FrameStreamEvent.delta (p.step op).inputs =
      total FrameStreamEvent.delta p.inputs + op.delta := by
  cases op with
  | poll => rfl
  | handle op =>
      rw [step, (handleOp_frame op).2.2]
      rfl
  | input event =>
      cases hin : p.onInput event with
      | mk result q =>
          rw [step, hin]
          cases result with
          | ok =>
              rw [(onInput_ok halive hin).2, total_append, total_cons, total_nil]
              rfl
          | error e =>
              rw [onInput_error hin, PairOp.delta, onInput_error_delta hin, Nat.add_zero]

/-- The head takes in all the credit it is given. -/
theorem run_delta (opened : Bool) (id : StreamID) (ops : List PairOp) :
    total FrameStreamEvent.delta ((create opened id).run ops).inputs = creditGiven ops := by
  induction ops using List.reverseRecOn with
  | nil => cases opened <;> rfl
  | append_singleton ops op ih =>
      rw [run_concat, step_delta (run_reachable opened id ops).2, ih, creditGiven_concat]

/-! ### The sums -/

/-- The sum that accepting a window update comes to. -/
theorem send_add_delta (opened : Bool) (id : StreamID) (ops : List PairOp) (flags : Flags)
    (delta : UInt32) :
    ((create opened id).run ops).head.window.send + delta.toNat +
        total FrameStreamEvent.announced ((create opened id).run ops).history =
      initialWindow.toNat + creditGiven (ops ++ [.input (.windowUpdate flags delta)]) := by
  have hreach : PairReachable opened id _ := (run_reachable opened id ops).1
  have hsend := hreach.send_accounting
  have hdelta : PairOp.delta (.input (.windowUpdate flags delta)) = delta.toNat := rfl
  rw [run_delta] at hsend
  rw [creditGiven_concat, hdelta]
  omega

/-- Window updates that nothing is sent in between. -/
theorem send_updates (opened : Bool) (id : StreamID) (n : Nat) :
    ((create opened id).run
        (List.replicate n (.input (.windowUpdate Flags.empty 1)))).head.window.send =
      initialWindow.toNat + n := by
  induction n with
  | zero => cases opened <;> rfl
  | succ n ih =>
      rw [List.replicate_succ', run_concat, step, onInput_window]
      show _ + 1 = _
      rw [ih, Nat.add_assoc]

/-- No width is enough. -/
theorem send_exceeds (opened : Bool) (id : StreamID) (width : Nat) :
    ∃ ops, 2 ^ width ≤ ((create opened id).run ops).head.window.send + (1 : UInt32).toNat := by
  refine ⟨List.replicate (2 ^ width) (.input (.windowUpdate Flags.empty 1)), ?_⟩
  rw [send_updates]
  omega

end StreamPair

/-- In every run of a head, for a send window of any width: the credit of every
window update can be added to the window if and only if the initial window and
all the credit given until then exceed what fits by no more than the payload
that has been announced. -/
theorem send_addition_fits_iff (width : Nat) (opened : Bool) (id : StreamID)
    (ops : List PairOp) :
    (∀ pre flags delta, pre ++ [.input (.windowUpdate flags delta)] <+: ops →
        ((StreamPair.create opened id).run pre).head.window.send + delta.toNat < 2 ^ width) ↔
      ∀ pre flags delta, pre ++ [.input (.windowUpdate flags delta)] <+: ops →
        initialWindow.toNat + creditGiven (pre ++ [.input (.windowUpdate flags delta)]) <
          2 ^ width +
            total FrameStreamEvent.announced ((StreamPair.create opened id).run pre).history := by
  refine forall_congr' fun pre => forall_congr' fun flags => forall_congr' fun delta => ?_
  apply imp_congr_right
  intro _
  rw [← StreamPair.send_add_delta opened id pre flags delta]
  exact (Nat.add_lt_add_iff_right).symm

/-- The largest credit, given at once, does not fit into 32 bits. -/
theorem send_addition_overflows :
    ¬ ∀ width ∈ [32, 64], ∀ (opened : Bool) (id : StreamID) (ops pre : List PairOp)
      (flags : Flags) (delta : UInt32), pre ++ [.input (.windowUpdate flags delta)] <+: ops →
        ((StreamPair.create opened id).run pre).head.window.send + delta.toNat < 2 ^ width := by
  intro h
  have hfits := h 32 List.mem_cons_self false ⟨1⟩
    [.input (.windowUpdate Flags.empty 4294967295)] [] Flags.empty 4294967295 List.prefix_rfl
  exact absurd hfits (by decide)

end YamuxLowMem
