/-
YamuxLowMem/ViewBounds.lean

Views of views, and the bounds they keep.

`view` takes a range relative to the view it is called on, and compares the
end of the range with that view's length.  It does not compare the start with
anything: a reversed range that ends within the view is accepted, and the view
made of it has its start behind its end.  Such a view is noticed by whoever
asks it for its length, its bytes or the next one.

Nothing else goes wrong.  A call on a view within its bounds makes a view
within its bounds, unless it is a call of `view` with such a range.  Offsets
are naturals: a sum of them can only be too large for a `usize` where `view` is
given such a range, or one that ends beyond the view.
-/
import YamuxLowMem.ByteQueue
import YamuxLowMem.Lib.Run

namespace YamuxLowMem

/-- The ways from a view to a narrower one: the views that `view` and
`next_chunk` return, and what `next_u8` and `next_chunk` leave of the view they
are called on. -/
inductive Narrowing where
  | view (a b : Nat)
  | nextU8
  | nextChunk (maxLen : Nat)
  | restChunk (maxLen : Nat)

namespace Narrowing

/-- The view the call makes, if it makes one. -/
def call (v : ChunkView) : Narrowing → Option ChunkView
  | view a b => (v.view a b).bind Except.toOption
  | nextU8 => v.nextU8.map Prod.snd
  | nextChunk maxLen => (v.nextChunk maxLen).bind Prod.fst
  | restChunk maxLen => (v.nextChunk maxLen).map Prod.snd

def step (v : Option ChunkView) (n : Narrowing) : Option ChunkView := v.bind fun v => n.call v

/-- The call does not ask for a range that ends within the view but starts
behind its own end. -/
def Forward (v : ChunkView) : Narrowing → Prop
  | view a b => ∀ n ∈ v.len, b ≤ n → a ≤ b
  | _ => True

end Narrowing

namespace ChunkView

/-- The view made of a vector by the calls, if each of them makes one. -/
def narrow (value : Vec) (calls : List Narrowing) : Option ChunkView :=
  calls.foldl Narrowing.step (some (ofVec value))

/-- The view lies within its data, and no call that relies on this panics. -/
structure InBounds (v : ChunkView) : Prop where
  start_le : v.start ≤ v.stop
  stop_le : v.stop ≤ v.data.data.elems.length
  len : v.len.isSome
  deref : v.deref.isSome
  nextU8 : v.nextU8.isSome
  nextChunk : ∀ maxLen, (v.nextChunk maxLen).isSome

/-- `view(a..b)` succeeds exactly for a range of the view, and then shows the
bytes in it. -/
structure RangeExact (v : ChunkView) (a b : Nat) : Prop where
  succeeds : (∃ w, v.view a b = some (.ok w)) ↔ a ≤ b ∧ ∃ n ∈ v.len, b ≤ n
  shows : ∀ w, v.view a b = some (.ok w) →
    ∃ bytes ∈ v.deref, w.deref = some ((bytes.take b).drop a)

variable {v : ChunkView}

/-- Whatever `next_u8` answers, it leaves a view within its bounds. -/
theorem nextU8_bounds (h : v.Wf) : ∃ out v', v.nextU8 = some (out, v') ∧ v'.Wf := by
  rcases hv : v.bytes with - | ⟨b, bs⟩
  · exact ⟨none, v, nextU8_of_nil h hv, h⟩
  · obtain ⟨v', hnext, hv', -⟩ := nextU8_of_wf h hv
    exact ⟨some b, v', hnext, hv'⟩

/-- So does `next_chunk`, and the view it returns is within its bounds too. -/
theorem nextChunk_bounds (maxLen : Nat) (h : v.Wf) :
    ∃ out v', v.nextChunk maxLen = some (out, v') ∧ (∀ c ∈ out, c.Wf) ∧ v'.Wf := by
  by_cases hv : v.bytes = []
  · refine ⟨none, v, nextChunk_of_nil maxLen h hv, ?_, h⟩
    intro c hc
    cases hc
  · obtain ⟨c, v', hnext, hc, hv', -⟩ := nextChunk_of_wf maxLen h hv
    refine ⟨some c, v', hnext, ?_, hv'⟩
    intro c' hc'
    cases hc'
    exact hc

theorem inBounds_iff : v.InBounds ↔ v.Wf := by
  constructor
  · intro h
    exact ⟨h.start_le, h.stop_le⟩
  · intro h
    refine ⟨h.1, h.2, by simp [len_of_wf h], by simp [deref_of_wf h], ?_, ?_⟩
    · obtain ⟨out, v', hnext, -⟩ := nextU8_bounds h
      simp [hnext]
    · intro maxLen
      obtain ⟨out, v', hnext, -⟩ := nextChunk_bounds maxLen h
      simp [hnext]

theorem rangeExact_of_forward {a b : Nat} (h : v.Wf) (hforward : (Narrowing.view a b).Forward v) :
    v.RangeExact a b := by
  have hlen := len_of_wf h
  by_cases hb : b ≤ v.bytes.length
  · have hab : a ≤ b := hforward _ hlen hb
    have hview := view_of_le (a := a) h hb
    refine ⟨iff_of_true ⟨_, hview⟩ ⟨hab, _, hlen, hb⟩, ?_⟩
    intro w hw
    cases hview.symm.trans hw
    refine ⟨v.bytes, deref_of_wf h, ?_⟩
    rw [deref_of_wf ((wf_view_iff h hb).mpr hab), bytes_view h hb]
  · have hview := view_of_lt (a := a) h (Nat.lt_of_not_le hb)
    have hfail : ¬ ∃ w, v.view a b = some (.ok w) := by
      rintro ⟨w, hw⟩
      cases hview.symm.trans hw
    refine ⟨iff_of_false hfail ?_, fun w hw => absurd ⟨w, hw⟩ hfail⟩
    rintro ⟨-, n, hn, hle⟩
    cases hlen.symm.trans hn
    exact hb hle

/-- A call makes a view within its bounds exactly when it is not for a reversed
range. -/
theorem wf_call_iff (h : v.Wf) (n : Narrowing) : (∀ w ∈ n.call v, w.Wf) ↔ n.Forward v := by
  cases n with
  | view a b =>
      by_cases hb : b ≤ v.bytes.length
      · simp only [Narrowing.call, Narrowing.Forward, view_of_le h hb, len_of_wf h]
        simpa [hb, Except.toOption] using wf_view_iff h hb
      · simp only [Narrowing.call, Narrowing.Forward, view_of_lt h (Nat.lt_of_not_le hb),
          len_of_wf h]
        simp [hb, Except.toOption]
  | nextU8 =>
      obtain ⟨out, v', hnext, hv'⟩ := nextU8_bounds h
      refine iff_of_true ?_ trivial
      simpa [Narrowing.call, hnext] using hv'
  | nextChunk maxLen =>
      obtain ⟨out, v', hnext, hout, -⟩ := nextChunk_bounds maxLen h
      refine iff_of_true ?_ trivial
      simpa [Narrowing.call, hnext] using hout
  | restChunk maxLen =>
      obtain ⟨out, v', hnext, -, hv'⟩ := nextChunk_bounds maxLen h
      refine iff_of_true ?_ trivial
      simpa [Narrowing.call, hnext] using hv'

/-- The bounds are kept throughout exactly when no reversed range is asked for. -/
theorem narrow_wf_iff (value : Vec) (calls : List Narrowing) :
    (∀ pre, pre <+: calls → ∀ v ∈ narrow value pre, v.Wf) ↔
      ∀ pre n, pre ++ [n] <+: calls → ∀ v ∈ narrow value pre, n.Forward v := by
  apply Run.throughout_iff Narrowing.step calls (P := fun v => ∀ w ∈ v, w.Wf)
    (C := fun v n => ∀ w ∈ v, n.Forward w)
  · intro w hw
    cases hw
    exact wf_ofVec value
  · intro pre n _ hpre
    cases hv : pre.foldl Narrowing.step (some (ofVec value)) with
    | none => simp [Narrowing.step]
    | some v =>
        rw [hv] at hpre
        simpa [Narrowing.step] using wf_call_iff (hpre v rfl) n

end ChunkView

/-- In any nesting of narrowing calls on a view of a vector: every view made
lies within its data, and `view` succeeds exactly for the ranges of the view it
is called on, and shows their bytes, exactly when it is never asked for a
reversed range that ends within that view. -/
theorem view_bounds_iff (value : Vec) (calls : List Narrowing) :
    ((∀ pre, pre <+: calls → ∀ v ∈ ChunkView.narrow value pre, v.InBounds) ∧
      ∀ pre a b, pre ++ [.view a b] <+: calls →
        ∀ v ∈ ChunkView.narrow value pre, v.RangeExact a b) ↔
      ∀ pre n, pre ++ [n] <+: calls → ∀ v ∈ ChunkView.narrow value pre, n.Forward v := by
  have hiff := ChunkView.narrow_wf_iff value calls
  simp only [ChunkView.inBounds_iff]
  constructor
  · rintro ⟨hbounds, -⟩
    exact hiff.mp hbounds
  · intro hforward
    have hbounds := hiff.mpr hforward
    refine ⟨hbounds, ?_⟩
    intro pre a b hpre v hv
    have hwf : v.Wf := hbounds pre ((List.prefix_append _ _).trans hpre) v hv
    exact ChunkView.rangeExact_of_forward hwf (hforward pre _ hpre v hv)

example : (ChunkView.narrow (Vec.ofList [10, 11, 12, 13])
    [.view 1 4, .nextU8, .view 1 2]).bind ChunkView.deref = some [13] := rfl

/-- A view of three bytes returns `view(5..2)`, and every use of that panics. -/
theorem view_reversed :
    ¬ (ChunkView.ofVec (Vec.ofList [1, 2, 3])).RangeExact 5 2 ∧
      ∃ v, ChunkView.narrow (Vec.ofList [1, 2, 3]) [.view 5 2] = some v ∧
        v.start = 5 ∧ v.stop = 2 ∧ v.len = none ∧ v.deref = none ∧ v.nextU8 = none := by
  refine ⟨?_, _, rfl, rfl, rfl, rfl, rfl, rfl⟩
  intro h
  exact absurd (h.succeeds.mp ⟨_, rfl⟩).1 (by decide)

end YamuxLowMem
