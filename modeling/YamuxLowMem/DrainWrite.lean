/-
YamuxLowMem/DrainWrite.lean

How often `poll_write` calls the I/O object.

`Io` lists finitely many answers, and so a loop over it always comes to an end.
To ask whether the loop does, it is run here against an object that is
called any number of times: `answers i` is the answer to the call `i`.  Where
the loop returns, `pollWriteLoop` does the same over the list of the answers
that it saw.

Each call that takes a byte shortens the buffer.  A call that takes none leaves
it as it was, and the loop makes the next one with the same slice.
-/
import YamuxLowMem.Wire
import YamuxLowMem.WriterFifo

namespace YamuxLowMem

open Async

abbrev WriteAnswer := Poll (Except IoError Nat)

/-- The loop of `poll_write` from the call `i` on, with at most so many calls;
the inner `none` is a loop that makes another one.  Like `Io.pollWrite` it cuts
an answer to the length of the slice.  The result comes with the number of the
next call. -/
def pollWriteWithin (answers : Nat → WriteAnswer) : Nat → Nat → ChainedChunkBufferWriter →
    Option (Option (Poll (Except YamuxTransportError Unit) × Nat × ChainedChunkBufferWriter))
  | 0, i, buffer => do
      match ← buffer.frontSlice with
      | none => return some (.ready (.ok ()), i, buffer)
      | some _ => return none
  | calls + 1, i, buffer => do
      match ← buffer.frontSlice with
      | none => return some (.ready (.ok ()), i, buffer)
      | some front =>
          match answers i with
          | .pending => return some (.pending, i + 1, buffer)
          | .ready (.error e) => return some (.ready (.error (.io e)), i + 1, buffer)
          | .ready (.ok written) =>
              pollWriteWithin answers calls (i + 1)
                (← buffer.consumeFront (min written front.length))

section Loop

variable {answers : Nat → WriteAnswer} {w : ChainedChunkBufferWriter}

theorem pollWriteWithin_nil (calls i : Nat) (hfront : w.frontSlice = some none) :
    pollWriteWithin answers calls i w = some (some (.ready (.ok ()), i, w)) := by
  cases calls <;> simp [pollWriteWithin, hfront]

/-- If no call is answered with 0 bytes, the loop returns after no more calls
than there are bytes. -/
theorem pollWriteWithin_returns {calls : Nat} (i : Nat) (hw : w.Wf)
    (hanswers : ∀ j, answers j ≠ .ready (.ok 0)) (hcalls : w.filledLen ≤ calls) :
    ∃ r, pollWriteWithin answers calls i w = some (some r) := by
  induction calls generalizing w i with
  | zero =>
      rcases ChainedChunkBufferWriter.frontSlice_of_wf hw with
        ⟨hfront, -⟩ | ⟨front, rest, -, hne, hb, -⟩
      · exact ⟨_, pollWriteWithin_nil 0 i hfront⟩
      · rw [hw.filledLen_eq, hb] at hcalls
        exact absurd (List.eq_nil_of_length_eq_zero (Nat.le_zero.mp hcalls)) (by simp [hne])
  | succ calls ih =>
      rcases ChainedChunkBufferWriter.frontSlice_of_wf hw with
        ⟨hfront, -⟩ | ⟨front, rest, hfront, hne, hb, hconsume⟩
      · exact ⟨_, pollWriteWithin_nil _ i hfront⟩
      · cases hanswer : answers i with
        | pending => exact ⟨_, by simp [pollWriteWithin, hfront, hanswer]; rfl⟩
        | ready r =>
            cases r with
            | error e => exact ⟨_, by simp [pollWriteWithin, hfront, hanswer]; rfl⟩
            | ok n =>
                have hn : n ≠ 0 := fun hz => hanswers i (by rw [hanswer, hz])
                have hpos := List.length_pos_iff.mpr hne
                obtain ⟨w', hcons, hw', hb'⟩ := hconsume (min n front.length) (Nat.min_le_right _ _)
                -- at least one byte was taken, so one call less is enough for the rest
                have hless : w'.filledLen ≤ calls := by
                  rw [hw'.filledLen_eq, hb', List.length_drop, ← hw.filledLen_eq]
                  omega
                obtain ⟨r, hr⟩ := ih (i + 1) hw' hless
                exact ⟨r, by simp [pollWriteWithin, hfront, hanswer, hcons, hr]⟩

/-- Against an object that always takes 0 bytes the loop never returns. -/
theorem pollWriteWithin_stuck (calls i : Nat) (hw : w.Wf) (hne : w.bytes ≠ []) :
    pollWriteWithin (fun _ => .ready (.ok 0)) calls i w = some none := by
  induction calls generalizing w i with
  | zero =>
      rcases ChainedChunkBufferWriter.frontSlice_of_wf hw with ⟨-, hnil⟩ | ⟨front, rest, hfront, -⟩
      · exact absurd hnil hne
      · simp [pollWriteWithin, hfront]
  | succ calls ih =>
      rcases ChainedChunkBufferWriter.frontSlice_of_wf hw with
        ⟨-, hnil⟩ | ⟨front, rest, hfront, -, -, hconsume⟩
      · exact absurd hnil hne
      · obtain ⟨w', hcons, hw', hb'⟩ := hconsume 0 (Nat.zero_le _)
        have hstep := ih (i + 1) hw' (by rw [hb']; exact hne)
        simpa [pollWriteWithin, hfront, hcons] using hstep

theorem pollWriteLoop_nil {fuel : Nat} (io : Io) (hfront : w.frontSlice = some none)
    (hfuel : 0 < fuel) :
    YamuxTransport.pollWriteLoop fuel io w = some (.ready (.ok ()), io, w) := by
  obtain ⟨fuel, rfl⟩ := Nat.exists_eq_succ_of_ne_zero (Nat.ne_of_gt hfuel)
  simp [YamuxTransport.pollWriteLoop, hfront]

/-- Over the list of the answers that the loop saw, with any after them, the
loop of the transport gives the same result, after as many calls. -/
theorem pollWriteLoop_of_within {calls i j : Nat} {result : Poll (Except YamuxTransportError Unit)}
    {w' : ChainedChunkBufferWriter}
    (h : pollWriteWithin answers calls i w = some (some (result, j, w'))) :
    ∃ made ≤ calls, j = i + made ∧
      ∀ (io : Io) (more : List WriteAnswer) (fuel : Nat),
        io.writes = (List.range' i made).map answers ++ more → made < fuel →
        ∃ io', YamuxTransport.pollWriteLoop fuel io w = some (result, io', w') ∧
          io'.calls.length = io.calls.length + made := by
  induction calls generalizing w i with
  | zero =>
      obtain ⟨front, hfront, h⟩ := Option.bind_eq_some_iff.mp h
      cases front with
      | none =>
          cases h
          exact ⟨0, Nat.le_refl _, rfl, fun io more fuel _ hfuel =>
            ⟨io, pollWriteLoop_nil io hfront hfuel, rfl⟩⟩
      | some front => cases h
  | succ calls ih =>
      obtain ⟨front, hfront, h⟩ := Option.bind_eq_some_iff.mp h
      cases front with
      | none =>
          cases h
          exact ⟨0, Nat.zero_le _, rfl, fun io more fuel _ hfuel =>
            ⟨io, pollWriteLoop_nil io hfront hfuel, rfl⟩⟩
      | some front =>
          -- the answer to this call is the first of the list
          have hfirst : ∀ {io : Io} {more : List WriteAnswer} (made : Nat),
              io.writes = (List.range' i (made + 1)).map answers ++ more →
              io.writes = answers i :: ((List.range' (i + 1) made).map answers ++ more) := by
            intro io more made hio
            rw [hio, List.range'_succ]
            rfl
          cases hanswer : answers i with
          | pending =>
              simp only [hanswer] at h
              cases h
              refine ⟨1, Nat.le_add_left _ _, rfl, fun io more fuel hio hfuel => ?_⟩
              obtain ⟨fuel, rfl⟩ := Nat.exists_eq_succ_of_ne_zero (Nat.ne_zero_of_lt hfuel)
              have hcall : io.pollWrite front =
                  (.pending, { io with writes := more, calls := io.calls ++ [.pending] }) := by
                rw [Io.pollWrite, hfirst 0 hio, hanswer]
                rfl
              exact ⟨_, by simp [YamuxTransport.pollWriteLoop, hfront, hcall]; rfl, by simp⟩
          | ready r =>
              cases r with
              | error e =>
                  simp only [hanswer] at h
                  cases h
                  refine ⟨1, Nat.le_add_left _ _, rfl, fun io more fuel hio hfuel => ?_⟩
                  obtain ⟨fuel, rfl⟩ := Nat.exists_eq_succ_of_ne_zero (Nat.ne_zero_of_lt hfuel)
                  have hcall : io.pollWrite front = (.ready (.error e),
                      { io with writes := more, calls := io.calls ++ [.ready (.error e)] }) := by
                    rw [Io.pollWrite, hfirst 0 hio, hanswer]
                    rfl
                  exact ⟨_, by simp [YamuxTransport.pollWriteLoop, hfront, hcall]; rfl, by simp⟩
              | ok n =>
                  simp only [hanswer] at h
                  obtain ⟨w₁, hcons, h⟩ := Option.bind_eq_some_iff.mp h
                  obtain ⟨made, hle, rfl, hrest⟩ := ih h
                  refine ⟨made + 1, Nat.succ_le_succ hle, by omega,
                    fun io more fuel hio hfuel => ?_⟩
                  obtain ⟨fuel, rfl⟩ := Nat.exists_eq_succ_of_ne_zero (Nat.ne_zero_of_lt hfuel)
                  let io₁ : Io := { io with
                    writes := (List.range' (i + 1) made).map answers ++ more
                    accepted := io.accepted ++ front.take (min n front.length)
                    calls := io.calls ++ [.ready (.ok (min n front.length))] }
                  have hcall : io.pollWrite front = (.ready (.ok (min n front.length)), io₁) := by
                    rw [Io.pollWrite, hfirst made hio, hanswer]
                  obtain ⟨io', hloop, hcalls⟩ :=
                    hrest io₁ more fuel rfl (Nat.lt_of_succ_lt_succ hfuel)
                  refine ⟨io', by simp [YamuxTransport.pollWriteLoop, hfront, hcall, hcons, hloop],
                    ?_⟩
                  rw [hcalls]
                  simp [io₁]
                  omega

/-- So `poll_write` itself returns that result. -/
theorem pollWrite_of_within {t : YamuxTransport} {calls j : Nat} {more : List WriteAnswer}
    {result : Poll (Except YamuxTransportError Unit)} {w' : ChainedChunkBufferWriter}
    (h : pollWriteWithin answers calls 0 t.writer.buffer = some (some (result, j, w')))
    (hio : t.stream.writes = (List.range j).map answers ++ more) :
    ∃ t', t.pollWrite = some (result, t') ∧ t'.writer.buffer = w' ∧ j ≤ calls ∧
      t'.stream.calls.length = t.stream.calls.length + j := by
  obtain ⟨made, hle, hj, hloop⟩ := pollWriteLoop_of_within h
  rw [Nat.zero_add] at hj
  subst hj
  rw [List.range_eq_range'] at hio
  have hfuel : j < t.stream.writes.length + 1 := by
    rw [hio, List.length_append, List.length_map, List.length_range']
    omega
  obtain ⟨io', hresult, hcalls⟩ := hloop t.stream more _ hio hfuel
  exact ⟨{ t with stream := io', writer := { t.writer with buffer := w' } },
    by rw [YamuxTransport.pollWrite, hresult]; rfl, rfl, hle, hcalls⟩

end Loop

/-- Whatever the write buffer has come to hold: the loop of `poll_write`
returns after at most `filled_len + 1` calls to the I/O object, whichever of the
`allowed` answers this gives, if and only if there is nothing to write or taking
0 bytes is not allowed. -/
theorem pollWrite_returns_iff (ops : List WriterOp) (h : consumedWriter.Allowed .new ops)
    (allowed : Set WriteAnswer) :
    ∃ calls w, consumedWriter.run .new ops = some (calls, w) ∧
      ((∀ answers : Nat → WriteAnswer, (∀ i, answers i ∈ allowed) →
          ∃ result j w', pollWriteWithin answers (w.filledLen + 1) 0 w =
            some (some (result, j, w'))) ↔
        w.filledLen = 0 ∨ .ready (.ok 0) ∉ allowed) := by
  obtain ⟨calls, w, hrun, hw, -⟩ :=
    consumedWriterQueue.run_spec ChainedChunkBufferWriter.wf_new h
  refine ⟨calls, w, hrun, ?_⟩
  constructor
  · intro hreturns
    by_contra hnot
    obtain ⟨hlen, hzero⟩ := not_or.mp hnot
    have hne : w.bytes ≠ [] := fun hnil => hlen (by rw [hw.filledLen_eq, hnil]; rfl)
    obtain ⟨result, j, w', hr⟩ := hreturns (fun _ => .ready (.ok 0)) fun _ => not_not.mp hzero
    rw [pollWriteWithin_stuck _ _ hw hne] at hr
    cases hr
  · rintro (hlen | hzero) answers hanswers
    · obtain ⟨front, hfront, hnone, -⟩ := ChainedChunkBufferWriter.frontSlice_none_iff hw
      rw [hnone.mpr hlen] at hfront
      exact ⟨_, _, _, pollWriteWithin_nil _ _ hfront⟩
    · obtain ⟨⟨result, j, w'⟩, hr⟩ := pollWriteWithin_returns 0 hw
        (fun i hi => hzero (hi ▸ hanswers i)) (Nat.le_succ w.filledLen)
      exact ⟨result, j, w', hr⟩

theorem pollWrite_returns_one_byte_a_call :
    consumedWriter.Allowed .new [.writeSlice [1, 2, 3]] ∧
    ∃ calls w, consumedWriter.run .new [.writeSlice [1, 2, 3]] = some (calls, w) ∧
      ∃ result j w', pollWriteWithin (fun _ => .ready (.ok 1)) (w.filledLen + 1) 0 w =
        some (some (result, j, w')) := by
  have h : consumedWriter.Allowed .new [.writeSlice [1, 2, 3]] := by decide +kernel
  obtain ⟨calls, w, hrun, hiff⟩ := pollWrite_returns_iff _ h {.ready (.ok 1)}
  exact ⟨h, calls, w, hrun, hiff.mpr (Or.inr (by simp)) _ fun _ => rfl⟩

/-- With one byte to write, and an object that takes none of it, the loop makes
any number of calls. -/
theorem pollWrite_never_returns :
    ∃ calls w, consumedWriter.run .new [.writeU8 7] = some (calls, w) ∧ w.filledLen = 1 ∧
      ∀ n, pollWriteWithin (fun _ => .ready (.ok 0)) n 0 w = some none := by
  obtain ⟨w, hw, hwf, -, hb⟩ := ChainedChunkBufferWriter.call_spec
    ChainedChunkBufferWriter.wf_new (show WriterOp.Allowed .new (.writeU8 7) from trivial)
  have hbytes : w.bytes = [7] := hb
  have hcall : consumedWriter.call .new (.writeU8 7) = some ((), w) := by
    simp [consumedWriter, hw]
  refine ⟨_, w, by rw [Fifo.Object.run_cons hcall]; rfl, by rw [hwf.filledLen_eq, hbytes]; rfl,
    fun n => pollWriteWithin_stuck n 0 hwf (by simp [hbytes])⟩

end YamuxLowMem
