/-
YamuxLowMem/Wire.lean

What the transport does to the wire.

Writing: whatever the I/O object answers, the bytes it has taken followed by
the bytes still buffered stay what they were, and grow by the encoding of each
frame sent (`Flush`, `startSend_spec`).  Reading: a call of `poll_next` yields
at most one frame, and moves the pending payload as that frame says
(`Arrival`).  No call panics.
-/
import YamuxLowMem.Decode
import YamuxLowMem.Transport

namespace YamuxLowMem

open Async

/-! ### One call of the I/O object -/

/-- The effect of one call of `poll_write` on a slice. -/
structure Offered (answer : Poll (Except IoError Nat)) (io io' : Io) (slice : Bytes) : Prop where
  reads : io'.reads = io.reads
  delivered : io'.delivered = io.delivered
  closes : io'.closes = io.closes
  writes : io'.writes <:+ io.writes
  calls : io'.calls = io.calls ++ [answer]
  pending : answer = .pending → io'.accepted = io.accepted
  error : ∀ e, answer = .ready (.error e) →
    io'.accepted = io.accepted ∧ .ready (.error e) ∈ io.writes
  taken : ∀ n, answer = .ready (.ok n) → n ≤ slice.length ∧
    io'.accepted = io.accepted ++ slice.take n ∧ io'.writes.length < io.writes.length

theorem Io.pollWrite_spec (io : Io) (slice : Bytes) :
    Offered (io.pollWrite slice).1 io (io.pollWrite slice).2 slice := by
  cases hw : io.writes with
  | nil =>
      simp only [Io.pollWrite, hw]
      exact ⟨rfl, rfl, rfl, List.nil_suffix, rfl, fun _ => rfl, fun e h => (by cases h),
        fun n h => (by cases h)⟩
  | cons answer rest =>
      have hsuffix : rest <:+ answer :: rest := List.suffix_cons _ _
      cases answer with
      | pending =>
          simp only [Io.pollWrite, hw]
          exact ⟨rfl, rfl, rfl, by rw [hw]; exact hsuffix, rfl, fun _ => rfl,
            fun e h => (by cases h), fun n h => (by cases h)⟩
      | ready r =>
          cases r with
          | error e =>
              simp only [Io.pollWrite, hw]
              refine ⟨rfl, rfl, rfl, by rw [hw]; exact hsuffix, rfl, fun h => (by cases h), ?_,
                fun n h => (by cases h)⟩
              intro e' he
              cases he
              exact ⟨rfl, by rw [hw]; exact List.mem_cons_self⟩
          | ok n =>
              simp only [Io.pollWrite, hw]
              refine ⟨rfl, rfl, rfl, by rw [hw]; exact hsuffix, rfl, fun h => (by cases h),
                fun e h => (by cases h), ?_⟩
              intro m hm
              cases hm
              exact ⟨Nat.min_le_right _ _, rfl, by rw [hw]; exact Nat.lt_succ_self _⟩

/-! ### Flushing -/

/-- What a call of `poll_write` does: `buffered` and `buffered'` are the bytes
in the write buffer before and after. -/
structure Flushed (result : Poll (Except YamuxTransportError Unit)) (io io' : Io)
    (buffered buffered' : Bytes) : Prop where
  /-- no byte is lost, invented or moved -/
  conserved : io'.accepted ++ buffered' = io.accepted ++ buffered
  shorter : buffered' <:+ buffered
  reads : io'.reads = io.reads
  delivered : io'.delivered = io.delivered
  closes : io'.closes = io.closes
  writes : io'.writes <:+ io.writes
  pending : result = .pending → io'.calls.getLast? = some .pending ∧ buffered' ≠ []
  done : result = .ready (.ok ()) → buffered' = []
  last : result ≠ .pending → buffered ≠ [] → io'.calls.getLast? ≠ some .pending
  error : ∀ e, result = .ready (.error e) → ∃ e', .ready (.error e') ∈ io.writes
  idle : buffered = [] → result = .ready (.ok ()) ∧ io' = io

theorem pollWriteLoop_spec {w : ChainedChunkBufferWriter} (io : Io) (fuel : Nat) (hw : w.Wf)
    (hfuel : io.writes.length < fuel) :
    ∃ result io' w', YamuxTransport.pollWriteLoop fuel io w = some (result, io', w') ∧ w'.Wf ∧
      Flushed result io io' w.bytes w'.bytes := by
  induction fuel generalizing io w with
  | zero => exact absurd hfuel (Nat.not_lt_zero _)
  | succ fuel ih =>
      rcases ChainedChunkBufferWriter.frontSlice_of_wf hw with
        ⟨hfront, hnil⟩ | ⟨front, rest, hfront, hne, hbytes, hconsume⟩
      · refine ⟨.ready (.ok ()), io, w, by simp [YamuxTransport.pollWriteLoop, hfront], hw, ?_⟩
        exact ⟨rfl, List.suffix_rfl, rfl, rfl, rfl, List.suffix_rfl, fun h => (by cases h),
          fun _ => hnil, fun _ h => absurd hnil h, fun e h => (by cases h), fun _ => ⟨rfl, rfl⟩⟩
      · have hnonempty : w.bytes ≠ [] := by
          rw [hbytes]
          simp [hne]
        have hoffer := io.pollWrite_spec front
        cases hanswer : io.pollWrite front with
        | mk answer io' =>
            rw [hanswer] at hoffer
            cases answer with
            | pending =>
                refine ⟨.pending, io', w,
                  by simp [YamuxTransport.pollWriteLoop, hfront, hanswer], hw, ?_⟩
                refine ⟨by rw [hoffer.pending rfl], List.suffix_rfl, hoffer.reads, hoffer.delivered,
                  hoffer.closes, hoffer.writes, fun _ => ⟨?_, hnonempty⟩, fun h => (by cases h),
                  fun h => absurd rfl h, fun e h => (by cases h), fun h => absurd h hnonempty⟩
                rw [hoffer.calls]
                exact List.getLast?_concat
            | ready r =>
                cases r with
                | error e =>
                    refine ⟨.ready (.error (.io e)), io', w,
                      by simp [YamuxTransport.pollWriteLoop, hfront, hanswer], hw, ?_⟩
                    obtain ⟨haccepted, hmem⟩ := hoffer.error e rfl
                    refine ⟨by rw [haccepted], List.suffix_rfl, hoffer.reads, hoffer.delivered,
                      hoffer.closes, hoffer.writes, fun h => (by cases h), fun h => (by cases h),
                      fun _ _ => ?_, fun _ _ => ⟨e, hmem⟩, fun h => absurd h hnonempty⟩
                    rw [hoffer.calls, List.getLast?_concat]
                    simp
                | ok n =>
                    obtain ⟨hn, haccepted, hless⟩ := hoffer.taken n rfl
                    obtain ⟨w₁, hcons, hw₁, hb₁⟩ := hconsume n hn
                    obtain ⟨result, io₂, w₂, hloop, hw₂, hflush⟩ :=
                      ih io' hw₁ (Nat.lt_of_lt_of_le hless (Nat.le_of_lt_succ hfuel))
                    refine ⟨result, io₂, w₂,
                      by simp [YamuxTransport.pollWriteLoop, hfront, hanswer, hcons, hloop],
                      hw₂, ?_⟩
                    refine ⟨?_, ?_, hflush.reads.trans hoffer.reads,
                      hflush.delivered.trans hoffer.delivered, hflush.closes.trans hoffer.closes,
                      hflush.writes.trans hoffer.writes, hflush.pending, hflush.done, ?_, ?_,
                      fun h => absurd h hnonempty⟩
                    · have hsplit : front.take n ++ (front ++ rest).drop n = front ++ rest := by
                        rw [List.drop_append_of_le_length hn, ← List.append_assoc,
                          List.take_append_drop]
                      rw [hflush.conserved, haccepted, hb₁, List.append_assoc, hbytes, hsplit]
                    · rw [hb₁] at hflush
                      exact hflush.shorter.trans (List.drop_suffix _ _)
                    · intro hresult _
                      -- either the answer was the last one, or the rest of the loop had more
                      by_cases hrest : w₁.bytes = []
                      · rw [(hflush.idle hrest).2, hoffer.calls, List.getLast?_concat]
                        simp
                      · exact hflush.last hresult hrest
                    · intro e he
                      obtain ⟨e', hmem⟩ := hflush.error e he
                      exact ⟨e', hoffer.writes.subset hmem⟩

theorem Flushed.accepted {result : Poll (Except YamuxTransportError Unit)} {io io' : Io}
    {buffered buffered' : Bytes} (h : Flushed result io io' buffered buffered') :
    io.accepted <+: io'.accepted := by
  obtain ⟨taken, htaken⟩ := h.shorter
  have hconserved := h.conserved
  rw [← htaken, ← List.append_assoc] at hconserved
  exact ⟨taken, (List.append_cancel_right hconserved).symm⟩

namespace YamuxTransport

/-- The bytes in the write buffer. -/
def buffered (t : YamuxTransport) : Bytes := t.writer.buffer.bytes

/-- What flushing does to the transport. -/
structure Flush (result : Poll (Except YamuxTransportError Unit)) (t t' : YamuxTransport) :
    Prop where
  eq : t' = { t with
    stream := t'.stream
    writer := { t.writer with buffer := t'.writer.buffer } }
  wf : t'.writer.buffer.Wf
  flushed : Flushed result t.stream t'.stream t.buffered t'.buffered

namespace Flush

variable {result : Poll (Except YamuxTransportError Unit)} {t t' : YamuxTransport}

theorem reader (h : Flush result t t') : t'.reader = t.reader := by rw [h.eq]

theorem received (h : Flush result t t') : t'.received = t.received := by rw [h.eq]

theorem sent (h : Flush result t t') : t'.sent = t.sent := by rw [h.eq]

theorem maxWriterBuffer (h : Flush result t t') : t'.maxWriterBuffer = t.maxWriterBuffer := by
  rw [h.eq]

end Flush

variable {t : YamuxTransport}

theorem pollWrite_spec (hw : t.writer.buffer.Wf) :
    ∃ result t', t.pollWrite = some (result, t') ∧ Flush result t t' := by
  obtain ⟨result, io, w, hloop, hwf, hflushed⟩ :=
    pollWriteLoop_spec t.stream (t.stream.writes.length + 1) hw (Nat.lt_succ_self _)
  refine ⟨result, { t with stream := io, writer := { t.writer with buffer := w } }, ?_, rfl, hwf,
    hflushed⟩
  simp [pollWrite, hloop]

/-- The transport refuses to be ready when a flush stops before the buffer is
below its limit. -/
theorem pollReady_spec (hw : t.writer.buffer.Wf) :
    ∃ ready result t', t.pollReady = some (ready, t') ∧ Flush result t t' ∧
      (ready.isReady = false ↔ result = .pending ∧ t.maxWriterBuffer ≤ t'.buffered.length) ∧
      (∀ r, result = .ready r → ready = .ready r) := by
  obtain ⟨result, t', hwrite, hflush⟩ := pollWrite_spec hw
  have hfilled : t'.writer.buffer.filledLen = t'.buffered.length := hflush.wf.filledLen_eq
  have hmax := hflush.maxWriterBuffer
  cases result with
  | ready r =>
      refine ⟨.ready r, .ready r, t', by simp [pollReady, hwrite], hflush, ?_, fun _ h => h⟩
      simp
  | pending =>
      by_cases hfull : t'.maxWriterBuffer ≤ t'.writer.buffer.filledLen
      · refine ⟨.pending, .pending, t', by simp [pollReady, hwrite, hfull], hflush, ?_,
          fun _ h => (by cases h)⟩
        rw [hfilled, hmax] at hfull
        simp [hfull]
      · refine ⟨.ready (.ok ()), .pending, t', by simp [pollReady, hwrite, hfull], hflush, ?_,
          fun _ h => (by cases h)⟩
        rw [hfilled, hmax] at hfull
        simp [hfull]

theorem startSend_spec (hw : t.writer.buffer.Wf) (frame : Frame) :
    ∃ t', t.startSend frame = some t' ∧ t'.writer.buffer.Wf ∧
      t'.buffered = t.buffered ++ frame.encode ∧
      t' = { t with
        writer := { t.writer with buffer := t'.writer.buffer }
        sent := t.sent ++ [frame] } := by
  obtain ⟨w, hwrite, hwf, hb⟩ := Frame.write_spec frame (w := t.writer.buffer) hw
  exact ⟨{ t with writer := { t.writer with buffer := w }, sent := t.sent ++ [frame] },
    by simp [startSend, hwrite], hwf, hb, rfl⟩

/-- `start_send` only writes to the buffer. -/
theorem startSend_eq {t' : YamuxTransport} {frame : Frame} (h : t.startSend frame = some t') :
    ∃ b, t' = { t with
      writer := { t.writer with buffer := b }
      sent := t.sent ++ [frame] } := by
  obtain ⟨b, -, ht⟩ := Option.bind_eq_some_iff.mp h
  exact ⟨b, (Option.some.inj ht).symm⟩

end YamuxTransport

/-! ### Receiving -/

/-- How a call of `poll_next` on the transport moves the pending payload. -/
inductive Arrival : Option PendingPayload → Poll (Option (Except YamuxTransportError Frame)) →
    Option PendingPayload → Prop where
  | frame {f : Frame} : f.tokens = [.head (.ok f)] →
      Arrival none (.ready (some (.ok f))) f.announced
  | chunk {p : PendingPayload} {c : Bytes} : c.length ≤ p.remain → (0 < p.remain → c ≠ []) →
      Arrival (some p) (.ready (some (.ok (.stream p.streamId (.dataChunk c)))))
        (p.advance c.length)
  | nothing {pending event} : (∀ f, event ≠ .ready (some (.ok f))) → Arrival pending event pending

/-- The frames an answer of `poll_next` yields, and what they mean. -/
def eventFrames : Poll (Option (Except YamuxTransportError Frame)) → List Frame
  | .ready (some (.ok frame)) => [frame]
  | _ => []

theorem eventFrames_eq_nil {event : Poll (Option (Except YamuxTransportError Frame))}
    (h : ∀ f, event ≠ .ready (some (.ok f))) : eventFrames event = [] := by
  unfold eventFrames
  split
  · rename_i f
    exact absurd rfl (h f)
  · rfl

def eventTokens : Poll (Option (Except YamuxTransportError Frame)) → List WireToken
  | .ready (some (.ok frame)) => frame.tokens
  | .ready (some (.error (.parserError e))) => [.head (.error e)]
  | _ => []

/-- What a reader holds, counted so that every frame lowers the count: a
header takes bytes, and so does a chunk, unless it ends an empty payload. -/
def held (pending : Option PendingPayload) (bytes : Nat) : Nat :=
  2 * bytes + if pending.isSome then 1 else 0

theorem held_add (pending : Option PendingPayload) (m n : Nat) :
    held pending (m + n) = held pending m + 2 * n := by
  rw [held, held]
  omega

theorem held_mono (pending : Option PendingPayload) {m n : Nat} (h : m ≤ n) :
    held pending m ≤ held pending n := by
  rw [held, held]
  omega

theorem held_le (pending : Option PendingPayload) (bytes : Nat) :
    2 * bytes ≤ held pending bytes ∧ held pending bytes ≤ 2 * bytes + 1 := by
  rw [held]
  split <;> omega

section OneCall

variable {pending pending' : Option PendingPayload} {bs bs' : Bytes}

theorem NextFrame.arrival {f : Frame} (h : NextFrame pending bs (.ok (some f)) pending' bs') :
    Arrival pending (.ready (some (.ok f))) pending' ∧
      held pending' bs'.length < held pending bs.length := by
  cases h with
  | @frame hd _ _ hlen hf =>
      refine ⟨.frame (refFrame_ok hf).1, ?_⟩
      have h₁ := (held_le f.announced bs'.length).2
      have h₂ := (held_le none (hd ++ bs').length).1
      rw [List.length_append, hlen] at h₂ ⊢
      rw [headerLen] at h₂ ⊢
      omega
  | @chunk p c _ hle hpos =>
      refine ⟨.chunk hle hpos, ?_⟩
      simp only [held, Option.isSome_some, if_true, List.length_append, PendingPayload.advance]
      split
      · simp only [Option.isSome_none, Bool.false_eq_true, if_false]
        omega
      · rename_i hne
        have hc : 0 < c.length := List.length_pos_iff.mpr (hpos (by omega))
        simp only [Option.isSome_some, if_true]
        omega

theorem NextFrame.none_eq (h : NextFrame pending bs (.ok none) pending' bs') :
    pending' = pending ∧ bs' = bs := by
  cases h <;> exact ⟨rfl, rfl⟩

theorem NextFrame.error_eq {e : ParserError} (h : NextFrame pending bs (.error e) pending' bs') :
    pending' = pending ∧ bs'.length ≤ bs.length := by
  cases h with
  | unknown hlen =>
      refine ⟨rfl, ?_⟩
      rw [List.length_append]
      exact Nat.le_add_left _ _

end OneCall

/-- The bytes a list of answers to `poll_read` can hand over. -/
def readable (reads : List (Poll (Except IoError Bytes))) : Bytes :=
  reads.flatMap fun
    | .ready (.ok bs) => bs
    | _ => []

namespace YamuxTransport

/-- Bytes that can still become frames. -/
def receivable (t : YamuxTransport) : Nat :=
  held t.reader.pending (t.reader.buffer.bytes.length + (readable t.stream.reads).length)

/-- What a call of `poll_next` does: the bytes `pushed` have come in. -/
structure Receive (event : Poll (Option (Except YamuxTransportError Frame)))
    (t t' : YamuxTransport) (pushed : Bytes) : Prop where
  eq : t' = { t with
    stream := { t.stream with reads := t'.stream.reads, delivered := t.stream.delivered ++ pushed }
    reader := t'.reader
    received := t.received ++ eventFrames event }
  wf : t'.reader.buffer.Wf
  arrival : Arrival t.reader.pending event t'.reader.pending
  reads : ∀ delivered tokens, ReaderInv t.reader delivered tokens →
    ReaderInv t'.reader (delivered ++ pushed) (tokens ++ eventTokens event)
  suffix : t'.stream.reads <:+ t.stream.reads
  pipe : (∀ bs, .ready (.ok bs) ∈ t.stream.reads → bs.length ≤ readBufferLen) →
    pushed ++ readable t'.stream.reads = readable t.stream.reads
  /-- the end is reported on the last answer -/
  ended : event = .ready none → .ready (.ok []) :: t'.stream.reads <:+ t.stream.reads
  ioError : ∀ e, event = .ready (some (.error (.io e))) →
    .ready (.error e) :: t'.stream.reads <:+ t.stream.reads
  work : t'.receivable ≤ t.receivable
  less : ∀ f, event = .ready (some (.ok f)) → t'.receivable < t.receivable

namespace Receive

variable {event : Poll (Option (Except YamuxTransportError Frame))} {t t' : YamuxTransport}
  {pushed : Bytes}

theorem received (h : Receive event t t' pushed) :
    t'.received = t.received ++ eventFrames event := by
  rw [h.eq]

theorem sent (h : Receive event t t' pushed) : t'.sent = t.sent := by rw [h.eq]

theorem delivered (h : Receive event t t' pushed) :
    t'.stream.delivered = t.stream.delivered ++ pushed := by
  rw [h.eq]

end Receive

variable {t : YamuxTransport}

/-- The reader finds a frame in what it holds. -/
theorem Receive.found {f : Frame} {r : FrameReader ChainedChunkBufferReader}
    (hnext : NextFrame t.reader.pending t.reader.buffer.bytes (.ok (some f)) r.pending
      r.buffer.bytes) (hw : r.buffer.Wf) :
    Receive (.ready (some (.ok f))) t ({ t with reader := r }.yieldFrame f) [] := by
  obtain ⟨harrival, hless⟩ := hnext.arrival
  have hwork : ({ t with reader := r }.yieldFrame f).receivable < t.receivable := by
    simp only [receivable, yieldFrame, held_add]
    omega
  refine ⟨?_, hw, harrival, ?_, List.suffix_rfl, fun _ => rfl, fun h => (by cases h),
    fun e h => (by cases h), Nat.le_of_lt hwork, fun _ _ => hwork⟩
  · simp [yieldFrame, eventFrames]
  · intro delivered tokens hinv
    rw [List.append_nil]
    exact ⟨hw, hnext.reads hinv.reads⟩

/-- The reader finds a header of unknown type. -/
theorem Receive.unknown {e : ParserError} {r : FrameReader ChainedChunkBufferReader}
    (hnext : NextFrame t.reader.pending t.reader.buffer.bytes (.error e) r.pending
      r.buffer.bytes) (hw : r.buffer.Wf) :
    Receive (.ready (some (.error (.parserError e)))) t { t with reader := r } [] := by
  obtain ⟨hpending, hle⟩ := hnext.error_eq
  refine ⟨?_, hw, ?_, ?_, List.suffix_rfl, fun _ => rfl, fun h => (by cases h),
    fun e h => (by cases h), ?_, fun f h => (by cases h)⟩
  · simp [eventFrames]
  · show Arrival _ _ r.pending
    rw [hpending]
    exact .nothing fun f h => (by cases h)
  · intro delivered tokens hinv
    rw [List.append_nil]
    exact ⟨hw, hnext.reads hinv.reads⟩
  · simp only [receivable, hpending, held_add]
    exact Nat.add_le_add_right (held_mono _ hle) _

/-- The reader finds nothing and goes on. -/
theorem Receive.again {event : Poll (Option (Except YamuxTransportError Frame))}
    {r : FrameReader ChainedChunkBufferReader} {t' : YamuxTransport} {pushed : Bytes}
    (hnext : NextFrame t.reader.pending t.reader.buffer.bytes (.ok none) r.pending
      r.buffer.bytes) (hw : r.buffer.Wf)
    (h : Receive event { t with reader := r } t' pushed) : Receive event t t' pushed := by
  obtain ⟨hpending, hbytes⟩ := hnext.none_eq
  have hwork : ({ t with reader := r } : YamuxTransport).receivable = t.receivable := by
    simp only [receivable, hpending, hbytes]
  refine ⟨h.eq, h.wf, ?_, ?_, h.suffix, h.pipe, h.ended, h.ioError, hwork ▸ h.work, hwork ▸ h.less⟩
  · rw [← hpending]
    exact h.arrival
  · intro delivered tokens hinv
    refine h.reads delivered tokens ⟨hw, ?_⟩
    have hreads := hnext.reads hinv.reads
    rwa [answerTokens, List.append_nil] at hreads

/-- Bytes come in. -/
theorem Receive.after {event : Poll (Option (Except YamuxTransportError Frame))}
    (r : FrameReader ChainedChunkBufferReader) {t' : YamuxTransport} {pushed bs : Bytes}
    {rest : List (Poll (Except IoError Bytes))} (hreads : t.stream.reads = .ready (.ok bs) :: rest)
    (hpending : r.pending = t.reader.pending)
    (hbytes : r.buffer.bytes = t.reader.buffer.bytes ++ bs.take readBufferLen)
    (hinv : ∀ delivered tokens, ReaderInv t.reader delivered tokens →
      ReaderInv r (delivered ++ bs.take readBufferLen) tokens)
    (h : Receive event { t with
      stream := { t.stream with
        reads := rest
        delivered := t.stream.delivered ++ bs.take readBufferLen }
      reader := r } t' pushed) : Receive event t t' (bs.take readBufferLen ++ pushed) := by
  -- what was read is counted as held instead
  have hwork : receivable { t with
      stream := { t.stream with
        reads := rest
        delivered := t.stream.delivered ++ bs.take readBufferLen }
      reader := r } ≤ t.receivable := by
    simp only [receivable, hpending, hbytes, hreads, readable, List.flatMap_cons,
      List.length_append, List.length_take]
    apply held_mono
    omega
  refine ⟨?_, h.wf, ?_, ?_, ?_, ?_, ?_, ?_, h.work.trans hwork, ?_⟩
  · rw [h.eq, List.append_assoc]
  · rw [← hpending]
    exact h.arrival
  · intro delivered tokens ht
    rw [← List.append_assoc]
    exact h.reads _ _ (hinv delivered tokens ht)
  · rw [hreads]
    exact h.suffix.trans (List.suffix_cons _ _)
  · intro hsmall
    rw [hreads] at hsmall ⊢
    have hbs := hsmall bs List.mem_cons_self
    have hrest := h.pipe fun b hb => hsmall b (List.mem_cons_of_mem _ hb)
    rw [List.take_of_length_le hbs, List.append_assoc, hrest]
    rfl
  · intro he
    rw [hreads]
    exact (h.ended he).trans (List.suffix_cons _ _)
  · intro e he
    rw [hreads]
    exact (h.ioError e he).trans (List.suffix_cons _ _)
  · intro f hf
    exact Nat.lt_of_lt_of_le (h.less f hf) hwork

/-- The I/O object has nothing for the reader, or its end, or an error. -/
theorem Receive.stop {event : Poll (Option (Except YamuxTransportError Frame))}
    {rest : List (Poll (Except IoError Bytes))} (hw : t.reader.buffer.Wf)
    (hrest : rest <:+ t.stream.reads) (hpipe : readable rest = readable t.stream.reads)
    (hframe : ∀ f, event ≠ .ready (some (.ok f))) (htokens : eventTokens event = [])
    (hended : event = .ready none → .ready (.ok []) :: rest <:+ t.stream.reads)
    (hioError : ∀ e, event = .ready (some (.error (.io e))) →
      .ready (.error e) :: rest <:+ t.stream.reads) :
    Receive event t { t with stream := { t.stream with reads := rest } } [] := by
  have hframes := eventFrames_eq_nil hframe
  refine ⟨?_, hw, .nothing hframe, ?_, hrest, fun _ => hpipe, hended, hioError, ?_,
    fun f hf => absurd hf (hframe f)⟩
  · simp [hframes]
  · intro delivered tokens hinv
    rw [htokens, List.append_nil, List.append_nil]
    exact hinv
  · simp [receivable, hpipe]

/-- The bytes of a read go behind what the reader holds. -/
theorem pushBack_arrived (hw : t.reader.buffer.Wf) {bs : Bytes} (hne : bs ≠ []) :
    ∃ r, t.reader.pushBack (ChunkView.ofVec (Vec.ofList bs)) = some r ∧ r.buffer.Wf ∧
      r.pending = t.reader.pending ∧ r.buffer.bytes = t.reader.buffer.bytes ++ bs ∧
      ∀ delivered tokens, ReaderInv t.reader delivered tokens →
        ReaderInv r (delivered ++ bs) tokens := by
  have hbytes : (ChunkView.ofVec (Vec.ofList bs)).bytes = bs := ChunkView.bytes_ofList _
  obtain ⟨b, hpush, hwb, hb⟩ := ChainedChunkBufferReader.pushBack_of_wf hw
    (ChunkView.wf_ofVec _) (by rwa [hbytes])
  rw [hbytes] at hb
  refine ⟨{ t.reader with buffer := b }, ?_, hwb, rfl, hb, ?_⟩
  · simp [FrameReader.pushBack, ChunkBufferSink.pushBack, hpush]
  · intro delivered tokens h
    refine ⟨hwb, ?_⟩
    show yamux.Reads _ _ _ b.bytes
    rw [hb]
    exact h.reads.push _

theorem readLoop_spec (fuel : Nat) (hw : t.reader.buffer.Wf)
    (hfuel : t.stream.reads.length < fuel) :
    ∃ event t' pushed, readLoop fuel t = some (event, t') ∧ Receive event t t' pushed := by
  induction fuel generalizing t with
  | zero => exact absurd hfuel (Nat.not_lt_zero _)
  | succ fuel ih =>
      cases hreads : t.stream.reads with
      | nil =>
          refine ⟨.pending, { t with stream := { t.stream with reads := [] } }, [], ?_, ?_⟩
          · simp only [readLoop, Io.pollRead, hreads, Option.pure_def]
            rw [← hreads]
          · exact .stop hw List.nil_suffix (by rw [hreads]) (fun f h => (by cases h)) rfl
              (fun h => (by cases h)) fun e h => (by cases h)
      | cons answer rest =>
          have hsuffix : rest <:+ t.stream.reads := by
            rw [hreads]
            exact List.suffix_cons _ _
          cases answer with
          | pending =>
              refine ⟨.pending, { t with stream := { t.stream with reads := rest } }, [], ?_, ?_⟩
              · simp only [readLoop, Io.pollRead, hreads, Option.pure_def]
              · exact .stop hw hsuffix (by rw [hreads]; rfl) (fun f h => (by cases h)) rfl
                  (fun h => (by cases h)) fun e h => (by cases h)
          | ready r =>
              cases r with
              | error e =>
                  refine ⟨.ready (some (.error (.io e))),
                    { t with stream := { t.stream with reads := rest } }, [], ?_, ?_⟩
                  · simp only [readLoop, Io.pollRead, hreads, Option.pure_def]
                  · refine .stop hw hsuffix (by rw [hreads]; rfl) (fun f h => (by cases h)) rfl
                      (fun h => (by cases h)) ?_
                    intro e' he
                    cases he
                    exact ⟨[], hreads.symm⟩
              | ok bs =>
                  by_cases hempty : bs.take readBufferLen = []
                  · -- a read of nothing is the end of the connection
                    have hbs : bs = [] := by
                      cases bs with
                      | nil => rfl
                      | cons b bs => cases hempty
                    subst hbs
                    refine ⟨.ready none, { t with stream := { t.stream with reads := rest } }, [],
                      ?_, ?_⟩
                    · simp [readLoop, Io.pollRead, hreads]
                    · refine .stop hw hsuffix (by rw [hreads]; rfl) (fun f h => (by cases h)) rfl
                        ?_ fun e h => (by cases h)
                      intro _
                      exact ⟨[], hreads.symm⟩
                  · obtain ⟨r₁, hpushed, hw₁, hpending, hbytes, hinv⟩ := pushBack_arrived hw hempty
                    obtain ⟨answer, r, hnext, hwr, hstep⟩ := nextFrame_spec (r := r₁) hw₁
                    have hne : (bs.take readBufferLen).isEmpty = false := by simpa using hempty
                    cases answer with
                    | error e =>
                        refine ⟨_, _, _, ?_,
                          .after r₁ hreads hpending hbytes hinv (.unknown hstep hwr)⟩
                        simp [readLoop, Io.pollRead, hreads, hne, hpushed, hnext]
                    | ok frame =>
                        cases frame with
                        | some f =>
                            refine ⟨_, _, _, ?_,
                              .after r₁ hreads hpending hbytes hinv (.found hstep hwr)⟩
                            simp [readLoop, Io.pollRead, hreads, hne, hpushed, hnext]
                        | none =>
                            -- still no whole frame: the next turn has one read less to make
                            obtain ⟨event, t', pushed, hloop, hreceive⟩ := @ih { t with
                              stream := { t.stream with
                                reads := rest
                                delivered := t.stream.delivered ++ bs.take readBufferLen }
                              reader := r } hwr (by
                                rw [hreads] at hfuel
                                exact Nat.lt_of_succ_lt_succ hfuel)
                            refine ⟨event, t', _, ?_,
                              .after r₁ hreads hpending hbytes hinv
                                (.again hstep hwr hreceive)⟩
                            simp [readLoop, Io.pollRead, hreads, hne, hpushed, hnext, hloop]

/-- A call of `poll_next` does not panic, and does what `Receive` says. -/
theorem pollNext_spec (hw : t.reader.buffer.Wf) :
    ∃ event t' pushed, t.pollNext = some (event, t') ∧ Receive event t t' pushed := by
  obtain ⟨answer, r, hnext, hwr, hstep⟩ := nextFrame_spec (r := t.reader) hw
  cases answer with
  | error e =>
      exact ⟨_, _, [], by simp [pollNext, hnext], .unknown hstep hwr⟩
  | ok frame =>
      cases frame with
      | some f => exact ⟨_, _, [], by simp [pollNext, hnext], .found hstep hwr⟩
      | none =>
          obtain ⟨event, t', pushed, hloop, hreceive⟩ :=
            readLoop_spec (t := { t with reader := r }) (t.stream.reads.length + 1) hwr
              (Nat.lt_succ_self _)
          exact ⟨event, t', pushed, by simp [pollNext, hnext, hloop], .again hstep hwr hreceive⟩

end YamuxTransport

end YamuxLowMem
