/-
YamuxLowMem/Admission.lean

The write side of the transport, by sizes alone.

The blocks of the write buffer are filled one after the other, each to its
capacity, and consumed from the front.  So two numbers tell what the I/O object
is offered: how much of the first block is gone, and how many bytes wait.
Flushing the buffer, and handing over a queue of frames, then come to what
`Gate` says of these numbers, the sizes of the frames and the answers of the
I/O object: which frames are refused, and which answers are used, can be told
from the state before a call.
-/
import YamuxLowMem.WriterFifo
import YamuxLowMem.SessionSteps
import YamuxLowMem.Lib.Gate

namespace YamuxLowMem

open Async

/-! ### The blocks of the write buffer -/

namespace ChainedChunkBufferWriter

/-- How much of the first block is gone, and how many bytes wait. -/
def gauge (w : ChainedChunkBufferWriter) : Gate.Buffer :=
  { skip := w.offsets.headD 0, len := w.filledLen }

/-- Blocks are filled to their capacity before a new one is begun. -/
structure Full (w : ChainedChunkBufferWriter) : Prop where
  chunks : ∀ c ∈ w.queue, c.Wf
  len : ∀ c ∈ w.queue.dropLast, c.len = defaultChunkCapacity

/-- The blocks of a buffer that is written to, and consumed from the front. -/
structure Packed (w : ChainedChunkBufferWriter) : Prop where
  full : w.Full
  behind : w.BehindUnread

theorem packed_new : (new : ChainedChunkBufferWriter).Packed := by
  refine ⟨⟨?_, ?_⟩, ?_⟩
  · rintro c ⟨⟩
  · rintro c ⟨⟩
  · rintro n ⟨⟩

variable {w w' : ChainedChunkBufferWriter}

/-- Either the last block has room, or it is full and a new one is called for. -/
theorem Full.lastWithRoom (h : w.Full) {room : Option ChunkOwned}
    (hroom : w.lastWithRoom = some room) :
    match room with
    | some last => w.queue = w.queue.dropLast ++ [last] ∧ last.Wf ∧ last.len < defaultChunkCapacity
    | none => ∀ c ∈ w.queue, c.len = defaultChunkCapacity := by
  unfold ChainedChunkBufferWriter.lastWithRoom at hroom
  split at hroom
  · rename_i hlast
    cases hroom
    rw [List.getLast?_eq_none_iff.mp hlast]
    exact fun c hc => absurd hc List.not_mem_nil
  · rename_i last hlast
    obtain ⟨init, hinit⟩ := List.getLast?_eq_some_iff.mp hlast
    have hq : w.queue = w.queue.dropLast ++ [last] := by rw [hinit, List.dropLast_concat]
    have hwf := h.chunks last (List.mem_of_getLast? hlast)
    have hlen := hwf.len_le
    rw [ChunkOwned.availableLen_of_wf hwf, Option.bind_eq_bind, Option.bind_some] at hroom
    split at hroom
    · cases hroom
      exact ⟨hq, hwf, by omega⟩
    · cases hroom
      intro c hc
      rw [hq] at hc
      rcases List.mem_append.mp hc with hc | hc
      · exact h.len c hc
      · rw [List.mem_singleton.mp hc]
        omega

/-- Writing into the last block. -/
theorem Full.last {last' : ChunkOwned} {n : Nat} (h : w.Full) (hlast : last'.Wf) :
    Full ⟨w.queue.dropLast ++ [last'], n⟩ := by
  refine ⟨fun c hc => ?_, fun c hc => ?_⟩
  · rcases List.mem_append.mp hc with hc | hc
    · exact h.chunks c (List.dropLast_subset _ hc)
    · rw [List.mem_singleton.mp hc]
      exact hlast
  · rw [List.dropLast_concat] at hc
    exact h.len c hc

/-- Writing into a new block. -/
theorem Full.snoc {chunk : ChunkOwned} {n : Nat} (h : w.Full)
    (hlen : ∀ c ∈ w.queue, c.len = defaultChunkCapacity) (hchunk : chunk.Wf) :
    Full ⟨w.queue ++ [chunk], n⟩ := by
  refine ⟨fun c hc => ?_, fun c hc => ?_⟩
  · rcases List.mem_append.mp hc with hc | hc
    · exact h.chunks c hc
    · rw [List.mem_singleton.mp hc]
      exact hchunk
  · rw [List.dropLast_concat] at hc
    exact hlen c hc

theorem writeSlice_wf {c c' : ChunkOwned} {bs : Bytes} (h : c.Wf)
    (hroom : c.len + bs.length ≤ defaultChunkCapacity) (hwrite : c.writeSlice bs = some c') :
    c'.Wf := by
  obtain ⟨c₁, hwrite₁, hwf, -⟩ := ChunkOwned.writeSlice_of_wf bs h hroom
  cases hwrite.symm.trans hwrite₁
  exact hwf

theorem full_writeU8 {byte : UInt8} (h : w.Full) (hw : w.writeU8 byte = some w') : w'.Full := by
  obtain ⟨room, hroom, hw⟩ := Option.bind_eq_some_iff.mp hw
  have hcases := h.lastWithRoom hroom
  cases room with
  | some last =>
      obtain ⟨last', hlast, hw⟩ := Option.bind_eq_some_iff.mp hw
      obtain ⟨-, hwf, hlt⟩ := hcases
      cases hw
      have hroom : last.len + [byte].length ≤ defaultChunkCapacity := hlt
      exact h.last (writeSlice_wf hwf hroom hlast)
  | none =>
      obtain ⟨chunk, hchunk, hw⟩ := Option.bind_eq_some_iff.mp hw
      cases hw
      have hroom : ChunkOwned.default.len + [byte].length ≤ defaultChunkCapacity :=
        Nat.succ_le_of_lt (by decide)
      exact h.snoc hcases (writeSlice_wf ChunkOwned.wf_default hroom hchunk)

theorem full_writeSliceLoop {fuel : Nat} {data : Bytes} (h : w.Full)
    (hw : writeSliceLoop fuel w data = some w') : w'.Full := by
  induction fuel generalizing w data with
  | zero =>
      cases data with
      | nil =>
          cases hw
          exact h
      | cons byte bytes => cases hw
  | succ fuel ih =>
      cases data with
      | nil =>
          cases hw
          exact h
      | cons byte bytes =>
          obtain ⟨room, hroom, hw⟩ := Option.bind_eq_some_iff.mp hw
          have hcases := h.lastWithRoom hroom
          cases room with
          | some last =>
              obtain ⟨n, hn, hw⟩ := Option.bind_eq_some_iff.mp hw
              obtain ⟨last', hlast, hw⟩ := Option.bind_eq_some_iff.mp hw
              obtain ⟨-, hwf, hlt⟩ := hcases
              obtain rfl := Option.some.inj ((ChunkOwned.availableLen_of_wf hwf).symm.trans hn)
              refine ih (h.last (writeSlice_wf hwf ?_ hlast)) hw
              rw [List.length_take]
              omega
          | none =>
              obtain ⟨n, hn, hw⟩ := Option.bind_eq_some_iff.mp hw
              obtain ⟨chunk, hchunk, hw⟩ := Option.bind_eq_some_iff.mp hw
              have hwf := ChunkOwned.wf_default
              obtain rfl := Option.some.inj ((ChunkOwned.availableLen_of_wf hwf).symm.trans hn)
              refine ih (h.snoc hcases (writeSlice_wf hwf ?_ hchunk)) hw
              rw [List.length_take, ChunkOwned.len_default]
              omega

theorem full_writeSlice {data : Bytes} (h : w.Full) (hw : w.writeSlice data = some w') :
    w'.Full := by
  unfold ChainedChunkBufferWriter.writeSlice at hw
  split at hw
  · cases hw
    exact h
  · split at hw
    · refine full_writeSliceLoop ⟨?_, ?_⟩ hw
      · intro c hc
        rw [List.mem_singleton.mp hc]
        exact ChunkOwned.wf_default
      · rintro c ⟨⟩
    · exact full_writeSliceLoop h hw

theorem full_kept : KeptByWrites Full := ⟨full_writeU8, full_writeSlice⟩

/-- Writing a frame adds its bytes at the end. -/
theorem gauge_write {f : Frame} (hw : w.Wf) (hp : w.Packed) (h : f.write w = some w') :
    w'.Packed ∧ w'.gauge = w.gauge.put f.encode.length := by
  have hext : w.Extends w' := (extends_kept w).frame (.refl w) h
  refine ⟨⟨full_kept.frame hp.full h, hext.behind hp.behind⟩, ?_⟩
  obtain ⟨w₁, hwrite, hwf, hbytes⟩ := Frame.write_spec f (w := w) hw
  cases h.symm.trans hwrite
  have hbytes' : w'.bytes = w.bytes ++ f.encode := hbytes
  have hlen : w'.filledLen = w.filledLen + f.encode.length := by
    rw [ChainedChunkBufferWriter.Wf.filledLen_eq hwf, hw.filledLen_eq, hbytes',
      List.length_append]
  have hskip : w'.offsets.headD 0 = w.offsets.headD 0 := by
    obtain ⟨k, hk⟩ := hext
    rw [hk]
    cases w.offsets with
    | nil => cases k <;> rfl
    | cons n ns => rfl
  rw [gauge, hlen, hskip]
  rfl

/-- Consuming bytes of the first block. -/
theorem consumeFront_cons {c : ChunkOwned} {rest : List ChunkOwned} {n : Nat}
    (hq : w.queue = c :: rest) (hn : c.consumed + n ≤ c.len) (hfilled : n ≤ w.filledLen) :
    w.consumeFront n = some
      { queue :=
          if c.consumed + n = c.len then rest else { c with consumed := c.consumed + n } :: rest
        filledLen := w.filledLen - n } := by
  have hleft : ChunkOwned.filledLen { c with consumed := c.consumed + n } =
      some (c.len - (c.consumed + n)) := checkedSub_of_le hn
  have hzero : c.len - (c.consumed + n) = 0 ↔ c.consumed + n = c.len := by omega
  simp only [consumeFront, hq, ChunkOwned.consumeFront, if_pos hn, checkedSub_of_le hfilled,
    Option.bind_eq_bind, Option.bind_some, hleft, hzero]
  split <;> rfl

/-- What is offered of a buffer that is not empty, and what consuming it does. -/
theorem gauge_front (hw : w.Wf) (hp : w.Packed) {front : Bytes}
    (hfront : w.frontSlice = some (some front)) :
    w.gauge.len ≠ 0 ∧ front.length = w.gauge.offered defaultChunkCapacity ∧
      ∀ n w', n ≤ front.length → w.consumeFront n = some w' → w'.Packed ∧
        w'.gauge = w.gauge.take defaultChunkCapacity n := by
  cases hq : w.queue with
  | nil => simp [frontSlice, hq] at hfront
  | cons c rest =>
      have hmem : c ∈ w.queue := by rw [hq]; exact List.mem_cons_self
      have hc := hw.chunks c hmem
      obtain rfl : c.bytes = front := by
        simpa [frontSlice, hq, ChunkOwned.filledSlice_of_ordered hc.ordered] using hfront
      have hpos := List.length_pos_iff.mpr (hw.nonempty c hmem)
      have hbytes := ChunkOwned.length_bytes hc.ordered
      have htotal : w.filledLen = c.bytes.length + (rest.flatMap ChunkOwned.bytes).length := by
        rw [hw.filledLen_eq, bytes, hq, List.flatMap_cons, List.length_append]
      have hskip : w.gauge.skip = c.consumed := by
        rw [gauge, offsets, hq]
        rfl
      have hlen_le := hc.len_le
      have hfull : ∀ d ∈ (c :: rest).dropLast, d.len = defaultChunkCapacity := by
        rw [← hq]
        exact hp.full.len
      -- the block is the last one, or full
      have hoffered : c.bytes.length = w.gauge.offered defaultChunkCapacity := by
        rw [Gate.Buffer.offered, hskip]
        show c.bytes.length = min w.filledLen _
        cases hrest : rest with
        | nil =>
            rw [hrest, List.flatMap_nil, List.length_nil] at htotal
            omega
        | cons d rest' =>
            have hlen := hfull c (by rw [hrest]; exact List.mem_cons_self)
            omega
      refine ⟨?_, hoffered, fun n w' hn hconsume => ?_⟩
      · show w.filledLen ≠ 0
        omega
      · have hbehind := hp.behind.mono (consumeFront_offsets hconsume)
        have hoffsets : ∀ m ∈ rest.map ChunkOwned.consumed, m = 0 := by
          have hall := hp.behind
          rw [BehindUnread, offsets, hq] at hall
          exact hall
        have hrest : ∀ d ∈ rest, d.Wf := fun d hd =>
          hw.chunks d (by rw [hq]; exact List.mem_cons_of_mem _ hd)
        have hle : c.consumed + n ≤ c.len := by omega
        rw [consumeFront_cons hq hle (by omega)] at hconsume
        cases hconsume
        by_cases hall : c.consumed + n = c.len
        · -- the block is used up
          have hn' : n = w.gauge.offered defaultChunkCapacity := by omega
          rw [if_pos hall] at hbehind ⊢
          refine ⟨⟨⟨hrest, ?_⟩, hbehind⟩, ?_⟩
          · cases hr : rest with
            | nil => rintro d ⟨⟩
            | cons d rest' =>
                rw [hr] at hfull
                exact fun d' hd' => hfull d' (List.mem_cons_of_mem _ hd')
          · rw [Gate.Buffer.take, if_pos hn', gauge, offsets]
            cases hr : rest with
            | nil => rfl
            | cons d rest' =>
                rw [hr] at hoffsets
                rw [List.map_cons, List.headD_cons, hoffsets d.consumed List.mem_cons_self]
                rfl
        · have hn' : n ≠ w.gauge.offered defaultChunkCapacity := by omega
          rw [if_neg hall] at hbehind ⊢
          refine ⟨⟨⟨fun d hd => ?_, fun d hd => ?_⟩, hbehind⟩, ?_⟩
          · rcases List.mem_cons.mp hd with rfl | hd
            · exact ⟨hc.size, hc.capacity, hle, hc.len_le⟩
            · exact hrest d hd
          · cases hr : rest with
            | nil =>
                rw [hr] at hd
                cases hd
            | cons d' rest' =>
                rw [hr] at hd hfull
                rw [List.dropLast_cons_cons] at hd hfull
                rcases List.mem_cons.mp hd with rfl | hd
                · exact hfull c List.mem_cons_self
                · exact hfull d (List.mem_cons_of_mem _ hd)
          · rw [Gate.Buffer.take, if_neg hn', hskip]
            rfl

end ChainedChunkBufferWriter

/-! ### Flushing -/

namespace YamuxTransport

/-- What a result of `poll_write` says of the flush. -/
def outcome : Poll (Except YamuxTransportError Unit) → Gate.Outcome
  | .pending => .blocked
  | .ready (.ok ()) => .done
  | .ready (.error _) => .failed

/-- The write buffer before a call, by sizes. -/
def gauge (t : YamuxTransport) : Gate.Buffer := t.writer.buffer.gauge

/-- What the flush of the write buffer comes to. -/
structure Gauged (result : Poll (Except YamuxTransportError Unit)) (t t' : YamuxTransport) :
    Prop where
  flush : Gate.flush defaultChunkCapacity t.stream.writes t.gauge =
    (outcome result, t'.gauge, t'.stream.writes)
  packed : t'.writer.buffer.Packed

theorem pollWriteLoop_gauge {fuel : Nat} {io io' : Io} {w w' : ChainedChunkBufferWriter}
    {result : Poll (Except YamuxTransportError Unit)} (hw : w.Wf) (hp : w.Packed)
    (h : pollWriteLoop fuel io w = some (result, io', w')) :
    Gate.flush defaultChunkCapacity io.writes w.gauge = (outcome result, w'.gauge, io'.writes) ∧
      w'.Packed := by
  induction fuel generalizing io w with
  | zero => cases h
  | succ fuel ih =>
      rcases ChainedChunkBufferWriter.frontSlice_of_wf hw with
        ⟨hfront, hnil⟩ | ⟨front, rest, hfront, hne, hbytes, hconsume⟩
      · have hlen : w.gauge.len = 0 := by
          show w.filledLen = 0
          rw [hw.filledLen_eq, hnil]
          rfl
        simp only [pollWriteLoop, hfront, Option.bind_eq_bind, Option.bind_some] at h
        cases h
        exact ⟨Gate.flush_empty hlen _, hp⟩
      · obtain ⟨hlen, hoffered, htake⟩ := ChainedChunkBufferWriter.gauge_front hw hp hfront
        simp only [pollWriteLoop, hfront, Option.bind_eq_bind, Option.bind_some, Io.pollWrite] at h
        cases hwrites : io.writes with
        | nil =>
            simp only [hwrites] at h
            cases h
            exact ⟨by simp [Gate.flush, hlen, outcome], hp⟩
        | cons answer answers =>
            simp only [hwrites] at h
            rcases answer with - | e | n
            · cases h
              exact ⟨by simp [Gate.flush, hlen, outcome], hp⟩
            · cases h
              exact ⟨by simp [Gate.flush, hlen, outcome], hp⟩
            · obtain ⟨w₁, hcons, h⟩ := Option.bind_eq_some_iff.mp h
              have hn := Nat.min_le_right n front.length
              obtain ⟨hp₁, hgauge⟩ := htake _ _ hn hcons
              obtain ⟨w₂, hcons₂, hw₁, -⟩ := hconsume _ hn
              cases hcons.symm.trans hcons₂
              obtain ⟨hflush, hp'⟩ := ih hw₁ hp₁ h
              refine ⟨?_, hp'⟩
              rw [← hflush, hgauge, hoffered]
              simp [Gate.flush, hlen]

variable {t t' : YamuxTransport}

theorem pollWrite_gauge {result : Poll (Except YamuxTransportError Unit)}
    (hw : t.writer.buffer.Wf) (hp : t.writer.buffer.Packed)
    (h : t.pollWrite = some (result, t')) : Gauged result t t' := by
  obtain ⟨⟨result', io, w⟩, hloop, heq⟩ := Option.bind_eq_some_iff.mp h
  cases heq
  obtain ⟨hflush, hpacked⟩ := pollWriteLoop_gauge hw hp hloop
  exact ⟨hflush, hpacked⟩

/-- `poll_ready` keeps a frame out exactly when the flush is blocked with the
buffer at its limit. -/
theorem pollReady_gauge {ready : Poll (Except YamuxTransportError Unit)}
    (hw : t.writer.buffer.Wf) (hp : t.writer.buffer.Packed)
    (h : t.pollReady = some (ready, t')) :
    ∃ result, Flush result t t' ∧ Gauged result t t' ∧
      (ready.isReady = false ↔ outcome result = .blocked ∧ t.maxWriterBuffer ≤ t'.gauge.len) ∧
      (outcome ready = .failed ↔ outcome result = .failed) := by
  obtain ⟨⟨result, t₁⟩, hwrite, h⟩ := Option.bind_eq_some_iff.mp h
  have hgauged := pollWrite_gauge hw hp hwrite
  obtain ⟨result', t₂, hwrite', hflush⟩ := pollWrite_spec hw
  cases hwrite.symm.trans hwrite'
  have hmax : t₁.maxWriterBuffer = t.maxWriterBuffer := hflush.maxWriterBuffer
  refine ⟨result, ?_⟩
  rcases result with - | r
  · simp only [hmax] at h
    split at h
    · rename_i hfull
      cases h
      exact ⟨hflush, hgauged, iff_of_true rfl ⟨rfl, hfull⟩, Iff.rfl⟩
    · rename_i hroom
      cases h
      exact ⟨hflush, hgauged, iff_of_false (by simp) fun hfull => hroom hfull.2,
        by simp [outcome]⟩
  · cases h
    refine ⟨hflush, hgauged, iff_of_false (by simp) ?_, Iff.rfl⟩
    rcases r with e | u <;> simp [outcome]

end YamuxTransport

/-! ### Handing over frames -/

/-- The bytes a frame takes. -/
def Frame.size (f : Frame) : Nat := f.encode.length

namespace YamuxTransport

/-- What becomes of a queue of frames, told from the state before and the
answers of the I/O object. -/
def passage (t : YamuxTransport) (queue : List Frame) : Gate.Passage IoError Frame :=
  Gate.letIn defaultChunkCapacity t.maxWriterBuffer Frame.size queue t.gauge t.stream.writes

variable {t t' : YamuxTransport}

theorem startSend_gauge {f : Frame} (hw : t.writer.buffer.Wf) (hp : t.writer.buffer.Packed)
    (h : t.startSend f = some t') :
    t'.writer.buffer.Packed ∧ t'.gauge = t.gauge.put f.size ∧ t'.stream = t.stream ∧
      t'.maxWriterBuffer = t.maxWriterBuffer := by
  obtain ⟨b, hwrite, heq⟩ := Option.bind_eq_some_iff.mp h
  cases heq
  obtain ⟨hpacked, hgauge⟩ := ChainedChunkBufferWriter.gauge_write hw hp hwrite
  exact ⟨hpacked, hgauge, rfl, rfl⟩

/-- A frame is refused, and with it the frames behind it. -/
theorem passage_refused {ready : Poll (Except YamuxTransportError Unit)} {out : Frame}
    (queue : List Frame) (hw : t.writer.buffer.Wf) (hp : t.writer.buffer.Packed)
    (hready : t.pollReady = some (ready, t')) (hr : ready.isReady = false) :
    t'.writer.buffer.Packed ∧ t'.maxWriterBuffer = t.maxWriterBuffer ∧ t.passage (out :: queue) =
      { rest := out :: queue, buffer := t'.gauge, answers := t'.stream.writes, failed := false } := by
  obtain ⟨result, hflush, hgauged, hrefused, -⟩ := pollReady_gauge hw hp hready
  obtain ⟨hblocked, hfull⟩ := hrefused.mp hr
  refine ⟨hgauged.packed, hflush.maxWriterBuffer, ?_⟩
  rw [passage, Gate.letIn]
  simp only [hgauged.flush, hblocked, hfull, and_self, if_true]

/-- A frame is admitted, and the next one follows. -/
theorem passage_admitted {ready : Poll (Except YamuxTransportError Unit)} {out : Frame}
    {t₁ : YamuxTransport} (queue : List Frame) (hw : t.writer.buffer.Wf)
    (hp : t.writer.buffer.Packed) (hready : t.pollReady = some (ready, t₁))
    (hr : ready.isReady = true) (hsend : t₁.startSend out = some t') :
    t'.writer.buffer.Wf ∧ t'.writer.buffer.Packed ∧ t'.maxWriterBuffer = t.maxWriterBuffer ∧
      t.passage (out :: queue) = { t'.passage queue with
        failed := decide (outcome ready = .failed) || (t'.passage queue).failed } := by
  obtain ⟨result, hflush, hgauged, hrefused, hfailed⟩ := pollReady_gauge hw hp hready
  obtain ⟨t₂, hsend', hw', -⟩ := startSend_spec hflush.wf out
  cases hsend.symm.trans hsend'
  obtain ⟨hp', hgauge, hstream, hmax⟩ := startSend_gauge hflush.wf hgauged.packed hsend
  have hlimit : t'.maxWriterBuffer = t.maxWriterBuffer := hmax.trans hflush.maxWriterBuffer
  have hnot : ¬ (outcome result = .blocked ∧ t.maxWriterBuffer ≤ t₁.gauge.len) := by
    rw [← hrefused, hr]
    exact Bool.noConfusion
  refine ⟨hw', hp', hlimit, ?_⟩
  rw [passage, Gate.letIn]
  simp only [hgauged.flush, if_neg hnot, passage, hgauge, hstream, hlimit, hfailed]

end YamuxTransport

/-- The transport after frames have been handed over, and the frames refused. -/
structure Handed (t t' : YamuxTransport) (queue rest : List Frame) : Prop where
  rest : (t.passage queue).rest = rest
  buffer : (t.passage queue).buffer = t'.gauge
  answers : (t.passage queue).answers = t'.stream.writes
  packed : t'.writer.buffer.Packed
  limit : t'.maxWriterBuffer = t.maxWriterBuffer

namespace YamuxSession

open YamuxTransport

/-- The send loop does what the sizes say. -/
theorem sendLoop_handed {t t' : YamuxTransport} {sent sent' : Bool} {queue rest : List Frame}
    (hw : t.writer.buffer.Wf) (hp : t.writer.buffer.Packed)
    (h : sendLoop t sent queue = some (t', rest, sent')) : Handed t t' queue rest := by
  induction queue generalizing t sent with
  | nil =>
      cases h
      exact ⟨rfl, rfl, rfl, hp, rfl⟩
  | cons out queue ih =>
      obtain ⟨⟨ready, t₁⟩, hready, h⟩ := Option.bind_eq_some_iff.mp h
      cases hr : ready.isReady with
      | false =>
          obtain ⟨hpacked, hlimit, hpass⟩ := passage_refused queue hw hp hready hr
          simp only [hr] at h
          cases h
          refine ⟨?_, ?_, ?_, hpacked, hlimit⟩ <;> rw [hpass]
      | true =>
          simp only [hr, if_true] at h
          obtain ⟨t₂, hsend, h⟩ := Option.bind_eq_some_iff.mp h
          obtain ⟨hw₂, hp₂, hlimit₂, hpass⟩ := passage_admitted queue hw hp hready hr hsend
          obtain ⟨hrest, hbuffer, hanswers, hpacked, hlimit⟩ := ih hw₂ hp₂ h
          refine ⟨?_, ?_, ?_, hpacked, hlimit.trans hlimit₂⟩ <;> rw [hpass]
          · exact hrest
          · exact hbuffer
          · exact hanswers

end YamuxSession

end YamuxLowMem
