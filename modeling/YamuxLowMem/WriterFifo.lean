/-
YamuxLowMem/WriterFifo.lean

The chained writer as a queue of bytes, over all sequences of calls.

Bytes leave the writer in two ways: `consume_front` takes the first bytes of
the front slice, `pop_front` the whole front block.  The bytes behind the front
slice are a `Fifo.Queue` under both.  What `pop_front` hands out is another
matter: the view it makes of a block begins at the block's first byte, consumed
or not.  So do the views of a reader that the writer is turned into.
-/
import YamuxLowMem.RoundTrip
import YamuxLowMem.Lib.Fifo

namespace YamuxLowMem

/-! ### Writing and consuming -/

/-- The calls of a caller that takes bytes out one slice at a time. -/
inductive WriterOp where
  | writeU8 (byte : UInt8)
  | writeU16 (value : UInt16)
  | writeU32 (value : UInt32)
  | writeSlice (chunk : Bytes)
  | consumeFront (len : Nat)
  deriving DecidableEq, Repr

namespace WriterOp

def call (w : ChainedChunkBufferWriter) : WriterOp → Option ChainedChunkBufferWriter
  | writeU8 byte => ChunkBufferWriter.writeU8 w byte
  | writeU16 value => ChunkBufferWriter.writeU16 w value
  | writeU32 value => ChunkBufferWriter.writeU32 w value
  | writeSlice chunk => ChunkBufferWriter.writeSlice w chunk
  | consumeFront len => w.consumeFront len

/-- Callers keep `consume_front` within the front slice. -/
def Allowed (w : ChainedChunkBufferWriter) : WriterOp → Prop
  | consumeFront len => ∃ front ∈ w.frontSlice.join, len ≤ front.length
  | _ => True

instance (w : ChainedChunkBufferWriter) : DecidablePred (Allowed w)
  | consumeFront len =>
      inferInstanceAs (Decidable (∃ front ∈ w.frontSlice.join, len ≤ front.length))
  | writeU8 _ | writeU16 _ | writeU32 _ | writeSlice _ => isTrue trivial

/-- The bytes a call writes. -/
def written : WriterOp → Bytes
  | writeU8 byte => [byte]
  | writeU16 value => BigEndian.toBytes 2 value.toNat
  | writeU32 value => BigEndian.toBytes 4 value.toNat
  | writeSlice chunk => chunk
  | consumeFront _ => []

/-- How many bytes a call consumes. -/
def consumed : WriterOp → Nat
  | consumeFront len => len
  | _ => 0

end WriterOp

/-- The writer under these calls; none of them answers anything. -/
def consumedWriter : Fifo.Object ChainedChunkBufferWriter WriterOp Unit where
  call w op := (op.call w).map ((), ·)
  allowed := WriterOp.Allowed

instance (w : ChainedChunkBufferWriter) : DecidablePred (consumedWriter.allowed w) :=
  inferInstanceAs (DecidablePred (WriterOp.Allowed w))

namespace ChainedChunkBufferWriter

variable {w : ChainedChunkBufferWriter}

/-- A call leaves the bytes behind it: what it consumes at the front, what it
writes at the back. -/
theorem call_spec (hw : w.Wf) {op : WriterOp} (h : op.Allowed w) :
    ∃ w', op.call w = some w' ∧ w'.Wf ∧ op.consumed ≤ w.bytes.length ∧
      w'.bytes = w.bytes.drop op.consumed ++ op.written := by
  have hwrite : ∀ {w' : ChainedChunkBufferWriter} {bs : Bytes}, w'.bytes = w.bytes ++ bs →
      w'.bytes = w.bytes.drop 0 ++ bs := fun hb => hb
  cases op with
  | writeU8 byte =>
      obtain ⟨w', hcall, hw', hb⟩ := writeU8_of_wf hw byte
      exact ⟨w', hcall, hw', Nat.zero_le _, hwrite hb⟩
  | writeU16 value =>
      obtain ⟨w', hcall, hw', hb⟩ := writeU16_spec (w := w) value hw
      exact ⟨w', hcall, hw', Nat.zero_le _, hwrite hb⟩
  | writeU32 value =>
      obtain ⟨w', hcall, hw', hb⟩ := writeU32_spec (w := w) value hw
      exact ⟨w', hcall, hw', Nat.zero_le _, hwrite hb⟩
  | writeSlice chunk =>
      obtain ⟨w', hcall, hw', hb⟩ := writeSlice_of_wf hw chunk
      exact ⟨w', hcall, hw', Nat.zero_le _, hwrite hb⟩
  | consumeFront len =>
      obtain ⟨front, hfront, hle⟩ := h
      rcases frontSlice_of_wf hw with ⟨hnone, -⟩ | ⟨front', rest, hsome, -, hb, hcons⟩
      · rw [hnone] at hfront
        cases hfront
      · rw [hsome] at hfront
        cases hfront
        obtain ⟨w', hcall, hw', hb'⟩ := hcons len hle
        refine ⟨w', hcall, hw', ?_, by rw [hb']; exact (List.append_nil _).symm⟩
        rw [hb, List.length_append]
        exact Nat.le_trans hle (Nat.le_add_right _ _)

end ChainedChunkBufferWriter

/-- The unconsumed bytes are a queue. -/
def consumedWriterQueue : Fifo.Queue consumedWriter UInt8 where
  inv := ChainedChunkBufferWriter.Wf
  contents := ChainedChunkBufferWriter.bytes
  puts := WriterOp.written
  gots c := c.before.bytes.take c.op.consumed
  call_spec := by
    intro w op hw h
    obtain ⟨w', hcall, hw', hle, hb⟩ := ChainedChunkBufferWriter.call_spec hw h
    refine ⟨(), w', by simp [consumedWriter, hcall], hw', ?_⟩
    show w.bytes ++ op.written = w.bytes.take op.consumed ++ w'.bytes
    rw [hb, ← List.append_assoc, List.take_append_drop]

namespace ChainedChunkBufferWriter

variable {w : ChainedChunkBufferWriter}

theorem slices_of_wf (hw : w.Wf) :
    w.queue.mapM ChunkOwned.filledSlice = some (w.queue.map ChunkOwned.bytes) :=
  mapM_of_forall fun c hc => ChunkOwned.filledSlice_of_ordered (hw.chunks c hc).ordered

/-- A front slice is never empty, and there is none exactly when nothing is
buffered. -/
theorem frontSlice_none_iff (hw : w.Wf) :
    ∃ front, w.frontSlice = some front ∧ (front = none ↔ w.filledLen = 0) ∧ front ≠ some [] := by
  rcases frontSlice_of_wf hw with ⟨hnone, hb⟩ | ⟨front, rest, hsome, hne, hb, -⟩
  · exact ⟨none, hnone, by simp [hw.filledLen_eq, hb], by simp⟩
  · exact ⟨some front, hsome, by simp [hw.filledLen_eq, hb, hne], by simpa using hne⟩

end ChainedChunkBufferWriter

/-- After any sequence of writes and of `consume_front` calls within the front
slice, none of which panics: the filled slices of the queued chunks are, in
order, the bytes written without those consumed; `filled_len` is their number;
no slice is empty, and `front_slice` is `None` exactly when `filled_len` is 0;
and no chunk holds more than its fixed capacity. -/
theorem writer_fifo (ops : List WriterOp) (h : consumedWriter.Allowed .new ops) :
    ∃ calls w slices, consumedWriter.run .new ops = some (calls, w) ∧
      w.queue.mapM ChunkOwned.filledSlice = some slices ∧
      (ops.map WriterOp.consumed).sum ≤ (ops.flatMap WriterOp.written).length ∧
      slices.flatten = (ops.flatMap WriterOp.written).drop (ops.map WriterOp.consumed).sum ∧
      w.filledLen = slices.flatten.length ∧
      (∀ slice ∈ slices, slice ≠ []) ∧
      (∃ front, w.frontSlice = some front ∧ (front = none ↔ w.filledLen = 0) ∧ front ≠ some []) ∧
      ∀ c ∈ w.queue, c.len ≤ defaultChunkCapacity ∧
        c.data.elems.length = defaultChunkCapacity ∧ c.data.capacity = defaultChunkCapacity := by
  obtain ⟨calls, w, hrun, hw, hle, hleft⟩ :=
    consumedWriterQueue.run_drop WriterOp.consumed ChainedChunkBufferWriter.wf_new h (by
      intro w op r w' hw hop hcall
      obtain ⟨-, -, -, hle, -⟩ := ChainedChunkBufferWriter.call_spec hw hop
      exact List.length_take_of_le hle)
  have hflat : (w.queue.map ChunkOwned.bytes).flatten = w.bytes := List.flatMap_def.symm
  refine ⟨calls, w, w.queue.map ChunkOwned.bytes, hrun, ChainedChunkBufferWriter.slices_of_wf hw,
    hle, hflat.trans hleft, by rw [hflat]; exact hw.filledLen_eq, ?_,
    ChainedChunkBufferWriter.frontSlice_none_iff hw, fun c hc => ?_⟩
  · intro slice hslice
    obtain ⟨c, hc, rfl⟩ := List.mem_map.mp hslice
    exact hw.nonempty c hc
  · have hwf := hw.chunks c hc
    exact ⟨hwf.len_le, hwf.size, hwf.capacity⟩

theorem writer_fifo_partly_consumed :
    let ops : List WriterOp := [.writeU16 258, .consumeFront 1, .writeSlice [7, 8], .writeU32 1,
      .consumeFront 2, .consumeFront 0]
    consumedWriter.Allowed .new ops ∧
    ∃ calls w slices, consumedWriter.run .new ops = some (calls, w) ∧
      w.queue.mapM ChunkOwned.filledSlice = some slices ∧ slices.flatten = [8, 0, 0, 0, 1] := by
  have h : consumedWriter.Allowed .new [.writeU16 258, .consumeFront 1, .writeSlice [7, 8],
      .writeU32 1, .consumeFront 2, .consumeFront 0] := by decide +kernel
  obtain ⟨calls, w, slices, hrun, hslices, -, hflat, -⟩ := writer_fifo _ h
  exact ⟨h, calls, w, slices, hrun, hslices, hflat⟩

/-! ### Popping and converting -/

/-- The calls of a caller that takes out whole blocks as well. -/
inductive TakeOp where
  | op (op : WriterOp)
  | popFront
  deriving DecidableEq, Repr

namespace TakeOp

def call (w : ChainedChunkBufferWriter) :
    TakeOp → Option (Option ChunkView × ChainedChunkBufferWriter)
  | op o => (o.call w).map (none, ·)
  | popFront => w.popFront

def Allowed (w : ChainedChunkBufferWriter) : TakeOp → Prop
  | op o => o.Allowed w
  | popFront => True

instance (w : ChainedChunkBufferWriter) : DecidablePred (Allowed w)
  | op o => inferInstanceAs (Decidable (o.Allowed w))
  | popFront => isTrue trivial

def written : TakeOp → Bytes
  | op o => o.written
  | popFront => []

end TakeOp

def poppedWriter : Fifo.Object ChainedChunkBufferWriter TakeOp (Option ChunkView) where
  call w op := op.call w
  allowed := TakeOp.Allowed

instance (w : ChainedChunkBufferWriter) : DecidablePred (poppedWriter.allowed w) :=
  inferInstanceAs (DecidablePred (TakeOp.Allowed w))

abbrev TakeCall := Fifo.Call ChainedChunkBufferWriter TakeOp (Option ChunkView)

namespace ChainedChunkBufferWriter

/-- The bytes `front_slice` shows. -/
def shown (w : ChainedChunkBufferWriter) : Bytes := w.frontSlice.join.getD []

/-- The front block is whole: none of its bytes has been consumed. -/
def FrontWhole (w : ChainedChunkBufferWriter) : Prop := ∀ c ∈ w.queue.head?, c.consumed = 0

instance : DecidablePred FrontWhole := fun w =>
  inferInstanceAs (Decidable (∀ c ∈ w.queue.head?, c.consumed = 0))

/-- Turned into a reader, the writer has the bytes `bs`, and their number is
the length the reader reports and the total of its chunks. -/
def ConvertsTo (w : ChainedChunkBufferWriter) (bs : Bytes) : Prop :=
  let r := ChainedChunkBufferReader.ofWriter w
  (r.chunks.mapM ChunkView.len).map List.sum = some r.len ∧
    (r.chunks.mapM ChunkView.deref).map List.flatten = some bs

end ChainedChunkBufferWriter

/-- The bytes that a call takes out of the writer: consumed, or in the block
that is popped. -/
def TakeCall.taken (c : TakeCall) : Bytes :=
  match c.op with
  | .op o => c.before.shown.take o.consumed
  | .popFront => c.before.shown

/-- Where the call pops a chunk, the chunk shows what `front_slice` showed. -/
def TakeCall.YieldsFront (c : TakeCall) : Prop :=
  c.op = .popFront → c.answer.mapM ChunkView.deref = c.before.frontSlice

namespace ChainedChunkBufferWriter

variable {w w' : ChainedChunkBufferWriter}

/-- Only the front block may have been consumed in part. -/
def BehindUnread (w : ChainedChunkBufferWriter) : Prop := ∀ n ∈ w.offsets.tail, n = 0

theorem BehindUnread.mono (h : w.BehindUnread) (hsub : w'.offsets.tail ⊆ w.offsets.tail) :
    w'.BehindUnread :=
  fun n hn => h n (hsub hn)

theorem Extends.behind (h : Extends w w') (hw : w.BehindUnread) : w'.BehindUnread := by
  obtain ⟨k, hk⟩ := h
  intro n hn
  rw [hk] at hn
  rcases hoff : w.offsets with - | ⟨m, ms⟩
  · rw [hoff, List.nil_append] at hn
    exact List.eq_of_mem_replicate (List.mem_of_mem_tail hn)
  · rw [hoff, List.cons_append, List.tail_cons] at hn
    rcases List.mem_append.mp hn with hn | hn
    · exact hw n (by rw [hoff]; exact hn)
    · exact List.eq_of_mem_replicate hn

theorem unread_of_front (hw : w.BehindUnread) (hfront : w.FrontWhole) : w.Unread := by
  intro c hc
  rcases hq : w.queue with - | ⟨d, rest⟩
  · rw [hq] at hc
    cases hc
  · rw [hq] at hc
    rcases List.mem_cons.mp hc with rfl | hc
    · exact hfront c (by rw [hq]; rfl)
    · exact hw c.consumed (by rw [offsets, hq]; exact List.mem_map_of_mem hc)

theorem consumeFront_offsets {n : Nat} (h : w.consumeFront n = some w') :
    w'.offsets.tail ⊆ w.offsets.tail := by
  unfold consumeFront at h
  split at h
  · cases h
  · rename_i front rest hq
    obtain ⟨front', -, h⟩ := Option.bind_eq_some_iff.mp h
    obtain ⟨filled, -, h⟩ := Option.bind_eq_some_iff.mp h
    obtain ⟨left, -, h⟩ := Option.bind_eq_some_iff.mp h
    rw [offsets, offsets, hq]
    split at h
    · cases h
      exact List.tail_subset _
    · cases h
      exact List.Subset.refl _

theorem call_behind {op : WriterOp} (h : op.call w = some w') (hw : w.BehindUnread) :
    w'.BehindUnread := by
  have hkept := extends_kept w
  cases op with
  | writeU8 byte => exact (hkept.writeU8 (.refl w) h).behind hw
  | writeU16 value => exact (hkept.writeU16 (.refl w) h).behind hw
  | writeU32 value => exact (hkept.writeU32 (.refl w) h).behind hw
  | writeSlice chunk => exact (hkept.writeSlice (.refl w) h).behind hw
  | consumeFront len => exact hw.mono (consumeFront_offsets h)

theorem shown_of_cons {c : ChunkOwned} {rest : List ChunkOwned} (hw : w.Wf)
    (hq : w.queue = c :: rest) : w.frontSlice = some (some c.bytes) ∧ w.shown = c.bytes := by
  have hc := ChunkOwned.filledSlice_of_ordered (hw.chunks c (by simp [hq])).ordered
  have hfront : w.frontSlice = some (some c.bytes) := by simp [frontSlice, hq, hc]
  exact ⟨hfront, by rw [shown, hfront]; rfl⟩

theorem shown_of_nil (hq : w.queue = []) : w.frontSlice = some none ∧ w.shown = [] := by
  have hfront : w.frontSlice = some none := by simp [frontSlice, hq]
  exact ⟨hfront, by rw [shown, hfront]; rfl⟩

/-- Popping removes the front block and its bytes. -/
theorem popFront_of_cons {c : ChunkOwned} {rest : List ChunkOwned} (hw : w.Wf)
    (hq : w.queue = c :: rest) :
    ∃ w', w.popFront = some (some (ChunkView.ofChunk c), w') ∧ w'.Wf ∧ w'.queue = rest ∧
      w.bytes = c.bytes ++ w'.bytes := by
  have hb : w.bytes = c.bytes ++ rest.flatMap ChunkOwned.bytes := by simp [bytes, hq]
  have hlen : w.filledLen = c.bytes.length + (rest.flatMap ChunkOwned.bytes).length := by
    rw [hw.filledLen_eq, hb, List.length_append]
  have hsub : checkedSub w.filledLen c.bytes.length =
      some (w.filledLen - c.bytes.length) := checkedSub_of_le (by omega)
  have hc := ChunkOwned.filledLen_of_ordered (hw.chunks c (by simp [hq])).ordered
  refine ⟨⟨rest, w.filledLen - c.bytes.length⟩, by simp [popFront, hq, hc, hsub], ⟨?_, ?_, ?_⟩,
    rfl, hb⟩
  · exact fun d hd => hw.chunks d (by simp [hq, show d ∈ rest from hd])
  · exact fun d hd => hw.nonempty d (by simp [hq, show d ∈ rest from hd])
  · show w.filledLen - c.bytes.length = (rest.flatMap ChunkOwned.bytes).length
    omega

/-- What is allowed to be consumed is a front of what is shown. -/
theorem take_shown (hw : w.Wf) {op : WriterOp} (h : op.Allowed w) :
    w.shown.take op.consumed = w.bytes.take op.consumed := by
  cases op with
  | consumeFront len =>
      obtain ⟨front, hfront, hle⟩ := h
      rcases hq : w.queue with - | ⟨c, rest⟩
      · rw [(shown_of_nil hq).1] at hfront
        cases hfront
      · obtain ⟨hslice, hshown⟩ := shown_of_cons hw hq
        rw [hslice] at hfront
        cases hfront
        rw [hshown, show w.bytes = c.bytes ++ rest.flatMap ChunkOwned.bytes by simp [bytes, hq]]
        exact (List.take_append_of_le_length hle).symm
  | writeU8 byte | writeU16 value | writeU32 value | writeSlice chunk => rfl

/-- A view made of a block shows the block's bytes exactly when none of them
had been consumed. -/
theorem ofChunk_deref_iff {c : ChunkOwned} (hc : c.Wf) :
    (ChunkView.ofChunk c).deref = some c.bytes ↔ c.consumed = 0 := by
  have hsize : c.len ≤ c.data.elems.length := hc.size ▸ hc.len_le
  have hderef : (ChunkView.ofChunk c).deref = some (c.data.elems.take c.len) :=
    Vec.slice_of_le (Nat.zero_le _) hsize
  rw [hderef, Option.some_inj, ChunkOwned.bytes]
  constructor
  · intro h
    have hlen := congrArg List.length h
    rw [List.length_drop, List.length_take_of_le hsize] at hlen
    have hle := hc.consumed_le
    omega
  · intro h
    rw [h, List.drop_zero]

/-- The blocks hold what is unconsumed and what has been consumed. -/
theorem sum_len {queue : List ChunkOwned} (h : ∀ c ∈ queue, c.Wf) :
    (queue.map ChunkOwned.len).sum =
      (queue.flatMap ChunkOwned.bytes).length + (queue.map ChunkOwned.consumed).sum := by
  induction queue with
  | nil => rfl
  | cons c rest ih =>
      have hc := h c List.mem_cons_self
      have hlen := ChunkOwned.length_bytes hc.ordered
      have hle := hc.consumed_le
      have hrest := ih fun d hd => h d (List.mem_cons_of_mem _ hd)
      simp only [List.map_cons, List.sum_cons, List.flatMap_cons, List.length_append]
      omega

/-- The lengths of the views add up to what the reader reports exactly when
the front block is whole; and then the reader has the bytes of the writer. -/
theorem convertsTo_iff (hw : w.Wf) (hbehind : w.BehindUnread) :
    w.ConvertsTo w.bytes ↔ w.FrontWhole := by
  have hlens : (ChainedChunkBufferReader.ofWriter w).chunks.mapM ChunkView.len =
      some (w.queue.map ChunkOwned.len) := by
    rw [ChainedChunkBufferReader.ofWriter, List.mapM_map]
    exact mapM_of_forall fun c _ => checkedSub_of_le (Nat.zero_le _)
  have htotal : (w.queue.map ChunkOwned.len).sum = w.filledLen + w.offsets.sum := by
    rw [sum_len hw.chunks, hw.filledLen_eq]
    rfl
  constructor
  · rintro ⟨hlen, -⟩ c hc
    rw [hlens, Option.map_some, Option.some_inj, htotal] at hlen
    have hzero : w.offsets.sum = 0 := Nat.add_eq_left.mp hlen
    have hmem : c.consumed ∈ w.offsets := List.mem_map_of_mem (List.mem_of_mem_head? hc)
    exact List.sum_eq_zero_iff_forall_eq_nat.mp hzero c.consumed hmem
  · intro hfront
    have hunread := unread_of_front hbehind hfront
    obtain ⟨hr, hb⟩ := ofWriter_spec hw hunread
    refine ⟨?_, ?_⟩
    · have hzero : w.offsets.sum = 0 :=
        List.sum_eq_zero_iff_forall_eq_nat.mpr (unread_iff.mp hunread)
      rw [hlens, Option.map_some, htotal, hzero]
      rfl
    · rw [mapM_of_forall fun v hv => ChunkView.deref_of_wf (hr.views v hv), Option.map_some]
      exact congrArg some hb

end ChainedChunkBufferWriter

/-- Whatever the views show, the bytes behind the front slice are a queue. -/
def poppedWriterQueue : Fifo.Queue poppedWriter UInt8 where
  inv w := w.Wf ∧ w.BehindUnread
  contents := ChainedChunkBufferWriter.bytes
  puts := TakeOp.written
  gots := TakeCall.taken
  call_spec := by
    rintro w op ⟨hw, hbehind⟩ h
    cases op with
    | op o =>
        obtain ⟨w', hcall, hw', -, hb⟩ := ChainedChunkBufferWriter.call_spec hw h
        refine ⟨none, w', by simp [poppedWriter, TakeOp.call, hcall], ⟨hw', ?_⟩, ?_⟩
        · exact ChainedChunkBufferWriter.call_behind hcall hbehind
        · show w.bytes ++ o.written = w.shown.take o.consumed ++ w'.bytes
          rw [ChainedChunkBufferWriter.take_shown hw h, hb, ← List.append_assoc,
            List.take_append_drop]
    | popFront =>
        rcases hq : w.queue with - | ⟨c, rest⟩
        · refine ⟨none, w, by simp [poppedWriter, TakeOp.call,
            ChainedChunkBufferWriter.popFront, hq], ⟨hw, hbehind⟩, ?_⟩
          show w.bytes ++ [] = w.shown ++ w.bytes
          rw [(ChainedChunkBufferWriter.shown_of_nil hq).2]
          exact List.append_nil _
        · obtain ⟨w', hpop, hw', hrest, hb⟩ := ChainedChunkBufferWriter.popFront_of_cons hw hq
          refine ⟨some (.ofChunk c), w', hpop, ⟨hw', hbehind.mono ?_⟩, ?_⟩
          · rw [ChainedChunkBufferWriter.offsets, ChainedChunkBufferWriter.offsets, hrest, hq]
            exact List.tail_subset _
          · show w.bytes ++ [] = w.shown ++ w'.bytes
            rw [(ChainedChunkBufferWriter.shown_of_cons hw hq).2, hb]
            exact List.append_nil _

/-- A pop shows what `front_slice` showed exactly when the front block is whole. -/
theorem TakeCall.yieldsFront_iff {w w' : ChainedChunkBufferWriter} {op : TakeOp}
    {answer : Option ChunkView} (hw : w.Wf) (hcall : op.call w = some (answer, w')) :
    TakeCall.YieldsFront ⟨w, op, answer, w'⟩ ↔ (op = .popFront → w.FrontWhole) := by
  refine forall_congr' fun hop => ?_
  cases hop
  rcases hq : w.queue with - | ⟨c, rest⟩
  · obtain ⟨hslice, -⟩ := ChainedChunkBufferWriter.shown_of_nil hq
    rw [TakeOp.call, ChainedChunkBufferWriter.popFront, hq] at hcall
    cases hcall
    exact iff_of_true hslice.symm (fun c hc => by rw [hq] at hc; cases hc)
  · obtain ⟨hslice, -⟩ := ChainedChunkBufferWriter.shown_of_cons hw hq
    obtain ⟨w'', hpop, -⟩ := ChainedChunkBufferWriter.popFront_of_cons hw hq
    obtain ⟨rfl, rfl⟩ := Prod.mk.inj (Option.some.inj (hpop.symm.trans hcall))
    have hwhole : w.FrontWhole ↔ c.consumed = 0 := by
      rw [ChainedChunkBufferWriter.FrontWhole, hq]
      simp
    rw [hwhole, ← ChainedChunkBufferWriter.ofChunk_deref_iff (hw.chunks c (by simp [hq]))]
    show (ChunkView.ofChunk c).deref.map some = w.frontSlice ↔ _
    rw [hslice]
    simp

/-- No call of such a run panics.  All pops yield the bytes that `front_slice`
showed, and turning the writer into a reader in the end gives one with the
bytes written that are left, and their number, if and only if the front block
is whole at every pop and in the end. -/
theorem popFront_agrees_iff (ops : List TakeOp) (h : poppedWriter.Allowed .new ops) :
    ∃ calls w, poppedWriter.run .new ops = some (calls, w) ∧
      (((∀ c ∈ calls, TakeCall.YieldsFront c) ∧
          ∃ rest, ops.flatMap TakeOp.written = calls.flatMap TakeCall.taken ++ rest ∧
            w.ConvertsTo rest) ↔
        (∀ c ∈ calls, c.op = .popFront → c.before.FrontWhole) ∧ w.FrontWhole) := by
  have hinit : poppedWriterQueue.inv .new :=
    ⟨ChainedChunkBufferWriter.wf_new, fun n hn => by cases hn⟩
  obtain ⟨calls, w, hrun, ⟨hw, hbehind⟩, hbal⟩ := poppedWriterQueue.run_spec hinit h
  have hcalls : ∀ c ∈ calls,
      (TakeCall.YieldsFront c ↔ (c.op = .popFront → c.before.FrontWhole)) := by
    refine (Fifo.Object.run_forall (P := fun c : TakeCall =>
      TakeCall.YieldsFront c ↔ (c.op = .popFront → c.before.FrontWhole)) ?_ hinit h hrun).2
    intro w op answer w' hinv hop hcall
    obtain ⟨answer', w'', hcall', hinv', -⟩ := poppedWriterQueue.call_spec hinv hop
    obtain ⟨rfl, rfl⟩ := Prod.mk.inj (Option.some.inj (hcall.symm.trans hcall'))
    exact ⟨hinv', TakeCall.yieldsFront_iff hinv.1 hcall⟩
  refine ⟨calls, w, hrun, and_congr (forall₂_congr hcalls) ?_⟩
  rw [← ChainedChunkBufferWriter.convertsTo_iff hw hbehind]
  constructor
  · rintro ⟨rest, hrest, hconv⟩
    obtain rfl : rest = w.bytes := List.append_cancel_left (hrest.symm.trans hbal)
    exact hconv
  · intro hconv
    exact ⟨w.bytes, hbal, hconv⟩

/-- A block is consumed to its end, and the next one popped: the chunk and the
reader show what they should. -/
theorem popFront_agrees_whole :
    let ops : List TakeOp := [.op (.writeSlice [1, 2]), .op (.consumeFront 2), .op (.writeU8 3),
      .popFront, .op (.writeU8 4)]
    poppedWriter.Allowed .new ops ∧ ∃ calls w, poppedWriter.run .new ops = some (calls, w) ∧
      calls.flatMap TakeCall.taken = [1, 2, 3] ∧ (∀ c ∈ calls, TakeCall.YieldsFront c) ∧
      w.ConvertsTo [4] := by
  intro ops
  have h : poppedWriter.Allowed .new ops := by decide +kernel
  obtain ⟨calls, w, hrun, hiff⟩ := popFront_agrees_iff ops h
  -- no front block has been consumed in part when it is popped, or at the end
  have hwhole : ∃ x ∈ poppedWriter.run .new ops, x.1.flatMap TakeCall.taken = [1, 2, 3] ∧
      (∀ c ∈ x.1, c.op = .popFront → c.before.FrontWhole) ∧ x.2.FrontWhole := by decide +kernel
  obtain ⟨x, hx, htaken, hcalls, hend⟩ := hwhole
  obtain rfl := Option.some.inj (hrun.symm.trans hx)
  obtain ⟨hyields, rest, hrest, hconv⟩ := hiff.mpr ⟨hcalls, hend⟩
  have hwritten : ops.flatMap TakeOp.written = [1, 2, 3] ++ [4] := rfl
  rw [htaken, hwritten] at hrest
  obtain rfl := List.append_cancel_left hrest
  exact ⟨h, calls, w, hrun, htaken, hyields, hconv⟩

/-- One of two bytes is consumed.  Popping the block then yields both of them,
and a reader made of the writer has both while it reports a length of 1. -/
theorem popFront_yields_consumed :
    let ops : List TakeOp := [.op (.writeSlice [1, 2]), .op (.consumeFront 1)]
    poppedWriter.Allowed .new ops ∧ poppedWriter.Allowed .new (ops ++ [.popFront]) ∧
      (∃ x ∈ poppedWriter.run .new (ops ++ [.popFront]), ∃ c ∈ x.1, ¬ TakeCall.YieldsFront c) ∧
      ∃ x ∈ poppedWriter.run .new ops,
        ¬ ∃ rest, ops.flatMap TakeOp.written = x.1.flatMap TakeCall.taken ++ rest ∧
          x.2.ConvertsTo rest := by
  intro ops
  have hpop : ∃ x ∈ poppedWriter.run .new (ops ++ [.popFront]), ∃ c ∈ x.1,
      c.op = .popFront ∧ c.answer.mapM ChunkView.deref ≠ c.before.frontSlice := by decide +kernel
  have hconv : ∃ x ∈ poppedWriter.run .new ops,
      ((ChainedChunkBufferReader.ofWriter x.2).chunks.mapM ChunkView.len).map List.sum ≠
        some (ChainedChunkBufferReader.ofWriter x.2).len := by decide +kernel
  refine ⟨by decide +kernel, by decide +kernel, ?_, ?_⟩
  · obtain ⟨x, hx, c, hc, hop, hne⟩ := hpop
    exact ⟨x, hx, c, hc, fun h => hne (h hop)⟩
  · obtain ⟨x, hx, hne⟩ := hconv
    exact ⟨x, hx, fun ⟨rest, _, hlen, _⟩ => hne hlen⟩

end YamuxLowMem
