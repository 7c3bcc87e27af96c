/-
YamuxLowMem/ReaderFifo.lean

The chained reader as a queue of bytes, over all sequences of calls.

The integers and the chunks that the calls return, laid out as bytes again and
joined, are a front of the bytes pushed, and the views still queued show the
rest.  `None` is an answer only where too few bytes are left: fewer than the
integer has, or none at all for a chunk; even a chunk of at most 0 bytes is
taken off a view, and is empty.
-/
import YamuxLowMem.Decode
import YamuxLowMem.Lib.Fifo

namespace YamuxLowMem

/-- The calls on a chained reader. -/
inductive QueueOp where
  | pushBack (chunk : InputChunk)
  | nextU8
  | nextU16
  | nextU32
  | nextChunk (maxLen : Nat)

/-- What the calls answer. -/
inductive QueueAnswer where
  | pushed
  | u8 (value : Option UInt8)
  | u16 (value : Option UInt16)
  | u32 (value : Option UInt32)
  | chunk (value : Option ChunkView)

namespace QueueAnswer

/-- The bytes an answer stands for, integers in network order. -/
def bytes : QueueAnswer → Bytes
  | u8 (some value) => [value]
  | u16 (some value) => BigEndian.toBytes 2 value.toNat
  | u32 (some value) => BigEndian.toBytes 4 value.toNat
  | chunk (some value) => value.deref.getD []
  | _ => []

/-- The call returned `None`. -/
def IsNone : QueueAnswer → Prop
  | u8 value => value = none
  | u16 value => value = none
  | u32 value => value = none
  | chunk value => value = none
  | pushed => False

end QueueAnswer

namespace QueueOp

def call (r : ChainedChunkBufferReader) :
    QueueOp → Option (QueueAnswer × ChainedChunkBufferReader)
  | pushBack chunk => (r.pushBack chunk.view).map (.pushed, ·)
  | nextU8 => r.nextU8.map fun x => (.u8 x.1, x.2)
  | nextU16 => (ChunkBufferReader.nextU16 r).map fun x => (.u16 x.1, x.2)
  | nextU32 => (ChunkBufferReader.nextU32 r).map fun x => (.u32 x.1, x.2)
  | nextChunk maxLen => (r.nextChunk maxLen).map fun x => (.chunk x.1, x.2)

/-- The bytes a call pushes. -/
def pushed : QueueOp → Bytes
  | pushBack chunk => chunk.view.bytes
  | _ => []

/-- How many bytes must be there for a call to return something. -/
def need : QueueOp → Nat
  | pushBack _ => 0
  | nextU8 => 1
  | nextU16 => 2
  | nextU32 => 4
  | nextChunk _ => 1

end QueueOp

/-- The reader under these calls, all of which are always allowed. -/
def queueReader : Fifo.Object ChainedChunkBufferReader QueueOp QueueAnswer where
  call r op := op.call r
  allowed _ _ := True

abbrev QueueCall := Fifo.Call ChainedChunkBufferReader QueueOp QueueAnswer

/-- A call returns `None` exactly when too few bytes are queued, and then it
leaves the queue as it was. -/
def QueueCall.NoneWhenShort (c : QueueCall) : Prop :=
  (c.answer.IsNone ↔ c.before.len < c.op.need) ∧ (c.answer.IsNone → c.after = c.before)

namespace ChainedChunkBufferReader

variable {r : ChainedChunkBufferReader}

theorem Wf.short (hr : r.Wf) {op : QueueOp} {answer : QueueAnswer} (hnone : answer.IsNone)
    (hlt : r.bytes.length < op.need) : QueueCall.NoneWhenShort ⟨r, op, answer, r⟩ := by
  refine ⟨iff_of_true hnone ?_, fun _ => rfl⟩
  show r.len < op.need
  rw [hr.len_eq]
  exact hlt

theorem Wf.enough (hr : r.Wf) {op : QueueOp} {answer : QueueAnswer} {r' : ChainedChunkBufferReader}
    (hsome : ¬ answer.IsNone) (hle : op.need ≤ r.bytes.length) :
    QueueCall.NoneWhenShort ⟨r, op, answer, r'⟩ := by
  refine ⟨iff_of_false hsome ?_, fun hnone => absurd hnone hsome⟩
  show ¬ r.len < op.need
  rw [hr.len_eq]
  exact Nat.not_lt.mpr hle

/-- One call: what it pushes comes in behind, what it answers goes out in front. -/
theorem call_spec (hr : r.Wf) (op : QueueOp) :
    ∃ answer r', op.call r = some (answer, r') ∧ r'.Wf ∧
      r.bytes ++ op.pushed = answer.bytes ++ r'.bytes ∧
      QueueCall.NoneWhenShort ⟨r, op, answer, r'⟩ := by
  cases op with
  | pushBack chunk =>
      obtain ⟨r', hpush, hr', hb⟩ := pushBack_of_wf hr chunk.wf chunk.nonempty
      exact ⟨.pushed, r', by simp [QueueOp.call, hpush], hr', hb.symm,
        hr.enough (fun h => h) (Nat.zero_le _)⟩
  | nextU8 =>
      rcases hb : r.bytes with - | ⟨b, bs⟩
      · have hcall : r.nextU8 = some (none, r) := ByteSource.nextU8_nil (r := r) hr hb
        exact ⟨.u8 none, r, by simp [QueueOp.call, hcall], hr, by rw [hb]; rfl,
          hr.short rfl (by rw [hb]; exact Nat.one_pos)⟩
      · obtain ⟨r', hcall, hr', hb'⟩ := nextU8_of_wf hr hb
        refine ⟨.u8 (some b), r', by simp [QueueOp.call, hcall], hr', ?_,
          hr.enough (fun h => by cases h) (by rw [hb]; exact Nat.le_add_left _ _)⟩
        rw [hb']
        exact List.append_nil _
  | nextU16 =>
      by_cases hlt : r.bytes.length < 2
      · have hcall := nextU16_short (r := r) hr hlt
        exact ⟨.u16 none, r, by simp [QueueOp.call, hcall], hr, List.append_nil _, hr.short rfl hlt⟩
      · obtain ⟨b₁, b₂, bs, hb⟩ : ∃ b₁ b₂ bs, r.bytes = b₁ :: b₂ :: bs := by
          rcases h : r.bytes with - | ⟨b₁, - | ⟨b₂, bs⟩⟩
          · exact absurd (by simp [h]) hlt
          · exact absurd (by simp [h]) hlt
          · exact ⟨b₁, b₂, bs, rfl⟩
        obtain ⟨r', hcall, hr', hb'⟩ := nextU16_spec (r := r) hr hb
        refine ⟨.u16 (some (BigEndian.u16 b₁ b₂)), r', by simp [QueueOp.call, hcall], hr', ?_,
          hr.enough (fun h => by cases h) (Nat.not_lt.mp hlt)⟩
        rw [QueueAnswer.bytes, BigEndian.toBytes_u16_of_bytes, hb]
        show b₁ :: b₂ :: bs ++ [] = [b₁, b₂] ++ r'.bytes
        rw [show r'.bytes = bs from hb', List.append_nil]
        rfl
  | nextU32 =>
      by_cases hlt : r.bytes.length < 4
      · have hcall := nextU32_short (r := r) hr hlt
        exact ⟨.u32 none, r, by simp [QueueOp.call, hcall], hr, List.append_nil _, hr.short rfl hlt⟩
      · obtain ⟨b₁, b₂, b₃, b₄, bs, hb⟩ :
            ∃ b₁ b₂ b₃ b₄ bs, r.bytes = b₁ :: b₂ :: b₃ :: b₄ :: bs := by
          rcases h : r.bytes with - | ⟨b₁, - | ⟨b₂, - | ⟨b₃, - | ⟨b₄, bs⟩⟩⟩⟩
          iterate 4 exact absurd (by simp [h]) hlt
          exact ⟨b₁, b₂, b₃, b₄, bs, rfl⟩
        obtain ⟨r', hcall, hr', hb'⟩ := nextU32_spec (r := r) hr hb
        refine ⟨.u32 (some (BigEndian.u32 b₁ b₂ b₃ b₄)), r', by simp [QueueOp.call, hcall], hr', ?_,
          hr.enough (fun h => by cases h) (Nat.not_lt.mp hlt)⟩
        rw [QueueAnswer.bytes, BigEndian.toBytes_u32_of_bytes, hb]
        show b₁ :: b₂ :: b₃ :: b₄ :: bs ++ [] = [b₁, b₂, b₃, b₄] ++ r'.bytes
        rw [show r'.bytes = bs from hb', List.append_nil]
        rfl
  | nextChunk maxLen =>
      by_cases hb : r.bytes = []
      · have hcall : r.nextChunk maxLen = some (none, r) :=
          ByteSource.nextChunk_nil (r := r) maxLen hr hb
        exact ⟨.chunk none, r, by simp [QueueOp.call, hcall], hr, List.append_nil _,
          hr.short rfl (by rw [hb]; exact Nat.one_pos)⟩
      · obtain ⟨v, r', c, hcall, -, hderef, hr', hsplit, -⟩ := nextChunk_of_wf maxLen hr hb
        refine ⟨.chunk (some v), r', by simp [QueueOp.call, hcall], hr', ?_,
          hr.enough (fun h => by cases h) (List.length_pos_iff.mpr hb)⟩
        rw [QueueAnswer.bytes, hderef, hsplit]
        exact List.append_nil _

end ChainedChunkBufferReader

/-- The queued bytes are a queue. -/
def queueReaderQueue : Fifo.Queue queueReader UInt8 where
  inv := ChainedChunkBufferReader.Wf
  contents := ChainedChunkBufferReader.bytes
  puts := QueueOp.pushed
  gots c := c.answer.bytes
  call_spec := by
    intro r op hr _
    obtain ⟨answer, r', hcall, hr', hbal, -⟩ := ChainedChunkBufferReader.call_spec hr op
    exact ⟨answer, r', hcall, hr', hbal⟩

/-- A `None` of `next_chunk` means that no view is queued. -/
theorem QueueCall.NoneWhenShort.nextChunk {c : QueueCall} {maxLen : Nat} (h : c.NoneWhenShort)
    (hwf : c.before.Wf) (hop : c.op = .nextChunk maxLen) (hnone : c.answer.IsNone) :
    c.before.chunks = [] := by
  have hlt := h.1.mp hnone
  rw [hop, hwf.len_eq] at hlt
  exact ChainedChunkBufferReader.chunks_eq_nil hwf
    (List.eq_nil_of_length_eq_zero (Nat.lt_one_iff.mp hlt))

/-- In any sequence of calls no call panics; the values returned and the views
that are left show the bytes pushed, in order; the length the reader reports is
the total of the queued views, none of which is empty; a call returns `None`
exactly when too few bytes are queued, which it leaves alone; so `next_chunk`
does only where no view is queued. -/
theorem reader_fifo (ops : List QueueOp) :
    ∃ calls r, queueReader.run .new ops = some (calls, r) ∧
      (∃ views, r.chunks.mapM ChunkView.deref = some views ∧ (∀ view ∈ views, view ≠ []) ∧
        ops.flatMap QueueOp.pushed = calls.flatMap (·.answer.bytes) ++ views.flatten) ∧
      (r.chunks.mapM ChunkView.len).map List.sum = some r.len ∧
      ∀ c ∈ calls, QueueCall.NoneWhenShort c ∧
        ∀ maxLen, c.op = .nextChunk maxLen → c.answer.IsNone → c.before.chunks = [] := by
  have hnew := ChainedChunkBufferReader.wf_new
  have hallowed : queueReader.Allowed .new ops :=
    Fifo.Object.allowed_of_forall (fun _ _ => trivial) ops
  obtain ⟨calls, r, hrun, hr, hbal⟩ := queueReaderQueue.run_spec hnew hallowed
  have hcalls := Fifo.Object.run_forall (P := fun c : QueueCall => c.before.Wf ∧ c.NoneWhenShort)
    (by
      intro r op answer r' hr _ hcall
      obtain ⟨answer', r'', hcall', hr', -, hshort⟩ := ChainedChunkBufferReader.call_spec hr op
      obtain ⟨rfl, rfl⟩ := Prod.mk.inj (Option.some.inj (hcall.symm.trans hcall'))
      exact ⟨hr', hr, hshort⟩) hnew hallowed hrun
  refine ⟨calls, r, hrun, ⟨_, mapM_of_forall fun v hv => ChunkView.deref_of_wf (hr.views v hv),
    ?_, hbal⟩, ?_, ?_⟩
  · intro view hview
    obtain ⟨v, hv, rfl⟩ := List.mem_map.mp hview
    exact hr.nonempty v hv
  · rw [mapM_of_forall fun v hv => ChunkView.len_of_wf (hr.views v hv), Option.map_some, hr.len_eq,
      ChainedChunkBufferReader.bytes, List.length_flatMap]
  · intro c hc
    obtain ⟨hwf, hshort⟩ := hcalls.2 c hc
    exact ⟨hshort, fun maxLen hop hnone => hshort.nextChunk hwf hop hnone⟩

end YamuxLowMem
