/-
YamuxLowMem/RoundTrip.lean

What a `FrameWriter` has written, a `FrameReader` reads back.

The accepted calls of `write` leave in the buffer the pieces of a stream in
the sense of `Framing.Format.Writes`, and the reader takes such a stream apart
into the same tokens.  The buffer changes hands through `From`, which turns each
block into a view from its first byte on; so it matters that nothing has been
consumed.  The reader may cut a payload at the ends of the blocks, and the
writer is handed it in whatever pieces; what agrees is the sequence with the
chunks of a payload joined and empty chunks left out.
-/
import YamuxLowMem.StreamTokens

namespace YamuxLowMem

open Framing

/-! ### Joining the chunks of a payload -/

/-- Put a chunk before a sequence of frames, as one with a chunk that comes
first there. -/
def consChunk (id : StreamID) (chunk : Bytes) : List Frame → List Frame
  | .stream id' (.dataChunk chunk') :: fs =>
      if id' = id then .stream id (.dataChunk (chunk ++ chunk')) :: fs
      else .stream id (.dataChunk chunk) :: .stream id' (.dataChunk chunk') :: fs
  | fs => .stream id (.dataChunk chunk) :: fs

/-- The sequence with the chunks of each payload joined, and without empty ones. -/
def joinChunks : List Frame → List Frame
  | [] => []
  | .stream id (.dataChunk chunk) :: fs =>
      if chunk = [] then joinChunks fs else consChunk id chunk (joinChunks fs)
  | f :: fs => f :: joinChunks fs

/-- The frames that tokens stand for. -/
def joinTokens : List WireToken → List Frame
  | [] => []
  | .head (.ok f) :: ts => f :: joinTokens ts
  | .head (.error _) :: ts => joinTokens ts
  | .item id b :: ts => consChunk id [b] (joinTokens ts)

theorem consChunk_consChunk (id : StreamID) (c c' : Bytes) (fs : List Frame) :
    consChunk id c (consChunk id c' fs) = consChunk id (c ++ c') fs := by
  match fs with
  | [] => simp [consChunk]
  | .session event :: fs => simp [consChunk]
  | .stream id' (.data flags size) :: fs => simp [consChunk]
  | .stream id' (.windowUpdate flags delta) :: fs => simp [consChunk]
  | .stream id' (.dataChunk chunk) :: fs =>
      by_cases hid : id' = id
      · simp [consChunk, hid, List.append_assoc]
      · simp [consChunk, hid]

theorem joinTokens_items (id : StreamID) (chunk : Bytes) (ts : List WireToken) :
    joinTokens (chunk.map (.item id) ++ ts) =
      if chunk = [] then joinTokens ts else consChunk id chunk (joinTokens ts) := by
  induction chunk with
  | nil => rfl
  | cons b bs ih =>
      rw [List.map_cons, List.cons_append, joinTokens, ih, if_neg (List.cons_ne_nil b bs)]
      split
      · rename_i hnil
        rw [hnil]
      · rw [consChunk_consChunk]
        rfl

/-- The joined sequence depends on the tokens only. -/
theorem joinChunks_eq (fs : List Frame) : joinChunks fs = joinTokens (fs.flatMap Frame.tokens) := by
  induction fs with
  | nil => rfl
  | cons f fs ih =>
      rw [List.flatMap_cons]
      match f with
      | .stream id (.dataChunk chunk) => rw [joinChunks, ih, Frame.tokens, joinTokens_items]
      | .session event | .stream id (.data flags size) | .stream id (.windowUpdate flags delta) =>
          exact congrArg (_ :: ·) ih

/-! ### Nothing consumed -/

theorem ChunkOwned.writeSlice_consumed {c c' : ChunkOwned} {bs : Bytes}
    (h : c.writeSlice bs = some c') : c'.consumed = c.consumed := by
  obtain ⟨data, -, h⟩ := Option.bind_eq_some_iff.mp h
  cases h
  rfl

namespace ChainedChunkBufferWriter

/-- How far each queued block has been consumed. -/
def offsets (w : ChainedChunkBufferWriter) : List Nat := w.queue.map ChunkOwned.consumed

/-- Nothing has been consumed from the blocks in the queue. -/
def Unread (w : ChainedChunkBufferWriter) : Prop := ∀ c ∈ w.queue, c.consumed = 0

variable {w w' : ChainedChunkBufferWriter}

theorem unread_iff : w.Unread ↔ ∀ n ∈ w.offsets, n = 0 := by
  simp [Unread, offsets]

theorem lastWithRoom_queue {last : ChunkOwned} (h : w.lastWithRoom = some (some last)) :
    w.queue = w.queue.dropLast ++ [last] := by
  unfold lastWithRoom at h
  split at h
  · cases h
  · rename_i last' hlast
    obtain ⟨n, -, h⟩ := Option.bind_eq_some_iff.mp h
    split at h
    · cases h
      obtain ⟨init, hinit⟩ := List.getLast?_eq_some_iff.mp hlast
      rw [hinit, List.dropLast_concat]
    · cases h

/-- `w'` has the blocks of `w`, consumed as far, and new ones behind them. -/
def Extends (w w' : ChainedChunkBufferWriter) : Prop :=
  ∃ k, w'.offsets = w.offsets ++ List.replicate k 0

theorem Extends.refl (w : ChainedChunkBufferWriter) : Extends w w := ⟨0, (List.append_nil _).symm⟩

theorem Extends.trans {w'' : ChainedChunkBufferWriter} (h : Extends w w') (h' : Extends w' w'') :
    Extends w w'' := by
  obtain ⟨k, hk⟩ := h
  obtain ⟨l, hl⟩ := h'
  exact ⟨k + l, by rw [hl, hk, List.append_assoc, List.replicate_append_replicate]⟩

theorem Extends.unread (h : Extends w w') (hw : w.Unread) : w'.Unread := by
  obtain ⟨k, hk⟩ := h
  rw [unread_iff] at hw ⊢
  intro n hn
  rw [hk] at hn
  rcases List.mem_append.mp hn with hn | hn
  · exact hw n hn
  · exact List.eq_of_mem_replicate hn

/-- Writing into the last block. -/
theorem extends_last {last last' : ChunkOwned} {bs : Bytes} {n : Nat}
    (hroom : w.lastWithRoom = some (some last)) (hlast : last.writeSlice bs = some last') :
    Extends w ⟨w.queue.dropLast ++ [last'], n⟩ := by
  refine ⟨0, ?_⟩
  rw [offsets, offsets, lastWithRoom_queue hroom]
  simp [ChunkOwned.writeSlice_consumed hlast]

/-- Writing into a new block. -/
theorem extends_new {chunk : ChunkOwned} {bs : Bytes} {n : Nat}
    (hchunk : ChunkOwned.default.writeSlice bs = some chunk) :
    Extends w ⟨w.queue ++ [chunk], n⟩ := by
  refine ⟨1, ?_⟩
  have hzero : chunk.consumed = 0 := ChunkOwned.writeSlice_consumed hchunk
  simp [offsets, hzero]

theorem extends_writeU8 {byte : UInt8} (hw : w.writeU8 byte = some w') : Extends w w' := by
  obtain ⟨room, hroom, hw⟩ := Option.bind_eq_some_iff.mp hw
  cases room with
  | some last =>
      obtain ⟨last', hlast, hw⟩ := Option.bind_eq_some_iff.mp hw
      cases hw
      exact extends_last hroom hlast
  | none =>
      obtain ⟨chunk, hchunk, hw⟩ := Option.bind_eq_some_iff.mp hw
      cases hw
      exact extends_new hchunk

theorem extends_writeSliceLoop {fuel : Nat} {data : Bytes}
    (hw : writeSliceLoop fuel w data = some w') : Extends w w' := by
  induction fuel generalizing w data with
  | zero =>
      cases data with
      | nil =>
          cases hw
          exact .refl _
      | cons byte bytes => cases hw
  | succ fuel ih =>
      cases data with
      | nil =>
          cases hw
          exact .refl _
      | cons byte bytes =>
          obtain ⟨room, hroom, hw⟩ := Option.bind_eq_some_iff.mp hw
          cases room with
          | some last =>
              obtain ⟨n, -, hw⟩ := Option.bind_eq_some_iff.mp hw
              obtain ⟨last', hlast, hw⟩ := Option.bind_eq_some_iff.mp hw
              exact (extends_last hroom hlast).trans (ih hw)
          | none =>
              obtain ⟨n, -, hw⟩ := Option.bind_eq_some_iff.mp hw
              obtain ⟨chunk, hchunk, hw⟩ := Option.bind_eq_some_iff.mp hw
              exact (extends_new hchunk).trans (ih hw)

theorem extends_writeSlice {data : Bytes} (hw : w.writeSlice data = some w') : Extends w w' := by
  unfold ChainedChunkBufferWriter.writeSlice at hw
  split at hw
  · cases hw
    exact .refl _
  · split at hw
    · rename_i hempty
      refine Extends.trans ⟨1, ?_⟩ (extends_writeSliceLoop hw)
      rw [offsets, offsets, List.isEmpty_iff.mp hempty]
      rfl
    · exact extends_writeSliceLoop hw

/-- An unread buffer becomes a reader of the same bytes. -/
theorem ofWriter_spec (hw : w.Wf) (h : w.Unread) :
    (ChainedChunkBufferReader.ofWriter w).Wf ∧
      (ChainedChunkBufferReader.ofWriter w).bytes = w.bytes := by
  have hview : ∀ c ∈ w.queue, (ChunkView.ofChunk c).bytes = c.bytes := by
    intro c hc
    rw [ChunkOwned.bytes, h c hc]
    rfl
  have hbytes : (ChainedChunkBufferReader.ofWriter w).bytes = w.bytes := by
    rw [ChainedChunkBufferReader.bytes, ChainedChunkBufferReader.ofWriter, List.flatMap_map]
    exact List.flatMap_congr hview
  refine ⟨⟨?_, ?_, ?_⟩, hbytes⟩
  · rintro v hv
    obtain ⟨c, hc, rfl⟩ := List.mem_map.mp hv
    refine ⟨Nat.zero_le _, ?_⟩
    have hwf := hw.chunks c hc
    show c.len ≤ c.data.elems.length
    rw [hwf.size]
    exact hwf.len_le
  · rintro v hv
    obtain ⟨c, hc, rfl⟩ := List.mem_map.mp hv
    rw [hview c hc]
    exact hw.nonempty c hc
  · rw [hbytes]
    exact hw.filledLen_eq

end ChainedChunkBufferWriter

/-- Writing a byte or a slice preserves `P`. -/
structure KeptByWrites {W : Type} [ChunkBufferWriter W] (P : W → Prop) : Prop where
  writeU8 : ∀ {w w' : W} {byte : UInt8}, P w →
    ChunkBufferWriter.writeU8 w byte = some w' → P w'
  writeSlice : ∀ {w w' : W} {data : Bytes}, P w →
    ChunkBufferWriter.writeSlice w data = some w' → P w'

namespace KeptByWrites

variable {W : Type} [ChunkBufferWriter W] {P : W → Prop} {w w' : W}

theorem writeU16 (hP : KeptByWrites P) {value : UInt16} (hw : P w)
    (h : ChunkBufferWriter.writeU16 w value = some w') : P w' := by
  obtain ⟨w₁, h₁, h⟩ := Option.bind_eq_some_iff.mp h
  exact hP.writeU8 (hP.writeU8 hw h₁) h

theorem writeU32 (hP : KeptByWrites P) {value : UInt32} (hw : P w)
    (h : ChunkBufferWriter.writeU32 w value = some w') : P w' := by
  obtain ⟨w₁, h₁, h⟩ := Option.bind_eq_some_iff.mp h
  obtain ⟨w₂, h₂, h⟩ := Option.bind_eq_some_iff.mp h
  obtain ⟨w₃, h₃, h⟩ := Option.bind_eq_some_iff.mp h
  exact hP.writeU8 (hP.writeU8 (hP.writeU8 (hP.writeU8 hw h₁) h₂) h₃) h

theorem header (hP : KeptByWrites P) {hd : Header} (hw : P w) (h : hd.write w = some w') :
    P w' := by
  obtain ⟨w₁, h₁, h⟩ := Option.bind_eq_some_iff.mp h
  obtain ⟨w₂, h₂, h⟩ := Option.bind_eq_some_iff.mp h
  obtain ⟨w₃, h₃, h⟩ := Option.bind_eq_some_iff.mp h
  obtain ⟨w₄, h₄, h⟩ := Option.bind_eq_some_iff.mp h
  have hw₃ := hP.writeU16 (hP.writeU8 (hP.writeU8 hw h₁) h₂) h₃
  exact hP.writeU32 (hP.writeU32 hw₃ h₄) h

/-- So does writing a frame. -/
theorem frame (hP : KeptByWrites P) {f : Frame} (hw : P w) (h : f.write w = some w') : P w' := by
  match f with
  | .session (.ping flags code) | .session (.goAway code) => exact hP.header hw h
  | .stream id (.data flags size) | .stream id (.windowUpdate flags delta) => exact hP.header hw h
  | .stream id (.dataChunk chunk) =>
      rw [Frame.write] at h
      split at h
      · cases h
        exact hw
      · exact hP.writeSlice hw h

end KeptByWrites

theorem ChainedChunkBufferWriter.extends_kept (w : ChainedChunkBufferWriter) :
    KeptByWrites w.Extends :=
  ⟨fun h hw => h.trans (extends_writeU8 hw), fun h hw => h.trans (extends_writeSlice hw)⟩

/-! ### Writing -/

/-- The answers of the calls of `write` in a run, and the writer after it. -/
def runWriter : FrameWriter ChainedChunkBufferWriter → List Frame →
    Option (List (Except FrameWriterError Unit) × FrameWriter ChainedChunkBufferWriter)
  | w, [] => some ([], w)
  | w, frame :: frames => do
      let (answer, w) ← w.write frame
      let (answers, w) ← runWriter w frames
      return (answer :: answers, w)

/-- The frames that were accepted. -/
def acceptedFrames : List Frame → List (Except FrameWriterError Unit) → List Frame
  | frame :: frames, .ok () :: answers => frame :: acceptedFrames frames answers
  | _ :: frames, .error _ :: answers => acceptedFrames frames answers
  | _, _ => []

/-- A frame is accepted where it may follow. -/
theorem track_writes {pending pending' : Option PendingPayload} {frame : Frame}
    {pieces : List (Format.Piece UInt8 (Except ParserError Frame) StreamID)}
    (h : FrameWriter.track pending frame = .ok pending')
    (hrest : yamux.Writes (pending'.map PendingPayload.due) pieces) :
    yamux.Writes (pending.map PendingPayload.due) (frame.piece :: pieces) := by
  have hhead : ∀ {hd : Header}, frame.header = some hd →
      yamux.Writes (yamux.payload (.ok frame)) pieces →
      yamux.Writes none (.head (.ok frame) frame.encode :: pieces) :=
    fun hheader => .head (Or.inl rfl) (Frame.length_encode hheader) (refFrame_encode hheader)
  cases pending with
  | none =>
      match frame with
      | .session (.ping flags code) =>
          cases h
          exact hhead rfl hrest
      | .session (.goAway code) =>
          cases h
          exact hhead rfl hrest
      | .stream id (.data flags size) =>
          cases h
          exact hhead rfl hrest
      | .stream id (.windowUpdate flags delta) =>
          cases h
          exact hhead rfl hrest
      | .stream id (.dataChunk chunk) => cases h
  | some p =>
      match frame with
      | .session event => cases h
      | .stream id (.data flags size) => cases h
      | .stream id (.windowUpdate flags delta) => cases h
      | .stream id (.dataChunk chunk) =>
          rw [FrameWriter.track] at h
          split at h
          · rename_i hid
            split at h
            · cases h
            · rename_i hle
              subst hid
              refine .items (Nat.le_of_not_lt hle) ?_
              split at h
              · -- the last byte of the payload: the writer is between frames again
                rename_i hzero
                cases h
                rw [hzero]
                exact hrest.close
              · cases h
                exact hrest
          · cases h

/-- A run of `write` calls: none panics, and the buffer grows by the encodings
of the accepted frames, which may follow one another. -/
theorem runWriter_spec {w : FrameWriter ChainedChunkBufferWriter} (hw : w.buffer.Wf)
    (hunread : w.buffer.Unread) (frames : List Frame) :
    ∃ answers w', runWriter w frames = some (answers, w') ∧ w'.buffer.Wf ∧ w'.buffer.Unread ∧
      w'.buffer.bytes = w.buffer.bytes ++ (acceptedFrames frames answers).flatMap Frame.encode ∧
      yamux.Writes (w.pending.map PendingPayload.due)
        ((acceptedFrames frames answers).map Frame.piece) := by
  induction frames generalizing w with
  | nil => exact ⟨[], w, rfl, hw, hunread, (List.append_nil _).symm, .nil _⟩
  | cons frame frames ih =>
      cases htrack : FrameWriter.track w.pending frame with
      | error e =>
          -- a rejected frame leaves the writer as it was
          have hwrite : w.write frame = some (.error e, w) := by
            rw [FrameWriter.write, htrack]
          obtain ⟨answers, w', hrun, hw', hunread', hbytes, hpieces⟩ := ih hw hunread
          exact ⟨.error e :: answers, w', by simp [runWriter, hwrite, hrun], hw', hunread', hbytes,
            hpieces⟩
      | ok pending =>
          obtain ⟨buffer, hframe, hwf, hb⟩ := Frame.write_spec (w := w.buffer) frame hw
          have hwrite : w.write frame =
              some (.ok (), { pending := pending, buffer := buffer }) := by
            rw [FrameWriter.write, htrack]
            simp [hframe]
          have hkept := ((ChainedChunkBufferWriter.extends_kept w.buffer).frame
            (.refl _) hframe).unread hunread
          obtain ⟨answers, w', hrun, hw', hunread', hbytes, hpieces⟩ :=
            ih (w := { pending := pending, buffer := buffer }) hwf hkept
          refine ⟨.ok () :: answers, w', by simp [runWriter, hwrite, hrun], hw', hunread', ?_,
            track_writes htrack hpieces⟩
          rw [hbytes, acceptedFrames, List.flatMap_cons, ← List.append_assoc]
          exact congrArg (· ++ _) hb

/-! ### Reading -/

/-- Without unknown types, calling `next_frame` until it finds nothing yields
the rest of the stream. -/
theorem runReader_all {r : FrameReader ChainedChunkBufferReader} {pushed : Bytes}
    {tokens : List WireToken} (h : ReaderInv r pushed tokens)
    (hknown : NoUnknown (yamux.decode pushed)) :
    ∃ (n : Nat) (frames : List Frame) (r' : FrameReader ChainedChunkBufferReader),
      runReader r (List.replicate (n + 1) .nextFrame) =
        some (frames.map (fun f => .ok (some f)) ++ [.ok none], r') ∧
      yamux.decode pushed = tokens ++ frames.flatMap Frame.tokens := by
  induction hheld : held r.pending r.buffer.bytes.length using Nat.strong_induction_on
    generalizing r tokens with
  | _ m ih =>
      obtain ⟨answer, r₁, hnext, hinv, hstep⟩ := h.nextFrame
      match answer with
      | .error e =>
          obtain ⟨rest, hrest⟩ := hinv.reads.isPrefix []
          rw [List.append_nil, answerTokens] at hrest
          exact absurd (hrest ▸ by simp) (hknown e)
      | .ok none =>
          refine ⟨0, [], r₁, by simp [runReader, hnext], ?_⟩
          obtain ⟨-, hnil⟩ := hstep.stalled
          have hall := hinv.reads.complete hnil
          rw [answerTokens, List.append_nil] at hall
          rw [hall, List.flatMap_nil, List.append_nil]
      | .ok (some frame) =>
          -- each frame lowers what the reader holds, and this ends the induction
          have hless := hstep.arrival.2
          rw [hheld] at hless
          obtain ⟨n, frames, r', hrun, hall⟩ := ih _ hless hinv rfl
          refine ⟨n + 1, frame :: frames, r', ?_, ?_⟩
          · rw [List.replicate_succ, runReader]
            simp only [hnext, hrun, Option.bind_eq_bind, Option.bind_some, Option.pure_def]
            rfl
          · rw [hall, List.append_assoc]
            rfl

/-! ### There and back -/

/-- A rejected call of `write` changes nothing.  And whatever calls of `write`
are made on a fresh writer, accepted or rejected, reading the buffer yields the
accepted frames and then nothing, without an error; only a payload may be cut
differently. -/
theorem write_read_roundTrip :
    (∀ (w w' : FrameWriter ChainedChunkBufferWriter) (frame : Frame) (e : FrameWriterError),
      w.write frame = some (.error e, w') → w' = w) ∧
    ∀ frames : List Frame, ∃ answers w,
      runWriter (FrameWriter.new .new) frames = some (answers, w) ∧
      ∃ (n : Nat) (yielded : List Frame) (r : FrameReader ChainedChunkBufferReader),
        runReader (FrameReader.new (.ofWriter w.buffer)) (List.replicate (n + 1) .nextFrame) =
          some (yielded.map (fun f => .ok (some f)) ++ [.ok none], r) ∧
        joinChunks yielded = joinChunks (acceptedFrames frames answers) := by
  constructor
  · intro w w' frame e h
    unfold FrameWriter.write at h
    split at h
    · cases h
      rfl
    · obtain ⟨buffer, -, h⟩ := Option.bind_eq_some_iff.mp h
      cases h
  · intro frames
    obtain ⟨answers, w, hrun, hw, hunread, hbytes, hpieces⟩ :=
      runWriter_spec (w := FrameWriter.new .new) ChainedChunkBufferWriter.wf_new
        (fun c hc => by cases hc) frames
    refine ⟨answers, w, hrun, ?_⟩
    obtain ⟨hreader, hsame⟩ := ChainedChunkBufferWriter.ofWriter_spec hw hunread
    -- what was written decodes to the tokens of the accepted frames
    have hdecode : yamux.decode w.buffer.bytes = (acceptedFrames frames answers).flatMap
        Frame.tokens := by
      have hflat := hpieces.decodeFrom_flatten
      simp only [List.flatMap_map, Frame.piece_written, Frame.piece_tokens] at hflat
      rw [hbytes]
      exact hflat
    have hinv : ReaderInv (FrameReader.new (.ofWriter w.buffer)) w.buffer.bytes [] :=
      ⟨hreader, fun more => congrArg (fun bs => yamux.decode (bs ++ more)) hsame.symm⟩
    -- frames are no errors, so the reader meets none
    have hknown : NoUnknown (yamux.decode w.buffer.bytes) := by
      intro e he
      rw [hdecode] at he
      obtain ⟨f, -, hf⟩ := List.mem_flatMap.mp he
      exact f.noUnknown_tokens e hf
    obtain ⟨n, yielded, r, hread, hall⟩ := runReader_all hinv hknown
    refine ⟨n, yielded, r, hread, ?_⟩
    rw [joinChunks_eq, joinChunks_eq, ← hdecode, hall]
    rfl

end YamuxLowMem
