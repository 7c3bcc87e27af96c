/-
YamuxLowMem/CanonicalHeader.lean

Headers there and back, over any layout of the chunks.

A frame with a header is read back from the twelve bytes it is written as,
wherever the chunks are cut.  The other way round the frame does not keep all
of the twelve bytes: the version, the flag bits above the lowest four, the
stream id of a `Ping` or `GoAway` and the flags of a `GoAway` are dropped, and
are written as zeros.  So exactly the bytes that are zero there come back.
-/
import YamuxLowMem.WriterFifo
import YamuxLowMem.ReaderFifo

namespace YamuxLowMem

/-! ### Fields of a header -/

theorem layout_inj {v v' t t' : UInt8} {b b' : UInt16} {i i' l l' : UInt32} :
    layout v t b i l = layout v' t' b' i' l' ↔ v = v' ∧ t = t' ∧ b = b' ∧ i = i' ∧ l = l' := by
  constructor
  · intro h
    obtain ⟨h₁, h₂, h₃, h₄, h₅⟩ := headerField_layout v t b i l
    rw [h] at h₁ h₂ h₃ h₄ h₅
    obtain ⟨h₁', h₂', h₃', h₄', h₅'⟩ := headerField_layout v' t' b' i' l'
    exact ⟨UInt8.toNat_inj.mp (h₁.symm.trans h₁'), UInt8.toNat_inj.mp (h₂.symm.trans h₂'),
      UInt16.toNat_inj.mp (h₃.symm.trans h₃'), UInt32.toNat_inj.mp (h₄.symm.trans h₄'),
      UInt32.toNat_inj.mp (h₅.symm.trans h₅')⟩
  · rintro ⟨rfl, rfl, rfl, rfl, rfl⟩
    rfl

/-- Of the flag bits, the four lowest are kept. -/
theorem Flags.bits_fromBits (bits : UInt16) : (fromBits bits).bits.toNat = bits.toNat % 2 ^ 4 := by
  have hbits : ∀ f : Flags, f.bits.toNat =
      f.syn.toNat + 2 * f.ack.toNat + 4 * f.fin.toNat + 8 * f.rst.toNat := by
    rintro ⟨syn, ack, fin, rst⟩
    cases syn <;> cases ack <;> cases fin <;> cases rst <;> rfl
  rw [hbits, fromBits_eq]
  simp only [Nat.toNat_testBit]
  omega

/-! ### What a frame keeps of a header -/

/-- The header as it is written for the frame it begins. -/
def Header.kept (h : Header) : Header :=
  match h.type_ with
  | .data | .windowUpdate => { h with version := 0 }
  | .ping => { h with version := 0, streamId := ⟨0⟩ }
  | .goAway => { h with version := 0, flags := Flags.empty, streamId := ⟨0⟩ }

theorem Header.frame_header (h : Header) : h.frame.header = some h.kept := by
  rcases h with ⟨version, type_, flags, streamId, length⟩
  cases type_ <;> rfl

/-- The bytes are zero wherever the frame model forgets them. -/
def Remembered (hd : Bytes) : Prop :=
  headerField hd 0 1 = 0 ∧ headerField hd 2 4 < 2 ^ 4 ∧
    (headerField hd 1 2 = FrameType.ping.asU8.toNat ∨
      headerField hd 1 2 = FrameType.goAway.asU8.toNat → headerField hd 4 8 = 0) ∧
    (headerField hd 1 2 = FrameType.goAway.asU8.toNat → headerField hd 2 4 = 0)

instance : DecidablePred Remembered := fun hd => by
  unfold Remembered
  infer_instance

theorem Flags.bits_fromBits_iff (bits : UInt16) :
    (fromBits bits).bits = bits ↔ bits.toNat < 2 ^ 4 := by
  rw [← UInt16.toNat_inj, bits_fromBits]
  exact Nat.mod_eq_iff_lt (by decide)

theorem Header.kept_encode_iff (version : UInt8) (t : FrameType) (bits : UInt16)
    (id length : UInt32) :
    (Header.mk version t (Flags.fromBits bits) ⟨id⟩ length).kept.encode =
      layout version t.asU8 bits id length ↔
    Remembered (layout version t.asU8 bits id length) := by
  obtain ⟨h₁, h₂, h₃, h₄, -⟩ := headerField_layout version t.asU8 bits id length
  have hzero8 : (0 : UInt8) = version ↔ version.toNat = 0 := by
    rw [← UInt8.toNat_inj]
    exact eq_comm
  have hzero16 : (0 : UInt16) = bits ↔ bits.toNat = 0 := by
    rw [← UInt16.toNat_inj]
    exact eq_comm
  have hzero32 : (0 : UInt32) = id ↔ id.toNat = 0 := by
    rw [← UInt32.toNat_inj]
    exact eq_comm
  have hempty : Flags.empty.bits = 0 := rfl
  rw [Remembered, h₁, h₂, h₃, h₄, Header.encode_eq, layout_inj]
  cases t with
  | data | windowUpdate | ping =>
      simp [Header.kept, FrameType.asU8, Flags.bits_fromBits_iff, hzero8, hzero32]
  | goAway =>
      simp only [Header.kept, hempty, hzero8, hzero16, hzero32]
      simp [FrameType.asU8]
      omega

theorem FrameType.asU8_of_fromU8 {value : UInt8} {t : FrameType} (h : fromU8 value = .ok t) :
    value = t.asU8 := by
  unfold fromU8 at h
  split at h <;> cases h <;> rfl

/-- A frame read off twelve bytes is written as the same bytes exactly when it
remembers all of them. -/
theorem encode_eq_iff {hd : Bytes} {f : Frame} (hlen : hd.length = headerLen)
    (hf : refFrame hd = .ok f) : f.encode = hd ↔ Remembered hd := by
  obtain ⟨version, type_, bits, id, length, rfl⟩ := exists_layout hlen
  rw [refFrame, refHeader_layout] at hf
  cases ht : FrameType.fromU8 type_ with
  | error e =>
      rw [ht] at hf
      cases hf
  | ok t =>
      rw [ht] at hf
      cases hf
      rw [FrameType.asU8_of_fromU8 ht, Frame.encode_of_header (Header.frame_header _)]
      exact Header.kept_encode_iff version t bits id length

/-! ### Over any chunks -/

/-- The reader of these chunks. -/
def pushAll (chunks : List InputChunk) : Option ChainedChunkBufferReader :=
  chunks.foldlM (fun r chunk => r.pushBack chunk.view) .new

theorem foldlM_pushBack {r : ChainedChunkBufferReader} (hr : r.Wf) (chunks : List InputChunk) :
    ∃ r', chunks.foldlM (fun r chunk => r.pushBack chunk.view) r = some r' ∧ r'.Wf ∧
      r'.bytes = r.bytes ++ chunks.flatMap (·.view.bytes) := by
  induction chunks generalizing r with
  | nil => exact ⟨r, rfl, hr, (List.append_nil _).symm⟩
  | cons chunk chunks ih =>
      obtain ⟨r₁, hpush, hr₁, hb₁⟩ :=
        ChainedChunkBufferReader.pushBack_of_wf hr chunk.wf chunk.nonempty
      obtain ⟨r', hrest, hr', hb'⟩ := ih hr₁
      refine ⟨r', by rw [List.foldlM_cons, hpush]; exact hrest, hr', ?_⟩
      rw [hb', hb₁, List.flatMap_cons, List.append_assoc]

theorem pushAll_spec (chunks : List InputChunk) :
    ∃ r, pushAll chunks = some r ∧ r.Wf ∧ r.bytes = chunks.flatMap (·.view.bytes) :=
  foldlM_pushBack ChainedChunkBufferReader.wf_new chunks

/-- What `Frame.read` finds in front of a reader is the frame of those bytes. -/
theorem read_pushAll {chunks : List InputChunk} {hd more : Bytes}
    (hb : chunks.flatMap (·.view.bytes) = hd ++ more) (hlen : hd.length = headerLen) :
    ∃ r r', pushAll chunks = some r ∧ Frame.read r = some ((refFrame hd).map some, r') ∧
      r'.bytes = more ∧ r.len = headerLen + r'.len := by
  obtain ⟨r, hpush, hr, hrb⟩ := pushAll_spec chunks
  obtain ⟨r', hread, hr', hb'⟩ := Frame.read_spec (r := r) hr (hrb.trans hb) hlen
  refine ⟨r, r', hpush, hread, hb', ?_⟩
  rw [hr.len_eq, hr'.len_eq, hrb, hb, List.length_append, hlen, show r'.bytes = more from hb']

theorem header_of_not_chunk {f : Frame} (hf : ∀ id chunk, f ≠ .stream id (.dataChunk chunk)) :
    ∃ h, f.header = some h := by
  match f with
  | .session (.ping flags code) | .session (.goAway code) => exact ⟨_, rfl⟩
  | .stream id (.data flags size) | .stream id (.windowUpdate flags delta) => exact ⟨_, rfl⟩
  | .stream id (.dataChunk chunk) => exact absurd rfl (hf id chunk)

/-- In any state the writer can be brought to, a frame with a header is written
as twelve bytes, from which it is read back over any chunks.  A frame that was
read is written as the bytes it was read from if and only if these are zero
where the frame model forgets them.  Fewer than twelve bytes are left alone. -/
theorem header_codec_roundTrip (ops : List TakeOp) (h : poppedWriter.Allowed .new ops) :
    ∃ calls w, poppedWriter.run .new ops = some (calls, w) ∧
      (∀ f : Frame, (∀ id chunk, f ≠ .stream id (.dataChunk chunk)) →
        ∃ w' hd, f.write w = some w' ∧ w'.bytes = w.bytes ++ hd ∧ hd.length = 12 ∧
          ∀ chunks more, chunks.flatMap (·.view.bytes) = hd ++ more →
            ∃ r r', pushAll chunks = some r ∧ Frame.read r = some (.ok (some f), r') ∧
              r'.bytes = more ∧ r.len = 12 + r'.len) ∧
      (∀ chunks hd more r r' f, pushAll chunks = some r →
        chunks.flatMap (·.view.bytes) = hd ++ more → hd.length = 12 →
        Frame.read r = some (.ok (some f), r') →
        ∃ w', f.write w = some w' ∧ (w'.bytes = w.bytes ++ hd ↔ Remembered hd)) ∧
      ∀ chunks, (chunks.flatMap (·.view.bytes)).length < 12 →
        ∃ r, pushAll chunks = some r ∧ Frame.read r = some (.ok none, r) := by
  obtain ⟨calls, w, hrun, ⟨hw, -⟩, -⟩ := poppedWriterQueue.run_spec
    ⟨ChainedChunkBufferWriter.wf_new, fun n hn => by cases hn⟩ h
  refine ⟨calls, w, hrun, ?_, ?_, ?_⟩
  · intro f hf
    obtain ⟨header, hheader⟩ := header_of_not_chunk hf
    obtain ⟨w', hwrite, -, hb⟩ := Frame.write_spec (w := w) f hw
    have hlen : f.encode.length = headerLen := by
      rw [Frame.encode_of_header hheader, Header.length_encode]
    refine ⟨w', f.encode, hwrite, hb, hlen, fun chunks more hsplit => ?_⟩
    obtain ⟨r, r', hpush, hread, hmore, htotal⟩ := read_pushAll hsplit hlen
    rw [refFrame_encode hheader] at hread
    exact ⟨r, r', hpush, hread, hmore, htotal⟩
  · intro chunks hd more r r' f hpush hsplit hlen hread
    obtain ⟨r₁, r₁', hpush₁, hread₁, -⟩ := read_pushAll hsplit hlen
    obtain rfl := Option.some.inj (hpush.symm.trans hpush₁)
    have hf : refFrame hd = .ok f := by
      have hanswer := (Prod.mk.inj (Option.some.inj (hread₁.symm.trans hread))).1
      cases href : refFrame hd with
      | error e =>
          rw [href] at hanswer
          cases hanswer
      | ok f' =>
          rw [href] at hanswer
          cases hanswer
          rfl
    obtain ⟨w', hwrite, -, hb⟩ := Frame.write_spec (w := w) f hw
    refine ⟨w', hwrite, ?_⟩
    rw [← encode_eq_iff hlen hf, show w'.bytes = w.bytes ++ f.encode from hb,
      List.append_right_inj]
  · intro chunks hshort
    obtain ⟨r, hpush, hr, hrb⟩ := pushAll_spec chunks
    exact ⟨r, hpush, Frame.read_short (r := r) hr (by
      rw [show ByteSource.bytes r = _ from hrb]
      exact hshort)⟩

/-- Behind two bytes, a ping is written and read back over two chunks with a
byte to spare; the bytes of version 1 are read as the same ping, and written
otherwise; and four bytes are left alone. -/
theorem header_codec_roundTrip_behind_bytes :
    let ops : List TakeOp := [.op (.writeSlice [1, 2, 3]), .op (.consumeFront 1)]
    let ping : Frame := .session (.ping Flags.onlySyn 7)
    let split : List InputChunk :=
      [.ofList [0, 2, 0, 1, 0] (by decide), .ofList [0, 0, 0, 0, 0, 0, 7, 9] (by decide)]
    let other : Bytes := [1, 2, 0, 1, 0, 0, 0, 0, 0, 0, 0, 7]
    poppedWriter.Allowed .new ops ∧ ∃ calls w, poppedWriter.run .new ops = some (calls, w) ∧
      w.bytes = [2, 3] ∧
      (∃ w' r r', ping.write w = some w' ∧
        w'.bytes = [2, 3] ++ [0, 2, 0, 1, 0, 0, 0, 0, 0, 0, 0, 7] ∧
        pushAll split = some r ∧ Frame.read r = some (.ok (some ping), r') ∧ r'.bytes = [9]) ∧
      (∃ w' r r', pushAll [.ofList other (by decide)] = some r ∧
        Frame.read r = some (.ok (some ping), r') ∧ ping.write w = some w' ∧
        w'.bytes ≠ [2, 3] ++ other) ∧
      ∃ r, pushAll [.ofList [0, 2, 0, 1] (by decide)] = some r ∧
        Frame.read r = some (.ok none, r) := by
  intro ops ping split other
  have h : poppedWriter.Allowed .new ops := by decide +kernel
  have hbytes : ∃ x ∈ poppedWriter.run .new ops, x.2.bytes = [2, 3] ∧
      ∃ w' ∈ ping.write x.2, w'.bytes = [2, 3] ++ [0, 2, 0, 1, 0, 0, 0, 0, 0, 0, 0, 7] := by
    decide +kernel
  obtain ⟨calls, w, hrun, hwrite, hread, hshort⟩ := header_codec_roundTrip ops h
  obtain ⟨x, hx, hw, w₁, hw₁, hb₁⟩ := hbytes
  obtain rfl := Option.some.inj (hrun.symm.trans hx)
  refine ⟨h, calls, w, hrun, hw, ?_, ?_, hshort _ (by decide)⟩
  · obtain ⟨w', hd, hw', hb, -, hback⟩ := hwrite ping (by simp [ping])
    obtain rfl := Option.some.inj (hw'.symm.trans hw₁)
    rw [hb₁, hw] at hb
    obtain rfl := List.append_cancel_left hb
    obtain ⟨r, r', hpush, hframe, hmore, -⟩ := hback split [9] rfl
    exact ⟨w', r, r', hw', hb₁, hpush, hframe, hmore⟩
  · have hbytes : [InputChunk.ofList other (by decide)].flatMap (·.view.bytes) = other ++ [] := rfl
    obtain ⟨r, r', hpush, hframe, -⟩ := read_pushAll hbytes rfl
    have hping : refFrame other = .ok ping := by decide +kernel
    rw [hping] at hframe
    obtain ⟨w', hw', hsame⟩ := hread _ other [] r r' ping hpush rfl rfl hframe
    refine ⟨w', r, r', hpush, hframe, hw', fun heq => ?_⟩
    rw [heq, hw] at hsame
    exact absurd (hsame.mp rfl) (by decide)

end YamuxLowMem
