/-
YamuxLowMem/HeaderCodec.lean

The wire layout of headers and frames, and that the code follows it.

`refHeader` reads a header off its twelve bytes, field by field, without any
cursor; `Header.encode` lays one out.  Over any byte source `Header.read`
computes the first, over any byte sink `Header.write` the second, and they are
inverse to each other for headers of version 0.
-/
import YamuxLowMem.ByteQueue
import YamuxLowMem.Frame
import Mathlib.Data.Nat.Bitwise
import Mathlib.Tactic.IntervalCases

namespace YamuxLowMem

/-! ### The layout -/

/-- The header laid out in the twelve bytes `hd`: version, type, flags, stream
id and length, of 1, 1, 2, 4 and 4 bytes. -/
def refHeader (hd : Bytes) : Except ParserError Header :=
  let field (start stop : Nat) := BigEndian.ofBytes ((hd.take stop).drop start)
  match [FrameType.data, .windowUpdate, .ping, .goAway][field 1 2]? with
  | none => .error (.unknownType (UInt8.ofNat (field 1 2)))
  | some type_ =>
      let flag := (field 2 4).testBit
      .ok {
        version := UInt8.ofNat (field 0 1)
        type_ := type_
        flags := { syn := flag 0, ack := flag 1, fin := flag 2, rst := flag 3 }
        streamId := ⟨UInt32.ofNat (field 4 8)⟩
        length := UInt32.ofNat (field 8 12) }

/-- The frame a header begins. -/
def Header.frame (h : Header) : Frame :=
  match h.type_ with
  | .data => .stream h.streamId (.data h.flags h.length)
  | .windowUpdate => .stream h.streamId (.windowUpdate h.flags h.length)
  | .ping => .session (.ping h.flags h.length)
  | .goAway => .session (.goAway h.length)

/-- The frame begun by the header in `hd`. -/
def refFrame (hd : Bytes) : Except ParserError Frame := (refHeader hd).map Header.frame

/-- The twelve bytes of a header. -/
def Header.encode (h : Header) : Bytes :=
  h.version :: h.type_.asU8 :: (BigEndian.toBytes 2 h.flags.bits.toNat ++
    BigEndian.toBytes 4 h.streamId.val.toNat ++ BigEndian.toBytes 4 h.length.toNat)

/-- The number in the bytes `start..stop` of a header. -/
def headerField (hd : Bytes) (start stop : Nat) : Nat :=
  BigEndian.ofBytes ((hd.take stop).drop start)

/-- Version, type, flag bits, stream id and length, laid out. -/
def layout (version type_ : UInt8) (bits : UInt16) (id length : UInt32) : Bytes :=
  version :: type_ :: (BigEndian.toBytes 2 bits.toNat ++
    BigEndian.toBytes 4 id.toNat ++ BigEndian.toBytes 4 length.toNat)

/-- The header `Frame.write` puts before a frame; a payload chunk has none. -/
def Frame.header : Frame → Option Header
  | .session (.ping flags code) => some (.new .ping flags ⟨0⟩ code)
  | .session (.goAway code) => some (.new .goAway Flags.empty ⟨0⟩ code)
  | .stream id (.data flags size) => some (.new .data flags id size)
  | .stream _ (.dataChunk _) => none
  | .stream id (.windowUpdate flags delta) => some (.new .windowUpdate flags id delta)

/-- The bytes of a frame on the wire. -/
def Frame.encode : Frame → Bytes
  | .stream _ (.dataChunk chunk) => chunk
  | frame => (frame.header.map Header.encode).getD []

@[simp] theorem Header.length_encode (h : Header) : h.encode.length = headerLen := by
  simp [encode, headerLen]

/-! ### Flags and types -/

namespace Flags

/-- Testing a mask of one bit is testing that bit. -/
theorem and_two_pow_ne_zero (bits : UInt16) (m : UInt16) (i : Nat) (hm : m.toNat = 2 ^ i) :
    (bits &&& m != 0) = bits.toNat.testBit i := by
  have hand : (bits &&& m).toNat = (bits.toNat.testBit i).toNat * 2 ^ i := by
    rw [UInt16.toNat_and, hm, Nat.and_two_pow]
  have hpos : 0 < 2 ^ i := Nat.two_pow_pos i
  rcases hb : bits.toNat.testBit i with - | -
  · rw [hb] at hand
    have hz : bits &&& m = 0 := UInt16.toNat_inj.mp (by simpa using hand)
    simp [hz]
  · rw [hb] at hand
    have hnz : bits &&& m ≠ 0 := fun hz => by
      rw [hz] at hand
      simp at hand
      omega
    simpa using hnz

/-- Each flag is one of the four lowest bits; the others are not looked at. -/
theorem fromBits_eq (bits : UInt16) :
    fromBits bits = { syn := bits.toNat.testBit 0, ack := bits.toNat.testBit 1,
                      fin := bits.toNat.testBit 2, rst := bits.toNat.testBit 3 } := by
  simp only [fromBits, and_two_pow_ne_zero bits 1 0 rfl, and_two_pow_ne_zero bits 2 1 rfl,
    and_two_pow_ne_zero bits 4 2 rfl, and_two_pow_ne_zero bits 8 3 rfl]

/-- The flags a header is written with are read back. -/
theorem fromBits_bits (f : Flags) : fromBits f.bits = f := by
  rcases f with ⟨syn, ack, fin, rst⟩
  cases syn <;> cases ack <;> cases fin <;> cases rst <;> rfl

end Flags

namespace FrameType

/-- The types in the order of their discriminants. -/
theorem fromU8_eq (t : UInt8) :
    fromU8 t = match [data, windowUpdate, ping, goAway][t.toNat]? with
      | some type_ => .ok type_
      | none => .error (.unknownType t) := by
  by_cases h : t.toNat < 4
  · obtain ⟨n, hn, rfl⟩ : ∃ n, n < 4 ∧ t = UInt8.ofNat n := ⟨t.toNat, h, by simp⟩
    interval_cases n <;> rfl
  · have hnone : [data, windowUpdate, ping, goAway][t.toNat]? = none := by simpa using h
    rw [hnone]
    unfold fromU8
    split
    · exact absurd (by decide) h
    · exact absurd (by decide) h
    · exact absurd (by decide) h
    · exact absurd (by decide) h
    · rfl

/-- Every type is read back from its number. -/
theorem fromU8_asU8 (t : FrameType) : fromU8 t.asU8 = .ok t := by
  cases t <;> rfl

end FrameType

/-! ### Fields of a header -/

theorem Header.encode_eq (h : Header) :
    h.encode = layout h.version h.type_.asU8 h.flags.bits h.streamId.val h.length := rfl

/-- Twelve bytes, each with a name, for the cursor to step over. -/
theorem exists_bytes_of_length {hd : Bytes} (h : hd.length = headerLen) :
    ∃ v t f₁ f₂ i₁ i₂ i₃ i₄ l₁ l₂ l₃ l₄,
      hd = [v, t, f₁, f₂, i₁, i₂, i₃, i₄, l₁, l₂, l₃, l₄] := by
  match hd, h with
  | [v, t, f₁, f₂, i₁, i₂, i₃, i₄, l₁, l₂, l₃, l₄], _ =>
      exact ⟨v, t, f₁, f₂, i₁, i₂, i₃, i₄, l₁, l₂, l₃, l₄, rfl⟩

/-- Any twelve bytes are the layout of the integers they form, so what is said of layouts
is said of all that can come in. -/
theorem layout_of_bytes (v t f₁ f₂ i₁ i₂ i₃ i₄ l₁ l₂ l₃ l₄ : UInt8) :
    layout v t (BigEndian.u16 f₁ f₂) (BigEndian.u32 i₁ i₂ i₃ i₄) (BigEndian.u32 l₁ l₂ l₃ l₄) =
      [v, t, f₁, f₂, i₁, i₂, i₃, i₄, l₁, l₂, l₃, l₄] := by
  rw [layout, BigEndian.toBytes_u16_of_bytes, BigEndian.toBytes_u32_of_bytes,
    BigEndian.toBytes_u32_of_bytes]
  rfl

theorem exists_layout {hd : Bytes} (h : hd.length = headerLen) :
    ∃ version type_ bits id length, hd = layout version type_ bits id length := by
  obtain ⟨v, t, f₁, f₂, i₁, i₂, i₃, i₄, l₁, l₂, l₃, l₄, rfl⟩ := exists_bytes_of_length h
  exact ⟨_, _, _, _, _, (layout_of_bytes v t f₁ f₂ i₁ i₂ i₃ i₄ l₁ l₂ l₃ l₄).symm⟩

section Layout

variable (version type_ : UInt8) (bits : UInt16) (id length : UInt32)

/-- Each field of a layout stands where `refHeader` looks for it. -/
theorem headerField_layout :
    headerField (layout version type_ bits id length) 0 1 = version.toNat ∧
    headerField (layout version type_ bits id length) 1 2 = type_.toNat ∧
    headerField (layout version type_ bits id length) 2 4 = bits.toNat ∧
    headerField (layout version type_ bits id length) 4 8 = id.toNat ∧
    headerField (layout version type_ bits id length) 8 12 = length.toNat := by
  have hbyte : ∀ b : UInt8, BigEndian.ofBytes [b] = b.toNat := by simp [BigEndian.ofBytes]
  have hbits := BigEndian.ofBytes_toBytes (k := 2) bits.toNat_lt
  have hid := BigEndian.ofBytes_toBytes (k := 4) id.toNat_lt
  have hlen := BigEndian.ofBytes_toBytes (k := 4) length.toNat_lt
  -- the layout as an explicit list of twelve bytes
  rw [BigEndian.toBytes_u16] at hbits
  rw [BigEndian.toBytes_u32] at hid hlen
  rw [layout, BigEndian.toBytes_u16, BigEndian.toBytes_u32, BigEndian.toBytes_u32]
  exact ⟨hbyte version, hbyte type_, hbits, hid, hlen⟩

/-- A layout is read as the header of its fields, if its type is known. -/
theorem refHeader_layout : refHeader (layout version type_ bits id length) =
    (FrameType.fromU8 type_).map fun t =>
      { version := version, type_ := t, flags := Flags.fromBits bits, streamId := ⟨id⟩,
        length := length } := by
  obtain ⟨h₁, h₂, h₃, h₄, h₅⟩ := headerField_layout version type_ bits id length
  simp only [headerField] at h₁ h₂ h₃ h₄ h₅
  simp only [refHeader, h₁, h₂, h₃, h₄, h₅, FrameType.fromU8_eq, Flags.fromBits_eq,
    UInt8.ofNat_toNat, UInt32.ofNat_toNat]
  rcases [FrameType.data, .windowUpdate, .ping, .goAway][type_.toNat]? with - | t
  · rfl
  · rfl

end Layout

/-! ### Reading over a byte source -/

section Reading

open ByteSource

variable {R : Type} [ChunkBufferReader R] [ByteSource R] {r : R}

/-- Two bytes are taken, and make an integer. -/
theorem nextU16_spec {b₁ b₂ : UInt8} {bs : Bytes} (h : Wf r) (hr : bytes r = b₁ :: b₂ :: bs) :
    ∃ r', ChunkBufferReader.nextU16 r = some (some (BigEndian.u16 b₁ b₂), r') ∧
      Wf r' ∧ bytes r' = bs := by
  obtain ⟨r₁, h₁, hw₁, hb₁⟩ := nextU8_cons h hr
  obtain ⟨r₂, h₂, hw₂, hb₂⟩ := nextU8_cons hw₁ hb₁
  refine ⟨r₂, ?_, hw₂, hb₂⟩
  have hlong : ¬ (bytes r).length < 2 := by simp [hr]
  rw [ChunkBufferReader.nextU16, bind_of_eq_some (len_eq h), if_neg hlong]
  refine (bind_of_eq_some h₁).trans ?_
  exact bind_of_eq_some h₂

theorem nextU32_spec {b₁ b₂ b₃ b₄ : UInt8} {bs : Bytes} (h : Wf r)
    (hr : bytes r = b₁ :: b₂ :: b₃ :: b₄ :: bs) :
    ∃ r', ChunkBufferReader.nextU32 r = some (some (BigEndian.u32 b₁ b₂ b₃ b₄), r') ∧
      Wf r' ∧ bytes r' = bs := by
  obtain ⟨r₁, h₁, hw₁, hb₁⟩ := nextU8_cons h hr
  obtain ⟨r₂, h₂, hw₂, hb₂⟩ := nextU8_cons hw₁ hb₁
  obtain ⟨r₃, h₃, hw₃, hb₃⟩ := nextU8_cons hw₂ hb₂
  obtain ⟨r₄, h₄, hw₄, hb₄⟩ := nextU8_cons hw₃ hb₃
  refine ⟨r₄, ?_, hw₄, hb₄⟩
  have hlong : ¬ (bytes r).length < 4 := by simp [hr]
  rw [ChunkBufferReader.nextU32, bind_of_eq_some (len_eq h), if_neg hlong]
  refine (bind_of_eq_some h₁).trans ?_
  refine (bind_of_eq_some h₂).trans ?_
  refine (bind_of_eq_some h₃).trans ?_
  exact bind_of_eq_some h₄

/-- With fewer bytes there is no integer, and none of them is taken. -/
theorem nextU16_short (h : Wf r) (hr : (bytes r).length < 2) :
    ChunkBufferReader.nextU16 r = some (none, r) := by
  rw [ChunkBufferReader.nextU16, bind_of_eq_some (len_eq h), if_pos hr]
  rfl

theorem nextU32_short (h : Wf r) (hr : (bytes r).length < 4) :
    ChunkBufferReader.nextU32 r = some (none, r) := by
  rw [ChunkBufferReader.nextU32, bind_of_eq_some (len_eq h), if_pos hr]
  rfl

/-- A header that has not come in whole is left where it is. -/
theorem Header.read_short (h : Wf r) (hr : (bytes r).length < headerLen) :
    Header.read r = some (.ok none, r) := by
  rw [Header.read, bind_of_eq_some (len_eq h), if_pos hr]
  rfl

/-- Twelve bytes are a header, or an unknown type; either way they are taken. -/
theorem Header.read_spec {hd bs : Bytes} (h : Wf r) (hr : bytes r = hd ++ bs)
    (hlen : hd.length = headerLen) :
    ∃ r', Header.read r = some ((refHeader hd).map some, r') ∧ Wf r' ∧ bytes r' = bs := by
  obtain ⟨v, t, f₁, f₂, i₁, i₂, i₃, i₄, l₁, l₂, l₃, l₄, rfl⟩ := exists_bytes_of_length hlen
  have hlong : ¬ (bytes r).length < headerLen := by
    rw [hr, List.length_append, hlen]
    omega
  -- the five fields, one after the other
  obtain ⟨r₁, h₁, hw₁, hb₁⟩ := nextU8_cons h hr
  obtain ⟨r₂, h₂, hw₂, hb₂⟩ := nextU8_cons hw₁ hb₁
  obtain ⟨r₃, h₃, hw₃, hb₃⟩ := nextU16_spec hw₂ hb₂
  obtain ⟨r₄, h₄, hw₄, hb₄⟩ := nextU32_spec hw₃ hb₃
  obtain ⟨r₅, h₅, hw₅, hb₅⟩ := nextU32_spec hw₄ hb₄
  refine ⟨r₅, ?_, hw₅, hb₅⟩
  rw [← layout_of_bytes, refHeader_layout, Header.read, bind_of_eq_some (len_eq h), if_neg hlong]
  refine (bind_of_eq_some h₁).trans ?_
  refine (bind_of_eq_some h₂).trans ?_
  refine (bind_of_eq_some h₃).trans ?_
  refine (bind_of_eq_some h₄).trans ?_
  refine (bind_of_eq_some h₅).trans ?_
  cases FrameType.fromU8 t with
  | error e => rfl
  | ok type_ => rfl

theorem Frame.read_short (h : Wf r) (hr : (bytes r).length < headerLen) :
    Frame.read r = some (.ok none, r) := by
  simp [Frame.read, Header.read_short h hr]

/-- Reading a frame takes the twelve bytes of its header, and nothing of a payload. -/
theorem Frame.read_spec {hd bs : Bytes} (h : Wf r) (hr : bytes r = hd ++ bs)
    (hlen : hd.length = headerLen) :
    ∃ r', Frame.read r = some ((refFrame hd).map some, r') ∧ Wf r' ∧ bytes r' = bs := by
  obtain ⟨r', hread, hw, hb⟩ := Header.read_spec h hr hlen
  refine ⟨r', ?_, hw, hb⟩
  rcases hh : refHeader hd with e | header
  · simp [Frame.read, hread, refFrame, hh, Except.map]
  · rcases header with ⟨version, type_, flags, streamId, length⟩
    cases type_ <;> simp [Frame.read, hread, refFrame, hh, Except.map, Header.frame]

end Reading

/-! ### Writing over a byte sink -/

section Writing

open ByteSink

variable {W : Type} [ChunkBufferWriter W] [ByteSink W] {w : W}

/-- An integer is written behind what is there, most significant byte first. -/
theorem writeU16_spec (value : UInt16) (h : Wf w) :
    ∃ w', ChunkBufferWriter.writeU16 w value = some w' ∧ Wf w' ∧
      bytes w' = bytes w ++ BigEndian.toBytes 2 value.toNat := by
  obtain ⟨w₁, h₁, hw₁, hb₁⟩ := writeU8_spec (value >>> 8).toUInt8 h
  obtain ⟨w₂, h₂, hw₂, hb₂⟩ := writeU8_spec (value &&& 0xFF).toUInt8 hw₁
  refine ⟨w₂, ?_, hw₂, ?_⟩
  · simp only [ChunkBufferWriter.writeU16, h₁, h₂, Option.bind_eq_bind, Option.bind_some]
  · rw [hb₂, hb₁, BigEndian.toBytes_u16, List.append_assoc]
    rfl

theorem writeU32_spec (value : UInt32) (h : Wf w) :
    ∃ w', ChunkBufferWriter.writeU32 w value = some w' ∧ Wf w' ∧
      bytes w' = bytes w ++ BigEndian.toBytes 4 value.toNat := by
  obtain ⟨w₁, h₁, hw₁, hb₁⟩ := writeU8_spec (value >>> 24).toUInt8 h
  obtain ⟨w₂, h₂, hw₂, hb₂⟩ := writeU8_spec (value >>> 16).toUInt8 hw₁
  obtain ⟨w₃, h₃, hw₃, hb₃⟩ := writeU8_spec (value >>> 8).toUInt8 hw₂
  obtain ⟨w₄, h₄, hw₄, hb₄⟩ := writeU8_spec (value &&& 0xFF).toUInt8 hw₃
  refine ⟨w₄, ?_, hw₄, ?_⟩
  · simp only [ChunkBufferWriter.writeU32, h₁, h₂, h₃, h₄, Option.bind_eq_bind, Option.bind_some]
  · rw [hb₄, hb₃, hb₂, hb₁, BigEndian.toBytes_u32]
    simp

/-- Writing a header puts its twelve bytes behind what is there. -/
theorem Header.write_spec (hd : Header) (h : Wf w) :
    ∃ w', hd.write w = some w' ∧ Wf w' ∧ bytes w' = bytes w ++ hd.encode := by
  obtain ⟨w₁, h₁, hw₁, hb₁⟩ := writeU8_spec hd.version h
  obtain ⟨w₂, h₂, hw₂, hb₂⟩ := writeU8_spec hd.type_.asU8 hw₁
  obtain ⟨w₃, h₃, hw₃, hb₃⟩ := writeU16_spec hd.flags.bits hw₂
  obtain ⟨w₄, h₄, hw₄, hb₄⟩ := writeU32_spec hd.streamId.val hw₃
  obtain ⟨w₅, h₅, hw₅, hb₅⟩ := writeU32_spec hd.length hw₄
  refine ⟨w₅, by simp [Header.write, h₁, h₂, h₃, h₄, h₅], hw₅, ?_⟩
  rw [hb₅, hb₄, hb₃, hb₂, hb₁]
  simp [Header.encode]

/-- Writing a frame puts its bytes behind what is there; an empty payload is not
written at all. -/
theorem Frame.write_spec (frame : Frame) (h : Wf w) :
    ∃ w', frame.write w = some w' ∧ Wf w' ∧ bytes w' = bytes w ++ frame.encode := by
  match frame with
  | .session (.ping flags code) => exact Header.write_spec _ h
  | .session (.goAway code) => exact Header.write_spec _ h
  | .stream id (.data flags size) => exact Header.write_spec _ h
  | .stream id (.windowUpdate flags delta) => exact Header.write_spec _ h
  | .stream id (.dataChunk chunk) =>
      by_cases hc : chunk = []
      · exact ⟨w, by simp [Frame.write, hc], h, by simp [Frame.encode, hc]⟩
      · obtain ⟨w', hw, hwf, hb⟩ := writeSlice_spec chunk h
        exact ⟨w', by simp [Frame.write, hc, hw], hwf, hb⟩

end Writing

/-! ### Laying out, then reading -/

/-- Every header is read back from its bytes, whatever its version. -/
theorem refHeader_encode (h : Header) : refHeader h.encode = .ok h := by
  rw [Header.encode_eq, refHeader_layout, FrameType.fromU8_asU8, Flags.fromBits_bits]
  rfl

/-- The bytes of a frame with a header are those of the header. -/
theorem Frame.encode_of_header {frame : Frame} {h : Header} (hf : frame.header = some h) :
    frame.encode = h.encode := by
  match frame with
  | .stream id (.dataChunk chunk) => cases hf
  | .session (.ping flags code) | .session (.goAway code) => cases hf; rfl
  | .stream id (.data flags size) | .stream id (.windowUpdate flags delta) => cases hf; rfl

theorem Frame.frame_of_header {frame : Frame} {h : Header} (hf : frame.header = some h) :
    h.frame = frame := by
  match frame with
  | .stream id (.dataChunk chunk) => cases hf
  | .session (.ping flags code) | .session (.goAway code) => cases hf; rfl
  | .stream id (.data flags size) | .stream id (.windowUpdate flags delta) => cases hf; rfl

/-- A frame with a header is what its bytes are read as. -/
theorem refFrame_encode {frame : Frame} {h : Header} (hf : frame.header = some h) :
    refFrame frame.encode = .ok frame := by
  rw [Frame.encode_of_header hf, refFrame, refHeader_encode]
  exact congrArg Except.ok (Frame.frame_of_header hf)

end YamuxLowMem
