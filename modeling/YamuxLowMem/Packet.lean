/-
YamuxLowMem/Packet.lean

`src/packet.rs`: identifiers, flags and the 12-byte header.

Of the parser errors only the one the crate ever raises is kept.
-/
import YamuxLowMem.Chunk

namespace YamuxLowMem

/-- Number of bytes in a Yamux header. -/
def headerLen : Nat := 12

inductive ParserError where
  /-- Frame type is not recognized. -/
  | unknownType (value : UInt8)
  deriving DecidableEq, Repr

/-! ### Identifiers -/

/-- Yamux stream identifier. -/
structure StreamID where
  val : UInt32
  deriving DecidableEq, Repr

namespace StreamID

/-- True if the stream was opened by the client (odd IDs). -/
def isClient (id : StreamID) : Bool := id.val &&& 1 == 1

/-- True if the stream was opened by the server (even IDs). -/
def isServer (id : StreamID) : Bool := id.val &&& 1 == 0

/-- True when the ID refers to the session control stream (0). -/
def isSession (id : StreamID) : Bool := id.val == 0

end StreamID

/-! ### Flags -/

/-- Yamux control flags. -/
structure Flags where
  /-- Open stream. -/
  syn : Bool
  /-- Accept stream. -/
  ack : Bool
  /-- Half-close. -/
  fin : Bool
  /-- Hard reset. -/
  rst : Bool
  deriving DecidableEq, Repr

namespace Flags

def empty : Flags := ⟨false, false, false, false⟩

/-- The set with only the named flag. -/
def onlySyn : Flags := ⟨true, false, false, false⟩

@[inherit_doc onlySyn] def onlyAck : Flags := ⟨false, true, false, false⟩

@[inherit_doc onlySyn] def onlyFin : Flags := ⟨false, false, true, false⟩

@[inherit_doc onlySyn] def onlyRst : Flags := ⟨false, false, false, true⟩

/-- Converts the bitfield into flags. -/
def fromBits (flags : UInt16) : Flags :=
  { syn := flags &&& 0x1 != 0
    ack := flags &&& 0x2 != 0
    fin := flags &&& 0x4 != 0
    rst := flags &&& 0x8 != 0 }

/-- Returns the flag bitfield. -/
def bits (f : Flags) : UInt16 :=
  f.syn.toUInt16 ||| (f.ack.toUInt16 <<< 1) ||| (f.fin.toUInt16 <<< 2) ||| (f.rst.toUInt16 <<< 3)

end Flags

/-! ### Frame metadata -/

/-- Yamux frame type discriminator. -/
inductive FrameType where
  | data
  | windowUpdate
  | ping
  | goAway
  deriving DecidableEq, Repr

namespace FrameType

/-- Parses the on-the-wire discriminant. -/
def fromU8 (value : UInt8) : Except ParserError FrameType :=
  match value with
  | 0 => .ok data
  | 1 => .ok windowUpdate
  | 2 => .ok ping
  | 3 => .ok goAway
  | other => .error (.unknownType other)

/-- Returns the on-the-wire discriminant. -/
def asU8 : FrameType → UInt8
  | data => 0
  | windowUpdate => 1
  | ping => 2
  | goAway => 3

end FrameType

/-- Wire header for Yamux frames. -/
structure Header where
  version : UInt8
  type_ : FrameType
  flags : Flags
  streamId : StreamID
  length : UInt32
  deriving DecidableEq, Repr

namespace Header

/-- Constructs a new header for Yamux protocol version 0. -/
def new (type_ : FrameType) (flags : Flags) (streamId : StreamID) (length : UInt32) : Header :=
  { version := 0, type_ := type_, flags := flags, streamId := streamId, length := length }

open ChunkBufferReader ChunkBufferWriter

/-- Attempts to parse a header: `ok none` when fewer than `headerLen` bytes
are available.  The type byte is only looked at once all twelve bytes have
been taken. -/
def read {R : Type} [ChunkBufferReader R] (buffer : R) :
    Option (Except ParserError (Option Header) × R) := do
  if (← len buffer) < headerLen then
    return (.ok none, buffer)
  let (version, buffer) ← nextU8 buffer
  let version ← version
  let (typeByte, buffer) ← nextU8 buffer
  let typeByte ← typeByte
  let (flagsBits, buffer) ← nextU16 buffer
  let flagsBits ← flagsBits
  let (streamId, buffer) ← nextU32 buffer
  let streamId ← streamId
  let (length, buffer) ← nextU32 buffer
  let length ← length
  match FrameType.fromU8 typeByte with
  | .error e => return (.error e, buffer)
  | .ok type_ =>
      return (.ok (some {
        version := version
        type_ := type_
        flags := Flags.fromBits flagsBits
        streamId := ⟨streamId⟩
        length := length }), buffer)

/-- Writes the header into the provided buffer. -/
def write {W : Type} [ChunkBufferWriter W] (h : Header) (buffer : W) : Option W := do
  let buffer ← writeU8 buffer h.version
  let buffer ← writeU8 buffer h.type_.asU8
  let buffer ← writeU16 buffer h.flags.bits
  let buffer ← writeU32 buffer h.streamId.val
  writeU32 buffer h.length

end Header

end YamuxLowMem
