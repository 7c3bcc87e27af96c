/-
YamuxLowMem/Chunk.lean

`src/chunk.rs`: fixed-size blocks, views into them, and the two queues built
on them.

Every function that can panic in the source (an `expect`, an `assert!`, an
index or a `usize` subtraction that may be out of range) returns an `Option`
here, and `none` is the panic.  A function of the source that itself returns
an `Option` therefore has type `Option (Option _ × _)`: the outer layer is the
panic, the inner one the answer.  Sizes and offsets (`usize`) are naturals.

`VecDeque`s are lists with their front first.  The `Arc` around the storage of
a view is not modelled: views never write, so sharing cannot be observed.
-/
import YamuxLowMem.Lib.BigEndian
import Mathlib.Data.List.Basic

namespace YamuxLowMem

abbrev Bytes := List UInt8

/-- Number of bytes a `ChunkOwned` can store. -/
def defaultChunkCapacity : Nat := 4090

/-- `usize` subtraction; `none` is the overflow panic. -/
def checkedSub (a b : Nat) : Option Nat :=
  if b ≤ a then some (a - b) else none

/-- A `Vec<u8>`: its elements, and how many it can hold without growing. -/
structure Vec where
  elems : Bytes
  capacity : Nat
  fits : elems.length ≤ capacity

namespace Vec

/-- A vector without spare room, as `vec![..]` and `to_vec()` make them. -/
def ofList (bs : Bytes) : Vec := ⟨bs, bs.length, Nat.le_refl _⟩

/-- `vec![0; n]`. -/
def zeroed (n : Nat) : Vec := ofList (List.replicate n 0)

/-- Overwrite the elements from `start` on with `bs`; `none` when they do not
all lie within the vector. -/
def overwrite (v : Vec) (start : Nat) (bs : Bytes) : Option Vec :=
  if h : start + bs.length ≤ v.elems.length then
    some {
      elems := v.elems.take start ++ bs ++ v.elems.drop (start + bs.length)
      capacity := v.capacity
      fits := by
        have hfits := v.fits
        simp only [List.length_append, List.length_take, List.length_drop]
        omega }
  else none

/-- The elements in `start..stop`; `none` when the range is not a range of the
vector. -/
def slice (v : Vec) (start stop : Nat) : Option Bytes :=
  if start ≤ stop ∧ stop ≤ v.elems.length then
    some ((v.elems.take stop).drop start)
  else none

end Vec

/-! ### Chunk storage (owned) -/

/-- Fixed-capacity buffer for ingesting bytes before slicing into views. -/
structure ChunkOwned where
  data : Vec
  len : Nat
  consumed : Nat

namespace ChunkOwned

/-- `From<Vec<u8>>`. -/
def ofVec (value : Vec) : ChunkOwned :=
  { data := value, len := value.elems.length, consumed := 0 }

/-- `Default`. -/
def default : ChunkOwned :=
  { data := Vec.zeroed defaultChunkCapacity, len := 0, consumed := 0 }

/-- The filled slice (excluding bytes already consumed). -/
def filledSlice (c : ChunkOwned) : Option Bytes := c.data.slice c.consumed c.len

/-- Marks `len` bytes as consumed from the front of this chunk. -/
def consumeFront (c : ChunkOwned) (len : Nat) : Option ChunkOwned :=
  if c.consumed + len ≤ c.len then some { c with consumed := c.consumed + len } else none

def filledLen (c : ChunkOwned) : Option Nat := checkedSub c.len c.consumed

def availableLen (c : ChunkOwned) : Option Nat := checkedSub c.data.capacity c.len

def writeU8 (c : ChunkOwned) (byte : UInt8) : Option ChunkOwned := do
  let data ← c.data.overwrite c.len [byte]
  return { c with data := data, len := c.len + 1 }

def writeSlice (c : ChunkOwned) (chunk : Bytes) : Option ChunkOwned := do
  let data ← c.data.overwrite c.len chunk
  return { c with data := data, len := c.len + chunk.length }

end ChunkOwned

/-! ### Chunk view (shared) -/

inductive ChunkError where
  | overflow (attempted : Nat)
  deriving DecidableEq, Repr

/-- Immutable window `start..stop` into a `ChunkOwned`. -/
structure ChunkView where
  data : ChunkOwned
  start : Nat
  stop : Nat

/-- Sequentially consuming bytes from chained chunks without copying. -/
class ChunkBufferReader (R : Type) where
  len : R → Option Nat
  nextU8 : R → Option (Option UInt8 × R)
  nextChunk : R → Nat → Option (Option ChunkView × R)

namespace ChunkBufferReader

variable {R : Type} [ChunkBufferReader R]

/-- Pulls two bytes in network order. -/
def nextU16 (r : R) : Option (Option UInt16 × R) := do
  if (← len r) < 2 then
    return (none, r)
  let (v₁, r) ← nextU8 r
  let v₁ ← v₁
  let (v₂, r) ← nextU8 r
  let v₂ ← v₂
  return (some (BigEndian.u16 v₁ v₂), r)

/-- Pulls a `u32` encoded as a 4-byte network-order integer. -/
def nextU32 (r : R) : Option (Option UInt32 × R) := do
  if (← len r) < 4 then
    return (none, r)
  let (v₁, r) ← nextU8 r
  let v₁ ← v₁
  let (v₂, r) ← nextU8 r
  let v₂ ← v₂
  let (v₃, r) ← nextU8 r
  let v₃ ← v₃
  let (v₄, r) ← nextU8 r
  let v₄ ← v₄
  return (some (BigEndian.u32 v₁ v₂ v₃ v₄), r)

end ChunkBufferReader

namespace ChunkView

/-- `From<ChunkOwned>`. -/
def ofChunk (chunk : ChunkOwned) : ChunkView := { data := chunk, start := 0, stop := chunk.len }

/-- `From<Vec<u8>>`. -/
def ofVec (value : Vec) : ChunkView := ofChunk (ChunkOwned.ofVec value)

/-- Number of visible bytes. -/
def len (v : ChunkView) : Option Nat := checkedSub v.stop v.start

/-- Borrows the narrower view `a..b`. -/
def view (v : ChunkView) (a b : Nat) : Option (Except ChunkError ChunkView) := do
  if (← v.len) < b then
    return .error (.overflow (v.start + b))
  return .ok { v with start := v.start + a, stop := v.start + b }

def nextU8 (v : ChunkView) : Option (Option UInt8 × ChunkView) := do
  if (← v.len) = 0 then
    return (none, v)
  let value ← v.data.data.elems[v.start]?
  return (some value, { v with start := v.start + 1 })

def nextChunk (v : ChunkView) (maxLen : Nat) : Option (Option ChunkView × ChunkView) := do
  if (← v.len) = 0 then
    return (none, v)
  let chunkLen := min maxLen (← v.len)
  match ← v.view 0 chunkLen with
  | .ok chunk => return (some chunk, { v with start := v.start + chunkLen })
  | .error _ => none

/-- `Deref`: the bytes the view shows. -/
def deref (v : ChunkView) : Option Bytes := v.data.data.slice v.start v.stop

instance : ChunkBufferReader ChunkView where
  len := len
  nextU8 := nextU8
  nextChunk := nextChunk

end ChunkView

/-! ### Writer traits -/

/-- Appending bytes into a chunked buffer. -/
class ChunkBufferWriter (W : Type) where
  filledLen : W → Option Nat
  availableLen : W → Option Nat
  writeU8 : W → UInt8 → Option W
  writeSlice : W → Bytes → Option W

namespace ChunkBufferWriter

variable {W : Type} [ChunkBufferWriter W]

/-- Appends two bytes in network order. -/
def writeU16 (w : W) (value : UInt16) : Option W := do
  let w ← writeU8 w (value >>> 8).toUInt8
  writeU8 w (value &&& 0xFF).toUInt8

/-- Appends a `u32` encoded as a 4-byte network-order integer. -/
def writeU32 (w : W) (value : UInt32) : Option W := do
  let w ← writeU8 w (value >>> 24).toUInt8
  let w ← writeU8 w (value >>> 16).toUInt8
  let w ← writeU8 w (value >>> 8).toUInt8
  writeU8 w (value &&& 0xFF).toUInt8

end ChunkBufferWriter

/-- Treating a chunk queue as a readable source. -/
class ChunkBufferSource (W : Type) where
  frontSlice : W → Option (Option Bytes)
  popFront : W → Option (Option ChunkView × W)
  consumeFront : W → Nat → Option W

/-- Treating a chunk queue as a sink of additional chunks. -/
class ChunkBufferSink (R : Type) where
  pushBack : R → ChunkView → Option R

instance : ChunkBufferWriter ChunkOwned where
  filledLen := ChunkOwned.filledLen
  availableLen := ChunkOwned.availableLen
  writeU8 := ChunkOwned.writeU8
  writeSlice := ChunkOwned.writeSlice

/-! ### Chained writer -/

/-- Writer that appends encoded bytes into chained `ChunkOwned` blocks. -/
structure ChainedChunkBufferWriter where
  queue : List ChunkOwned
  filledLen : Nat

namespace ChainedChunkBufferWriter

def new : ChainedChunkBufferWriter := { queue := [], filledLen := 0 }

def frontSlice (w : ChainedChunkBufferWriter) : Option (Option Bytes) :=
  match w.queue with
  | [] => some none
  | c :: _ => do return some (← c.filledSlice)

def popFront (w : ChainedChunkBufferWriter) :
    Option (Option ChunkView × ChainedChunkBufferWriter) :=
  match w.queue with
  | [] => some (none, w)
  | c :: rest => do
      let filledLen ← checkedSub w.filledLen (← c.filledLen)
      return (some (ChunkView.ofChunk c), { queue := rest, filledLen := filledLen })

/-- Callers ensure `len` does not exceed `front_slice().len()`. -/
def consumeFront (w : ChainedChunkBufferWriter) (len : Nat) :
    Option ChainedChunkBufferWriter :=
  match w.queue with
  | [] => none
  | front :: rest => do
      let front ← front.consumeFront len
      let filledLen ← checkedSub w.filledLen len
      if (← front.filledLen) = 0 then
        return { queue := rest, filledLen := filledLen }
      else
        return { queue := front :: rest, filledLen := filledLen }

def availableLen (w : ChainedChunkBufferWriter) : Option Nat :=
  match w.queue.getLast? with
  | some last => last.availableLen
  | none => some 0

/-- The `if let Some(last) = self.queue.back_mut() && last.available_len() >= 1`
that decides between the last chunk and a new one. -/
def lastWithRoom (w : ChainedChunkBufferWriter) : Option (Option ChunkOwned) :=
  match w.queue.getLast? with
  | none => some none
  | some last => do
      if 1 ≤ (← last.availableLen) then return some last else return none

def writeU8 (w : ChainedChunkBufferWriter) (byte : UInt8) :
    Option ChainedChunkBufferWriter := do
  match ← w.lastWithRoom with
  | some last =>
      let last ← last.writeU8 byte
      return { queue := w.queue.dropLast ++ [last], filledLen := w.filledLen + 1 }
  | none =>
      let chunk ← ChunkOwned.default.writeU8 byte
      return { queue := w.queue ++ [chunk], filledLen := w.filledLen + 1 }

/-- The `while` loop of `write_slice` over what is left of the data.  Every
turn takes at least one byte, so the length of the data is fuel enough. -/
def writeSliceLoop : Nat → ChainedChunkBufferWriter → Bytes → Option ChainedChunkBufferWriter
  | _, w, [] => some w
  | 0, _, _ :: _ => none
  | fuel + 1, w, byte :: bytes => do
      let data := byte :: bytes
      match ← w.lastWithRoom with
      | some last =>
          let writeLen := min (← last.availableLen) data.length
          let last ← last.writeSlice (data.take writeLen)
          writeSliceLoop fuel
            { queue := w.queue.dropLast ++ [last], filledLen := w.filledLen + writeLen }
            (data.drop writeLen)
      | none =>
          let writeLen := min (← ChunkOwned.default.availableLen) data.length
          let chunk ← ChunkOwned.default.writeSlice (data.take writeLen)
          writeSliceLoop fuel
            { queue := w.queue ++ [chunk], filledLen := w.filledLen + writeLen }
            (data.drop writeLen)

def writeSlice (w : ChainedChunkBufferWriter) (data : Bytes) :
    Option ChainedChunkBufferWriter :=
  if data.isEmpty then some w
  else if w.queue.isEmpty then
    writeSliceLoop data.length { w with queue := [ChunkOwned.default] } data
  else writeSliceLoop data.length w data

instance : ChunkBufferWriter ChainedChunkBufferWriter where
  filledLen w := some w.filledLen
  availableLen := availableLen
  writeU8 := writeU8
  writeSlice := writeSlice

instance : ChunkBufferSource ChainedChunkBufferWriter where
  frontSlice := frontSlice
  popFront := popFront
  consumeFront := consumeFront

end ChainedChunkBufferWriter

/-! ### Chained reader -/

/-- Reader that walks across chained `ChunkView` blocks. -/
structure ChainedChunkBufferReader where
  chunks : List ChunkView
  len : Nat

namespace ChainedChunkBufferReader

def new : ChainedChunkBufferReader := { chunks := [], len := 0 }

/-- `From<ChainedChunkBufferWriter>`. -/
def ofWriter (value : ChainedChunkBufferWriter) : ChainedChunkBufferReader :=
  { chunks := value.queue.map ChunkView.ofChunk, len := value.filledLen }

def pushBack (r : ChainedChunkBufferReader) (chunk : ChunkView) :
    Option ChainedChunkBufferReader := do
  return { chunks := r.chunks ++ [chunk], len := r.len + (← chunk.len) }

/-- Put the front chunk back, unless nothing of it is left. -/
def withFront (len : Nat) (front : ChunkView) (rest : List ChunkView) :
    Option ChainedChunkBufferReader := do
  if (← front.len) = 0 then
    return { chunks := rest, len := len }
  else
    return { chunks := front :: rest, len := len }

def nextU8 (r : ChainedChunkBufferReader) : Option (Option UInt8 × ChainedChunkBufferReader) :=
  match r.chunks with
  | [] => some (none, r)
  | front :: rest => do
      let (out, front) ← front.nextU8
      let out ← out
      let len ← checkedSub r.len 1
      return (some out, ← withFront len front rest)

def nextChunk (r : ChainedChunkBufferReader) (maxLen : Nat) :
    Option (Option ChunkView × ChainedChunkBufferReader) :=
  match r.chunks with
  | [] => some (none, r)
  | front :: rest => do
      let (out, front) ← front.nextChunk maxLen
      let out ← out
      let len ← checkedSub r.len (← out.len)
      return (some out, ← withFront len front rest)

instance : ChunkBufferReader ChainedChunkBufferReader where
  len r := some r.len
  nextU8 := nextU8
  nextChunk := nextChunk

instance : ChunkBufferSink ChainedChunkBufferReader where
  pushBack := pushBack

end ChainedChunkBufferReader

end YamuxLowMem
