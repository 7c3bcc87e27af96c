/-
YamuxLowMem/AvailableLen.lean

What `available_len` of a `ChunkOwned` is worth.

It is meant to be the number of bytes that can be written, and is computed as
the capacity of the vector less the bytes filled.  A write, however, indexes
into the vector, so it must end within the vector's length.  In a default chunk
the two are the same.  A chunk made of a vector is full from the start, and
what `available_len` promises there is the vector's spare capacity, which no
write can use.

`ChunkOwned.Since` is the invariant: the vector keeps its length and capacity,
and the filled bytes only grow.
-/
import YamuxLowMem.ByteQueue
import YamuxLowMem.Lib.Fifo

namespace YamuxLowMem

/-- The ways to make a `ChunkOwned`. -/
inductive ChunkStart where
  | default
  | vec (value : Vec)

namespace ChunkStart

def chunk : ChunkStart → ChunkOwned
  | default => ChunkOwned.default
  | vec value => ChunkOwned.ofVec value

/-- The vector cannot hold more elements than it has. -/
def NoSpare (start : ChunkStart) : Prop :=
  start.chunk.data.capacity = start.chunk.data.elems.length

theorem noSpare_default : default.NoSpare := by
  rw [NoSpare, chunk, ChunkOwned.wf_default.capacity, ChunkOwned.wf_default.size]

end ChunkStart

inductive ChunkWrite where
  | writeU8 (byte : UInt8)
  | writeSlice (chunk : Bytes)

namespace ChunkWrite

def call (c : ChunkOwned) : ChunkWrite → Option ChunkOwned
  | writeU8 byte => c.writeU8 byte
  | writeSlice chunk => c.writeSlice chunk

/-- The bytes a call writes. -/
def bytes : ChunkWrite → Bytes
  | writeU8 byte => [byte]
  | writeSlice chunk => chunk

theorem call_eq (c : ChunkOwned) (w : ChunkWrite) : w.call c = c.writeSlice w.bytes := by
  cases w with
  | writeU8 byte => exact ChunkOwned.writeU8_eq byte
  | writeSlice chunk => rfl

end ChunkWrite

/-- The calls on a chunk. -/
inductive ChunkOp where
  | write (w : ChunkWrite)
  | consumeFront (len : Nat)

def ChunkOp.call (c : ChunkOwned) : ChunkOp → Option ChunkOwned
  | write w => w.call c
  | consumeFront len => c.consumeFront len

/-- A chunk under these calls, all of which are always allowed. -/
def chunkOwned : Fifo.Object ChunkOwned ChunkOp Unit where
  call c op := (op.call c).map ((), ·)
  allowed _ _ := True

abbrev ChunkCall := Fifo.Call ChunkOwned ChunkOp Unit

namespace ChunkOwned

variable {c c₀ c' : ChunkOwned}

/-- The write returns, adds its bytes to the filled slice, and takes their
number off `available_len`. -/
def Takes (c : ChunkOwned) (w : ChunkWrite) : Prop :=
  ∃ c' filled n, w.call c = some c' ∧
    c.filledSlice = some filled ∧ c'.filledSlice = some (filled ++ w.bytes) ∧
    c.availableLen = some (n + w.bytes.length) ∧ c'.availableLen = some n

/-- `c` comes from `c₀` by calls. -/
structure Since (c₀ c : ChunkOwned) : Prop where
  ordered : c.Ordered
  size : c.data.elems.length = c₀.data.elems.length
  capacity : c.data.capacity = c₀.data.capacity
  len_le : c₀.len ≤ c.len

/-! ### Single calls -/

theorem ordered_chunk (start : ChunkStart) : start.chunk.Ordered := by
  cases start with
  | default => exact wf_default.ordered
  | vec value => exact ⟨Nat.zero_le _, Nat.le_refl _⟩

/-- A write that returns has ended within the elements of the vector. -/
theorem room_of_writeSlice {bs : Bytes} (h : c.writeSlice bs = some c') :
    c.len + bs.length ≤ c.data.elems.length := by
  obtain ⟨data, hdata, -⟩ := Option.bind_eq_some_iff.mp h
  by_contra hroom
  rw [Vec.overwrite, dif_neg hroom] at hdata
  cases hdata

theorem Since.call (h : Since c₀ c) {op : ChunkOp} (hcall : op.call c = some c') :
    Since c₀ c' := by
  cases op with
  | write w =>
      replace hcall : c.writeSlice w.bytes = some c' := (w.call_eq c).symm.trans hcall
      obtain ⟨c₁, hwrite, hordered, hsize, hcap, -, hlen⟩ :=
        writeSlice_of_ordered w.bytes h.ordered (room_of_writeSlice hcall)
      obtain rfl : c₁ = c' := Option.some.inj (hwrite.symm.trans hcall)
      refine ⟨hordered, hsize.trans h.size, hcap.trans h.capacity, ?_⟩
      rw [hlen]
      exact h.len_le.trans (Nat.le_add_right _ _)
  | consumeFront len =>
      replace hcall : c.consumeFront len = some c' := hcall
      rw [consumeFront] at hcall
      split at hcall
      · rename_i hle
        cases hcall
        exact ⟨⟨hle, h.ordered.len_le⟩, h.size, h.capacity, h.len_le⟩
      · cases hcall

/-- `available_len` can be relied on up to the end of the vector's elements. -/
theorem takes_iff (h : c.Ordered) {w : ChunkWrite}
    (hn : w.bytes.length ≤ c.data.capacity - c.len) :
    c.Takes w ↔ c.len + w.bytes.length ≤ c.data.elems.length := by
  constructor
  · rintro ⟨c', filled, n, hcall, -⟩
    rw [w.call_eq] at hcall
    exact room_of_writeSlice hcall
  · intro hroom
    obtain ⟨c', hwrite, hordered, -, hcap, hbytes, hlen⟩ :=
      writeSlice_of_ordered w.bytes h hroom
    refine ⟨c', c.bytes, c'.data.capacity - c'.len, (w.call_eq c).trans hwrite,
      filledSlice_of_ordered h, ?_, ?_, availableLen_of_ordered hordered⟩
    · rw [filledSlice_of_ordered hordered, hbytes]
    · rw [availableLen_of_ordered h, hcap, hlen]
      exact congrArg some (by omega)

end ChunkOwned

/-! ### Sequences of calls -/

theorem since_of_run {start : ChunkStart} {ops : List ChunkOp} {calls : List ChunkCall}
    {c : ChunkOwned} (hrun : chunkOwned.run start.chunk ops = some (calls, c)) :
    ChunkOwned.Since start.chunk c := by
  have hstart : ChunkOwned.Since start.chunk start.chunk :=
    ⟨ChunkOwned.ordered_chunk start, rfl, rfl, Nat.le_refl _⟩
  refine (Fifo.Object.run_forall (P := fun _ => True) ?_ hstart
    (Fifo.Object.allowed_of_forall (fun _ _ => trivial) ops) hrun).1
  intro c op answer c' hc _ hcall
  obtain ⟨c₁, hcall, heq⟩ := Option.map_eq_some_iff.mp hcall
  cases heq
  exact ⟨hc.call hcall, trivial⟩

/-- Where the vector of a chunk has no spare capacity, every write of at most
`available_len` bytes goes through, after any sequence of calls.  Where it has,
no such write goes through, unless it writes nothing. -/
theorem available_len_iff (start : ChunkStart) (ops : List ChunkOp) {calls : List ChunkCall}
    {c : ChunkOwned} (hrun : chunkOwned.run start.chunk ops = some (calls, c)) :
    ∃ n, c.availableLen = some n ∧ ∀ w : ChunkWrite, w.bytes.length ≤ n →
      (c.Takes w ↔ start.NoSpare ∨ w.bytes = []) := by
  have hc := since_of_run hrun
  refine ⟨c.data.capacity - c.len, ChunkOwned.availableLen_of_ordered hc.ordered, ?_⟩
  intro w hw
  rw [ChunkOwned.takes_iff hc.ordered hw, hc.size, ← List.length_eq_zero_iff]
  rw [hc.capacity] at hw
  have hle := hc.ordered.len_le
  rw [hc.size] at hle
  cases start with
  | default =>
      have hspare := ChunkStart.noSpare_default
      refine iff_of_true ?_ (Or.inl hspare)
      rw [ChunkStart.NoSpare] at hspare
      omega
  | vec value =>
      -- the chunk has been full from the start
      have hfull : c.len = value.elems.length := Nat.le_antisymm hle hc.len_le
      rw [ChunkStart.NoSpare]
      show c.len + _ ≤ value.elems.length ↔ value.capacity = value.elems.length ∨ _
      replace hw : w.bytes.length ≤ value.capacity - c.len := hw
      omega

/-- A default chunk that has been written and consumed from. -/
theorem available_len_default :
    ∃ calls c, chunkOwned.run ChunkStart.default.chunk
        [.write (.writeU8 7), .write (.writeSlice [8, 9]), .consumeFront 2] = some (calls, c) ∧
      c.availableLen = some 4087 ∧ ∀ w : ChunkWrite, w.bytes.length ≤ 4087 → c.Takes w := by
  have hrun : (chunkOwned.run ChunkStart.default.chunk
      [.write (.writeU8 7), .write (.writeSlice [8, 9]), .consumeFront 2]).map
        (·.2.availableLen) = some (some 4087) := by decide +kernel
  obtain ⟨⟨calls, c⟩, hrun, havailable⟩ := Option.map_eq_some_iff.mp hrun
  obtain ⟨n, hn, htakes⟩ := available_len_iff .default _ hrun
  obtain rfl : n = 4087 := Option.some.inj (hn.symm.trans havailable)
  refine ⟨calls, c, hrun, hn, ?_⟩
  intro w hw
  exact (htakes w hw).mpr (Or.inl ChunkStart.noSpare_default)

/-- In a chunk made of `Vec::with_capacity(4)` there is room for four bytes, by
`available_len`; writing one panics. -/
theorem available_len_untruthful :
    ∃ c, chunkOwned.run (ChunkStart.vec ⟨[], 4, Nat.zero_le 4⟩).chunk [] = some ([], c) ∧
      c.availableLen = some 4 ∧ c.writeU8 7 = none ∧ ¬ c.Takes (.writeU8 7) := by
  refine ⟨_, rfl, rfl, rfl, ?_⟩
  rintro ⟨c', filled, n, hcall, -⟩
  cases hcall

end YamuxLowMem
