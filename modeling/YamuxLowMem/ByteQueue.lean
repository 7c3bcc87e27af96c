/-
YamuxLowMem/ByteQueue.lean

What the chunked buffers are for: they are queues of bytes.

`ByteSource` says when a reader denotes a queue of bytes and what each of its
operations does to that queue; `ByteSink` does the same for writers.  Both are
relative to an invariant, under which no operation panics.  The chained reader
and the chained writer are instances, and so is a single view; the layers
above only use the two classes.

Invariants.  A view's range lies inside its storage.  The reader queues no
empty view and its cached length is the total; the writer queues no chunk
without unconsumed bytes, its chunks are all of the default capacity, and its
cached length is the total.
-/
import YamuxLowMem.Chunk

namespace YamuxLowMem

/-! ### Readers and writers as byte queues -/

/-- A reader that denotes a queue of bytes. -/
class ByteSource (R : Type) [ChunkBufferReader R] where
  Wf : R → Prop
  bytes : R → Bytes
  len_eq : ∀ {r}, Wf r → ChunkBufferReader.len r = some (bytes r).length
  nextU8_cons : ∀ {r b bs}, Wf r → bytes r = b :: bs →
    ∃ r', ChunkBufferReader.nextU8 r = some (some b, r') ∧ Wf r' ∧ bytes r' = bs
  nextU8_nil : ∀ {r}, Wf r → bytes r = [] → ChunkBufferReader.nextU8 r = some (none, r)
  nextChunk_nil : ∀ {r} (maxLen : Nat), Wf r → bytes r = [] →
    ChunkBufferReader.nextChunk r maxLen = some (none, r)
  nextChunk_cons : ∀ {r} (maxLen : Nat), Wf r → bytes r ≠ [] →
    ∃ v r' c, ChunkBufferReader.nextChunk r maxLen = some (some v, r') ∧
      v.len = some c.length ∧ v.deref = some c ∧ Wf r' ∧ bytes r = c ++ bytes r' ∧
      c.length ≤ maxLen ∧ (0 < maxLen → c ≠ [])

/-- A writer that denotes a queue of bytes. -/
class ByteSink (W : Type) [ChunkBufferWriter W] where
  Wf : W → Prop
  bytes : W → Bytes
  filledLen_eq : ∀ {w}, Wf w → ChunkBufferWriter.filledLen w = some (bytes w).length
  writeU8_spec : ∀ {w} (b : UInt8), Wf w →
    ∃ w', ChunkBufferWriter.writeU8 w b = some w' ∧ Wf w' ∧ bytes w' = bytes w ++ [b]
  writeSlice_spec : ∀ {w} (bs : Bytes), Wf w →
    ∃ w', ChunkBufferWriter.writeSlice w bs = some w' ∧ Wf w' ∧ bytes w' = bytes w ++ bs

/-! ### Vectors -/

theorem checkedSub_of_le {a b : Nat} (h : b ≤ a) : checkedSub a b = some (a - b) := by
  simp [checkedSub, h]

/-- A call that answers is followed by what is done with the answer. -/
theorem bind_of_eq_some {α β : Type} {x : Option α} {a : α} {f : α → Option β} (h : x = some a) :
    x >>= f = f a := by
  rw [h]
  rfl

/-- Taking every element of a list through a function that answers. -/
theorem mapM_of_forall {α β : Type} {f : α → Option β} {g : α → β} {l : List α}
    (h : ∀ a ∈ l, f a = some (g a)) : l.mapM f = some (l.map g) := by
  induction l with
  | nil => rfl
  | cons a l ih =>
      rw [List.mapM_cons, h a List.mem_cons_self, ih fun b hb => h b (List.mem_cons_of_mem _ hb)]
      rfl

namespace Vec

@[simp] theorem elems_ofList (bs : Bytes) : (ofList bs).elems = bs := rfl

@[simp] theorem elems_zeroed (n : Nat) : (zeroed n).elems = List.replicate n 0 := rfl

@[simp] theorem capacity_zeroed (n : Nat) : (zeroed n).capacity = n := by
  simp [zeroed, ofList]

theorem slice_of_le {v : Vec} {a b : Nat} (hab : a ≤ b) (hb : b ≤ v.elems.length) :
    v.slice a b = some ((v.elems.take b).drop a) := by
  simp [slice, hab, hb]

/-- Writing just past position `n` extends the slice that ended there. -/
theorem overwrite_spec {v : Vec} {n : Nat} (bs : Bytes) (h : n + bs.length ≤ v.elems.length) :
    ∃ v', v.overwrite n bs = some v' ∧ v'.elems.length = v.elems.length ∧
      v'.capacity = v.capacity ∧ v'.elems.take (n + bs.length) = v.elems.take n ++ bs := by
  refine ⟨_, dif_pos h, ?_, rfl, ?_⟩
  · simp only [List.length_append, List.length_take, List.length_drop]
    omega
  · have hlen : (v.elems.take n ++ bs).length = n + bs.length := by
      simp only [List.length_append, List.length_take]
      omega
    exact List.take_left' hlen

end Vec

/-! ### Views -/

namespace ChunkView

/-- The range of the view lies inside its storage. -/
def Wf (v : ChunkView) : Prop := v.start ≤ v.stop ∧ v.stop ≤ v.data.data.elems.length

/-- The bytes a view shows. -/
def bytes (v : ChunkView) : Bytes := (v.data.data.elems.take v.stop).drop v.start

variable {v : ChunkView}

theorem length_bytes (h : v.Wf) : v.bytes.length = v.stop - v.start := by
  have h2 := h.2
  simp only [bytes, List.length_drop, List.length_take]
  omega

theorem len_of_wf (h : v.Wf) : v.len = some v.bytes.length := by
  rw [length_bytes h, len, checkedSub_of_le h.1]

theorem deref_of_wf (h : v.Wf) : v.deref = some v.bytes := Vec.slice_of_le h.1 h.2

@[simp] theorem bytes_ofList (bs : Bytes) : (ofVec (Vec.ofList bs)).bytes = bs := by
  simp [bytes, ofVec, ofChunk, ChunkOwned.ofVec]

theorem wf_ofVec (value : Vec) : (ofVec value).Wf := ⟨Nat.zero_le _, Nat.le_refl _⟩

theorem start_lt_stop (h : v.Wf) (hne : v.bytes ≠ []) : v.start < v.stop := by
  have hpos := List.length_pos_iff.mpr hne
  rw [length_bytes h] at hpos
  omega

theorem nextU8_of_wf {b : UInt8} {bs : Bytes} (h : v.Wf) (hv : v.bytes = b :: bs) :
    ∃ v', v.nextU8 = some (some b, v') ∧ v'.Wf ∧ v'.bytes = bs := by
  have hlt := start_lt_stop h (by simp [hv])
  refine ⟨{ v with start := v.start + 1 }, ?_, ⟨hlt, h.2⟩, ?_⟩
  · have hget : v.data.data.elems[v.start]? = some b := by
      have h0 := congrArg (fun l => l[0]?) hv
      simpa [bytes, List.getElem?_drop, List.getElem?_take, hlt] using h0
    simp [nextU8, len_of_wf h, hv, hget]
  · have ht := congrArg List.tail hv
    simpa [bytes, List.tail_drop] using ht

theorem nextU8_of_nil (h : v.Wf) (hv : v.bytes = []) : v.nextU8 = some (none, v) := by
  simp [nextU8, len_of_wf h, hv]

theorem nextChunk_of_nil (maxLen : Nat) (h : v.Wf) (hv : v.bytes = []) :
    v.nextChunk maxLen = some (none, v) := by
  simp [nextChunk, len_of_wf h, hv]

/-- A range is not checked for being one: only its end matters. -/
theorem view_of_le {a b : Nat} (h : v.Wf) (hb : b ≤ v.bytes.length) :
    v.view a b = some (.ok { v with start := v.start + a, stop := v.start + b }) := by
  simp [view, len_of_wf h, Nat.not_lt.mpr hb]

theorem view_of_lt {a b : Nat} (h : v.Wf) (hb : v.bytes.length < b) :
    v.view a b = some (.error (.overflow (v.start + b))) := by
  simp [view, len_of_wf h, hb]

theorem start_add_le {b : Nat} (h : v.Wf) (hb : b ≤ v.bytes.length) : v.start + b ≤ v.stop := by
  rw [length_bytes h] at hb
  have hstart := h.1
  omega

theorem wf_view_iff {a b : Nat} (h : v.Wf) (hb : b ≤ v.bytes.length) :
    ({ v with start := v.start + a, stop := v.start + b } : ChunkView).Wf ↔ a ≤ b := by
  constructor
  · rintro ⟨hab, -⟩
    exact Nat.le_of_add_le_add_left hab
  · intro hab
    exact ⟨Nat.add_le_add_left hab _, (start_add_le h hb).trans h.2⟩

theorem bytes_view {a b : Nat} (h : v.Wf) (hb : b ≤ v.bytes.length) :
    ({ v with start := v.start + a, stop := v.start + b } : ChunkView).bytes =
      (v.bytes.take b).drop a := by
  rw [bytes, bytes, List.take_drop, List.drop_drop, List.take_take,
    Nat.min_eq_left (start_add_le h hb)]

/-- A chunk taken from a view and what stays in it make up the view. -/
theorem nextChunk_of_wf (maxLen : Nat) (h : v.Wf) (hne : v.bytes ≠ []) :
    ∃ c v', v.nextChunk maxLen = some (some c, v') ∧ c.Wf ∧ v'.Wf ∧
      v.bytes = c.bytes ++ v'.bytes ∧ c.bytes.length = min maxLen v.bytes.length := by
  let n := min maxLen v.bytes.length
  have hn : n ≤ v.bytes.length := Nat.min_le_right _ _
  have hchunk := bytes_view (a := 0) h hn
  refine ⟨{ v with start := v.start + 0, stop := v.start + n }, { v with start := v.start + n },
    ?_, (wf_view_iff h hn).mpr (Nat.zero_le n), ⟨start_add_le h hn, h.2⟩, ?_, ?_⟩
  · have hz : v.bytes.length ≠ 0 := by simpa using hne
    simp [nextChunk, len_of_wf h, hz, show min maxLen v.bytes.length = n from rfl,
      view_of_le h hn]
  · -- the two are the first `n` bytes and the others
    have hrest : ({ v with start := v.start + n } : ChunkView).bytes = v.bytes.drop n := by
      rw [bytes, bytes, List.drop_drop]
    rw [hchunk, hrest]
    exact (List.take_append_drop n v.bytes).symm
  · rw [hchunk, List.drop_zero, List.length_take, Nat.min_eq_left hn]

end ChunkView

instance : ByteSource ChunkView where
  Wf := ChunkView.Wf
  bytes := ChunkView.bytes
  len_eq := ChunkView.len_of_wf
  nextU8_cons := ChunkView.nextU8_of_wf
  nextU8_nil := ChunkView.nextU8_of_nil
  nextChunk_nil := ChunkView.nextChunk_of_nil
  nextChunk_cons := by
    intro r maxLen hwf hne
    obtain ⟨c, v', hnext, hc, hv', hbytes, hlen⟩ := ChunkView.nextChunk_of_wf maxLen hwf hne
    refine ⟨c, v', c.bytes, hnext, ChunkView.len_of_wf hc, ChunkView.deref_of_wf hc, hv', hbytes,
      by omega, fun hpos hnil => ?_⟩
    have hr := List.length_pos_iff.mpr hne
    rw [hnil] at hlen
    simp only [List.length_nil] at hlen
    omega

/-! ### The chained reader -/

namespace ChainedChunkBufferReader

/-- All queued bytes. -/
def bytes (r : ChainedChunkBufferReader) : Bytes := r.chunks.flatMap ChunkView.bytes

/-- No empty view is queued, and the cached length is the total. -/
structure Wf (r : ChainedChunkBufferReader) : Prop where
  views : ∀ v ∈ r.chunks, v.Wf
  nonempty : ∀ v ∈ r.chunks, v.bytes ≠ []
  len_eq : r.len = r.bytes.length

variable {r : ChainedChunkBufferReader}

theorem wf_new : (new : ChainedChunkBufferReader).Wf :=
  ⟨by simp [new], by simp [new], rfl⟩

@[simp] theorem bytes_new : (new : ChainedChunkBufferReader).bytes = [] := rfl

theorem pushBack_of_wf {v : ChunkView} (h : r.Wf) (hv : v.Wf) (hne : v.bytes ≠ []) :
    ∃ r', r.pushBack v = some r' ∧ r'.Wf ∧ r'.bytes = r.bytes ++ v.bytes := by
  have hb : (r.chunks ++ [v]).flatMap ChunkView.bytes = r.bytes ++ v.bytes := by simp [bytes]
  refine ⟨⟨r.chunks ++ [v], r.len + v.bytes.length⟩, ?_, ⟨?_, ?_, ?_⟩, hb⟩
  · simp [pushBack, ChunkView.len_of_wf hv]
  · intro u hu
    rcases List.mem_append.mp hu with hu | hu
    · exact h.views u hu
    · rw [List.mem_singleton.mp hu]; exact hv
  · intro u hu
    rcases List.mem_append.mp hu with hu | hu
    · exact h.nonempty u hu
    · rw [List.mem_singleton.mp hu]; exact hne
  · show r.len + v.bytes.length = ((r.chunks ++ [v]).flatMap ChunkView.bytes).length
    rw [hb, List.length_append, h.len_eq]

/-- Putting back what is left of the front view keeps the invariant. -/
theorem withFront_of_wf {front : ChunkView} {rest : List ChunkView} {n : Nat}
    (hf : front.Wf) (hrest : ∀ v ∈ rest, v.Wf) (hne : ∀ v ∈ rest, v.bytes ≠ [])
    (hn : n = (front.bytes ++ rest.flatMap ChunkView.bytes).length) :
    ∃ r', withFront n front rest = some r' ∧ r'.Wf ∧
      r'.bytes = front.bytes ++ rest.flatMap ChunkView.bytes := by
  by_cases hz : front.bytes = []
  · refine ⟨⟨rest, n⟩, by simp [withFront, ChunkView.len_of_wf hf, hz], ⟨hrest, hne, ?_⟩, ?_⟩
    · simpa [hz, bytes] using hn
    · simp [bytes, hz]
  · refine ⟨⟨front :: rest, n⟩, by simp [withFront, ChunkView.len_of_wf hf, hz], ⟨?_, ?_, ?_⟩, ?_⟩
    · intro v hv
      rcases List.mem_cons.mp hv with rfl | hv
      · exact hf
      · exact hrest v hv
    · intro v hv
      rcases List.mem_cons.mp hv with rfl | hv
      · exact hz
      · exact hne v hv
    · simpa [bytes] using hn
    · simp [bytes]

/-- A queue that holds bytes has a front view, and it is not empty. -/
theorem Wf.front (h : r.Wf) (hne : r.bytes ≠ []) :
    ∃ front rest, r.chunks = front :: rest ∧ front.Wf ∧ front.bytes ≠ [] ∧
      (∀ v ∈ rest, v.Wf) ∧ (∀ v ∈ rest, v.bytes ≠ []) ∧
      r.bytes = front.bytes ++ rest.flatMap ChunkView.bytes := by
  rcases hc : r.chunks with - | ⟨front, rest⟩
  · exact absurd (by simp [bytes, hc]) hne
  · have hw := h.views
    have hn := h.nonempty
    rw [hc] at hw hn
    exact ⟨front, rest, rfl, hw front (by simp), hn front (by simp),
      fun v hv => hw v (by simp [hv]), fun v hv => hn v (by simp [hv]), by simp [bytes, hc]⟩

theorem chunks_eq_nil (h : r.Wf) (hb : r.bytes = []) : r.chunks = [] := by
  rcases hc : r.chunks with - | ⟨front, rest⟩
  · rfl
  · have hnil : front.bytes = [] := by
      rw [bytes, hc] at hb
      exact (List.append_eq_nil_iff.mp hb).1
    exact absurd hnil (h.nonempty front (by simp [hc]))

theorem nextU8_of_wf {b : UInt8} {bs : Bytes} (h : r.Wf) (hr : r.bytes = b :: bs) :
    ∃ r', r.nextU8 = some (some b, r') ∧ r'.Wf ∧ r'.bytes = bs := by
  obtain ⟨front, rest, hc, hf, hne, hw, hn, hb⟩ := h.front (by simp [hr])
  rcases hfb : front.bytes with - | ⟨b', bs'⟩
  · exact absurd hfb hne
  · have hsplit : b' :: (bs' ++ rest.flatMap ChunkView.bytes) = b :: bs := by
      rw [← hr, hb, hfb]; rfl
    obtain ⟨rfl, hbs⟩ := List.cons.inj hsplit
    obtain ⟨front', hnext, hf', hfb'⟩ := ChunkView.nextU8_of_wf hf hfb
    have hlen : r.len = bs.length + 1 := by rw [h.len_eq, hr, List.length_cons]
    obtain ⟨r', hwith, hr', hrb'⟩ := withFront_of_wf (n := r.len - 1) hf' hw hn
      (by rw [hfb', hbs, hlen]; omega)
    refine ⟨r', ?_, hr', by rw [hrb', hfb', hbs]⟩
    simp [nextU8, hc, hnext, checkedSub_of_le (show 1 ≤ r.len by omega), hwith]

theorem nextChunk_of_wf (maxLen : Nat) (h : r.Wf) (hne : r.bytes ≠ []) :
    ∃ v r' c, r.nextChunk maxLen = some (some v, r') ∧ v.len = some c.length ∧
      v.deref = some c ∧ r'.Wf ∧ r.bytes = c ++ r'.bytes ∧ c.length ≤ maxLen ∧
      (0 < maxLen → c ≠ []) := by
  obtain ⟨front, rest, hc, hf, hfne, hw, hn, hb⟩ := h.front hne
  obtain ⟨v, front', hnext, hv, hf', hsplit, hvlen⟩ := ChunkView.nextChunk_of_wf maxLen hf hfne
  have htotal : r.len = v.bytes.length +
      (front'.bytes ++ rest.flatMap ChunkView.bytes).length := by
    rw [h.len_eq, hb, hsplit, List.append_assoc, List.length_append]
  obtain ⟨r', hwith, hr', hrb'⟩ := withFront_of_wf (n := r.len - v.bytes.length) hf' hw hn
    (by omega)
  refine ⟨v, r', v.bytes, ?_, ChunkView.len_of_wf hv, ChunkView.deref_of_wf hv, hr', ?_,
    by omega, fun hpos hnil => ?_⟩
  · simp [nextChunk, hc, hnext, ChunkView.len_of_wf hv,
      checkedSub_of_le (show v.bytes.length ≤ r.len by omega), hwith]
  · rw [hrb', hb, hsplit, List.append_assoc]
  · have hpos' := List.length_pos_iff.mpr hfne
    rw [hnil, List.length_nil] at hvlen
    omega

end ChainedChunkBufferReader

instance : ByteSource ChainedChunkBufferReader where
  Wf := ChainedChunkBufferReader.Wf
  bytes := ChainedChunkBufferReader.bytes
  len_eq h := congrArg some h.len_eq
  nextU8_cons := ChainedChunkBufferReader.nextU8_of_wf
  nextU8_nil h hb := by
    simp [ChunkBufferReader.nextU8, ChainedChunkBufferReader.nextU8,
      ChainedChunkBufferReader.chunks_eq_nil h hb]
  nextChunk_nil maxLen h hb := by
    simp [ChunkBufferReader.nextChunk, ChainedChunkBufferReader.nextChunk,
      ChainedChunkBufferReader.chunks_eq_nil h hb]
  nextChunk_cons := ChainedChunkBufferReader.nextChunk_of_wf

/-! ### Blocks of the chained writer -/

namespace ChunkOwned

/-- The cursors are in order, and lie within the elements of the vector. -/
structure Ordered (c : ChunkOwned) : Prop where
  consumed_le : c.consumed ≤ c.len
  len_le : c.len ≤ c.data.elems.length

/-- A block of the default capacity, its cursors in order. -/
structure Wf (c : ChunkOwned) : Prop where
  size : c.data.elems.length = defaultChunkCapacity
  capacity : c.data.capacity = defaultChunkCapacity
  consumed_le : c.consumed ≤ c.len
  len_le : c.len ≤ defaultChunkCapacity

/-- The bytes written and not yet consumed. -/
def bytes (c : ChunkOwned) : Bytes := (c.data.elems.take c.len).drop c.consumed

variable {c : ChunkOwned}

theorem Wf.ordered (h : c.Wf) : c.Ordered := ⟨h.consumed_le, h.size ▸ h.len_le⟩

theorem wf_default : default.Wf :=
  ⟨by simp [default], by simp [default], Nat.le_refl _, Nat.zero_le _⟩

@[simp] theorem bytes_default : default.bytes = [] := rfl

@[simp] theorem len_default : default.len = 0 := rfl

theorem length_bytes (h : c.Ordered) : c.bytes.length = c.len - c.consumed := by
  have hlen := h.len_le
  simp only [bytes, List.length_drop, List.length_take]
  omega

theorem filledSlice_of_ordered (h : c.Ordered) : c.filledSlice = some c.bytes :=
  Vec.slice_of_le h.consumed_le h.len_le

theorem filledLen_of_ordered (h : c.Ordered) : c.filledLen = some c.bytes.length := by
  rw [length_bytes h]
  exact checkedSub_of_le h.consumed_le

theorem availableLen_of_ordered (h : c.Ordered) :
    c.availableLen = some (c.data.capacity - c.len) :=
  checkedSub_of_le (h.len_le.trans c.data.fits)

theorem availableLen_of_wf (h : c.Wf) : c.availableLen = some (defaultChunkCapacity - c.len) := by
  rw [availableLen_of_ordered h.ordered, h.capacity]

/-- A write within the elements of the vector extends the filled bytes. -/
theorem writeSlice_of_ordered (bs : Bytes) (h : c.Ordered)
    (hroom : c.len + bs.length ≤ c.data.elems.length) :
    ∃ c', c.writeSlice bs = some c' ∧ c'.Ordered ∧
      c'.data.elems.length = c.data.elems.length ∧ c'.data.capacity = c.data.capacity ∧
      c'.bytes = c.bytes ++ bs ∧ c'.len = c.len + bs.length := by
  obtain ⟨data, hdata, hsize, hcap, htake⟩ := Vec.overwrite_spec bs hroom
  refine ⟨{ c with data := data, len := c.len + bs.length }, by simp [writeSlice, hdata],
    ⟨?_, ?_⟩, hsize, hcap, ?_, rfl⟩
  · exact Nat.le_trans h.consumed_le (Nat.le_add_right _ _)
  · exact hroom.trans hsize.ge
  · show (data.elems.take (c.len + bs.length)).drop c.consumed = c.bytes ++ bs
    have hlen : c.consumed ≤ (c.data.elems.take c.len).length := by
      rw [List.length_take]
      exact Nat.le_min.mpr ⟨h.consumed_le, Nat.le_trans h.consumed_le h.len_le⟩
    rw [htake, List.drop_append_of_le_length hlen]
    rfl

theorem writeSlice_of_wf (bs : Bytes) (h : c.Wf)
    (hroom : c.len + bs.length ≤ defaultChunkCapacity) :
    ∃ c', c.writeSlice bs = some c' ∧ c'.Wf ∧ c'.bytes = c.bytes ++ bs ∧
      c'.len = c.len + bs.length := by
  obtain ⟨c', hwrite, hc', hsize, hcap, hbytes, hlen⟩ :=
    writeSlice_of_ordered bs h.ordered (h.size ▸ hroom)
  exact ⟨c', hwrite, ⟨hsize.trans h.size, hcap.trans h.capacity, hc'.consumed_le,
    hlen ▸ hroom⟩, hbytes, hlen⟩

/-- Writing one byte is writing a slice of one byte. -/
theorem writeU8_eq (byte : UInt8) : c.writeU8 byte = c.writeSlice [byte] := rfl

theorem consumeFront_of_wf {n : Nat} (h : c.Wf) (hn : n ≤ c.bytes.length) :
    ∃ c', c.consumeFront n = some c' ∧ c'.Wf ∧ c'.bytes = c.bytes.drop n := by
  have hlen := length_bytes h.ordered
  have hle : c.consumed + n ≤ c.len := by have := h.consumed_le; omega
  exact ⟨{ c with consumed := c.consumed + n }, by simp [consumeFront, hle],
    ⟨h.size, h.capacity, hle, h.len_le⟩, by simp [bytes, List.drop_drop]⟩

end ChunkOwned

/-! ### The chained writer -/

namespace ChainedChunkBufferWriter

/-- All bytes written and not yet consumed. -/
def bytes (w : ChainedChunkBufferWriter) : Bytes := w.queue.flatMap ChunkOwned.bytes

/-- Every queued block holds unconsumed bytes, and the cached length is the
total. -/
structure Wf (w : ChainedChunkBufferWriter) : Prop where
  chunks : ∀ c ∈ w.queue, c.Wf
  nonempty : ∀ c ∈ w.queue, c.bytes ≠ []
  filledLen_eq : w.filledLen = w.bytes.length

variable {w : ChainedChunkBufferWriter}

theorem wf_new : (new : ChainedChunkBufferWriter).Wf :=
  ⟨by simp [new], by simp [new], rfl⟩

@[simp] theorem bytes_new : (new : ChainedChunkBufferWriter).bytes = [] := rfl

/-- Extending the last block, or adding one, keeps the invariant once that
block holds bytes. -/
theorem wf_snoc {init : List ChunkOwned} {last : ChunkOwned} {n : Nat}
    (hinit : ∀ c ∈ init, c.Wf) (hne : ∀ c ∈ init, c.bytes ≠ []) (hlast : last.Wf)
    (hlne : last.bytes ≠ []) (hn : n = (init.flatMap ChunkOwned.bytes ++ last.bytes).length) :
    (⟨init ++ [last], n⟩ : ChainedChunkBufferWriter).Wf := by
  refine ⟨?_, ?_, by simpa [bytes] using hn⟩
  · intro c hc
    rcases List.mem_append.mp hc with hc | hc
    · exact hinit c hc
    · rw [List.mem_singleton.mp hc]; exact hlast
  · intro c hc
    rcases List.mem_append.mp hc with hc | hc
    · exact hne c hc
    · rw [List.mem_singleton.mp hc]; exact hlne

/-- The invariant of the write loop: only the last block may still be without
bytes. -/
structure Loose (w : ChainedChunkBufferWriter) : Prop where
  chunks : ∀ c ∈ w.queue, c.Wf
  nonempty : ∀ c ∈ w.queue.dropLast, c.bytes ≠ []
  last : ∀ c ∈ w.queue.getLast?, c.len < defaultChunkCapacity ∨ c.bytes ≠ []
  filledLen_eq : w.filledLen = w.bytes.length

theorem Wf.loose (h : w.Wf) : w.Loose where
  chunks := h.chunks
  nonempty c hc := h.nonempty c (List.dropLast_subset _ hc)
  last c hc := Or.inr (h.nonempty c (List.mem_of_getLast? hc))
  filledLen_eq := h.filledLen_eq

/-- Either the last block has room, and all blocks before it hold bytes, or a
new block is called for and all blocks hold bytes. -/
theorem Loose.lastWithRoom (h : w.Loose) :
    (w.lastWithRoom = some none ∧ ∀ c ∈ w.queue, c.bytes ≠ []) ∨
    ∃ last, w.lastWithRoom = some (some last) ∧ w.queue = w.queue.dropLast ++ [last] ∧
      last.Wf ∧ last.len < defaultChunkCapacity := by
  rcases hl : w.queue.getLast? with - | last
  · left
    have hnil : w.queue = [] := List.getLast?_eq_none_iff.mp hl
    exact ⟨by simp [ChainedChunkBufferWriter.lastWithRoom, hl], by simp [hnil]⟩
  · have hmem : last ∈ w.queue := List.mem_of_getLast? hl
    have hq : w.queue = w.queue.dropLast ++ [last] := by
      obtain ⟨init, hinit⟩ := List.getLast?_eq_some_iff.mp hl
      rw [hinit, List.dropLast_concat]
    have hwf := h.chunks last hmem
    have hav := ChunkOwned.availableLen_of_wf hwf
    by_cases hroom : last.len < defaultChunkCapacity
    · right
      have hone : 1 ≤ defaultChunkCapacity - last.len := by omega
      exact ⟨last, by simp [ChainedChunkBufferWriter.lastWithRoom, hl, hav, hone], hq, hwf, hroom⟩
    · left
      have hone : defaultChunkCapacity - last.len = 0 := by omega
      refine ⟨by simp [ChainedChunkBufferWriter.lastWithRoom, hl, hav, hone], fun c hc => ?_⟩
      rw [hq] at hc
      rcases List.mem_append.mp hc with hc | hc
      · exact h.nonempty c hc
      · rw [List.mem_singleton.mp hc]
        exact (h.last last hl).resolve_left hroom

/-- One turn of the write loop puts at least one byte into the last block or
a new one; after it every block holds bytes. -/
theorem Loose.write_turn (h : w.Loose) {data : Bytes} (hdata : data ≠ []) :
    ∃ n w', 0 < n ∧ n ≤ data.length ∧ w'.Wf ∧ w'.bytes = w.bytes ++ data.take n ∧
      ∀ fuel b bs, data = b :: bs →
        writeSliceLoop (fuel + 1) w data = writeSliceLoop fuel w' (data.drop n) := by
  have hpos := List.length_pos_iff.mpr hdata
  rcases h.lastWithRoom with ⟨hroom, hne⟩ | ⟨last, hroom, hq, hlast, hlt⟩
  · -- no chunk has room: a new one is begun
    let n := min (defaultChunkCapacity - ChunkOwned.default.len) data.length
    have hn : (data.take n).length = n := by simp [n]
    have hcap : 0 < defaultChunkCapacity := by decide
    obtain ⟨chunk, hwrite, hchunk, hbytes, -⟩ :=
      ChunkOwned.writeSlice_of_wf (data.take n) ChunkOwned.wf_default
        (by rw [hn, ChunkOwned.len_default, Nat.zero_add]; exact Nat.min_le_left _ _)
    rw [ChunkOwned.bytes_default, List.nil_append] at hbytes
    refine ⟨n, ⟨w.queue ++ [chunk], w.filledLen + n⟩, by simp [n]; omega, Nat.min_le_right _ _,
      wf_snoc h.chunks hne hchunk ?_ ?_, by simp [bytes, hbytes], ?_⟩
    · rw [hbytes, ← List.length_pos_iff, hn]
      simp [n]; omega
    · rw [List.length_append, hbytes, hn, h.filledLen_eq]; rfl
    · rintro fuel b bs rfl
      simp only [writeSliceLoop, hroom, ChunkOwned.availableLen_of_wf ChunkOwned.wf_default,
        Option.bind_eq_bind, Option.bind_some, show min (defaultChunkCapacity -
          ChunkOwned.default.len) (b :: bs).length = n from rfl, hwrite]
  · -- the last chunk has room
    let n := min (defaultChunkCapacity - last.len) data.length
    have hn : (data.take n).length = n := by simp [n]
    obtain ⟨last', hwrite, hlast', hbytes, -⟩ :=
      ChunkOwned.writeSlice_of_wf (data.take n) hlast (by simp [n]; omega)
    have hinit : ∀ c ∈ w.queue.dropLast, c.Wf := fun c hc => h.chunks c (List.dropLast_subset _ hc)
    have hsplit : w.bytes = w.queue.dropLast.flatMap ChunkOwned.bytes ++ last.bytes := by
      rw [bytes, hq]; simp
    refine ⟨n, ⟨w.queue.dropLast ++ [last'], w.filledLen + n⟩, by simp [n]; omega,
      Nat.min_le_right _ _, wf_snoc hinit h.nonempty hlast' ?_ ?_, ?_, ?_⟩
    · rw [hbytes, ← List.length_pos_iff, List.length_append, hn]
      simp [n]; omega
    · rw [h.filledLen_eq, hsplit, hbytes]
      simp only [List.length_append, hn]
      omega
    · rw [hsplit, List.append_assoc, ← hbytes]
      simp [bytes]
    · rintro fuel b bs rfl
      simp only [writeSliceLoop, hroom, ChunkOwned.availableLen_of_wf hlast,
        Option.bind_eq_bind, Option.bind_some, show min (defaultChunkCapacity - last.len)
          (b :: bs).length = n from rfl, hwrite]

theorem writeSliceLoop_of_loose {fuel : Nat} {data : Bytes} (h : w.Loose) (hdata : data ≠ [])
    (hfuel : data.length ≤ fuel) :
    ∃ w', writeSliceLoop fuel w data = some w' ∧ w'.Wf ∧ w'.bytes = w.bytes ++ data := by
  induction fuel generalizing w data with
  | zero => exact absurd (List.length_eq_zero_iff.mp (Nat.le_zero.mp hfuel)) hdata
  | succ fuel ih =>
      obtain ⟨n, w', hn, hle, hw', hbytes, hturn⟩ := h.write_turn hdata
      obtain ⟨b, bs, rfl⟩ := List.exists_cons_of_ne_nil hdata
      rw [hturn fuel b bs rfl]
      by_cases hrest : (b :: bs).drop n = []
      · have htake : (b :: bs).take n = b :: bs :=
          List.take_of_length_le (List.drop_eq_nil_iff.mp hrest)
        refine ⟨w', ?_, hw', by rw [hbytes, htake]⟩
        rw [hrest]
        cases fuel <;> rfl
      · obtain ⟨w'', hloop, hw'', hb''⟩ := ih hw'.loose hrest (by
          rw [List.length_drop]; omega)
        refine ⟨w'', hloop, hw'', ?_⟩
        rw [hb'', hbytes, List.append_assoc, List.take_append_drop]

theorem writeSlice_of_wf (h : w.Wf) (data : Bytes) :
    ∃ w', w.writeSlice data = some w' ∧ w'.Wf ∧ w'.bytes = w.bytes ++ data := by
  by_cases hdata : data = []
  · exact ⟨w, by simp [writeSlice, hdata], h, by simp [hdata]⟩
  · have hf : data.isEmpty = false := by simpa using hdata
    by_cases hq : w.queue = []
    · have hloose :
          ({ w with queue := [ChunkOwned.default] } : ChainedChunkBufferWriter).Loose := by
        refine ⟨by simp [ChunkOwned.wf_default], by simp, fun c hc => Or.inl ?_,
          by simpa [bytes, hq] using h.filledLen_eq⟩
        obtain rfl : ChunkOwned.default = c := by simpa using hc
        decide
      obtain ⟨w', hw', hwf, hb⟩ := writeSliceLoop_of_loose hloose hdata (Nat.le_refl _)
      exact ⟨w', by simp [writeSlice, hf, hq, hw'], hwf, by simpa [bytes, hq] using hb⟩
    · have hqf : w.queue.isEmpty = false := by simpa using hq
      obtain ⟨w', hw', hwf, hb⟩ := writeSliceLoop_of_loose h.loose hdata (Nat.le_refl _)
      exact ⟨w', by simp [writeSlice, hf, hqf, hw'], hwf, hb⟩

theorem writeU8_of_wf (h : w.Wf) (byte : UInt8) :
    ∃ w', w.writeU8 byte = some w' ∧ w'.Wf ∧ w'.bytes = w.bytes ++ [byte] := by
  rcases h.loose.lastWithRoom with ⟨hroom, hne⟩ | ⟨last, hroom, hq, hlast, hlt⟩
  · obtain ⟨chunk, hwrite, hchunk, hbytes, -⟩ :=
      ChunkOwned.writeSlice_of_wf [byte] ChunkOwned.wf_default
        (show 0 + 1 ≤ defaultChunkCapacity by decide)
    rw [ChunkOwned.bytes_default, List.nil_append] at hbytes
    refine ⟨⟨w.queue ++ [chunk], w.filledLen + 1⟩, ?_,
      wf_snoc h.chunks hne hchunk (by simp [hbytes]) ?_, by simp [bytes, hbytes]⟩
    · simp [writeU8, hroom, ChunkOwned.writeU8_eq, hwrite]
    · rw [List.length_append, hbytes, h.filledLen_eq]; rfl
  · obtain ⟨last', hwrite, hlast', hbytes, -⟩ :=
      ChunkOwned.writeSlice_of_wf [byte] hlast hlt
    have hsplit : w.bytes = w.queue.dropLast.flatMap ChunkOwned.bytes ++ last.bytes := by
      rw [bytes, hq]; simp
    refine ⟨⟨w.queue.dropLast ++ [last'], w.filledLen + 1⟩, ?_,
      wf_snoc (fun c hc => h.chunks c (List.dropLast_subset _ hc)) h.loose.nonempty hlast'
        (by simp [hbytes]) ?_, ?_⟩
    · simp [writeU8, hroom, ChunkOwned.writeU8_eq, hwrite]
    · rw [h.filledLen_eq, hsplit, hbytes]
      simp only [List.length_append, List.length_singleton]
      omega
    · rw [hsplit, List.append_assoc, ← hbytes]
      simp [bytes]

/-! ### Taking bytes out at the front -/

/-- There is a front slice exactly when bytes are buffered; it is not empty,
and the buffered bytes start with it. -/
theorem frontSlice_of_wf (h : w.Wf) :
    (w.frontSlice = some none ∧ w.bytes = []) ∨
    ∃ front rest, w.frontSlice = some (some front) ∧ front ≠ [] ∧ w.bytes = front ++ rest ∧
      ∀ n ≤ front.length, ∃ w', w.consumeFront n = some w' ∧ w'.Wf ∧
        w'.bytes = w.bytes.drop n := by
  rcases hq : w.queue with - | ⟨c, rest⟩
  · exact Or.inl ⟨by simp [frontSlice, hq], by simp [bytes, hq]⟩
  · right
    have hw := h.chunks
    have hne := h.nonempty
    rw [hq] at hw hne
    have hc := hw c (by simp)
    have hb : w.bytes = c.bytes ++ rest.flatMap ChunkOwned.bytes := by simp [bytes, hq]
    refine ⟨c.bytes, rest.flatMap ChunkOwned.bytes, ?_, hne c (by simp), hb, fun n hn => ?_⟩
    · simp [frontSlice, hq, ChunkOwned.filledSlice_of_ordered hc.ordered]
    · obtain ⟨c', hcons, hc', hbytes⟩ := ChunkOwned.consumeFront_of_wf hc hn
      have hdrop : w.bytes.drop n = c'.bytes ++ rest.flatMap ChunkOwned.bytes := by
        rw [hb, List.drop_append_of_le_length hn, hbytes]
      have hlen : w.filledLen - n = (c'.bytes ++ rest.flatMap ChunkOwned.bytes).length := by
        rw [h.filledLen_eq, ← hdrop, List.length_drop]
      have hsub : checkedSub w.filledLen n = some (w.filledLen - n) :=
        checkedSub_of_le (by rw [h.filledLen_eq, hb, List.length_append]; omega)
      have hrest : ∀ d ∈ rest, d.Wf := fun d hd => hw d (by simp [hd])
      have hrne : ∀ d ∈ rest, d.bytes ≠ [] := fun d hd => hne d (by simp [hd])
      by_cases hz : c'.bytes = []
      · -- the front chunk is used up, and popped
        refine ⟨⟨rest, w.filledLen - n⟩, ?_, ⟨hrest, hrne, by simpa [hz, bytes] using hlen⟩, ?_⟩
        · simp [consumeFront, hq, hcons, hsub, ChunkOwned.filledLen_of_ordered hc'.ordered, hz]
        · rw [hdrop, hz, List.nil_append]; rfl
      · refine ⟨⟨c' :: rest, w.filledLen - n⟩, ?_, ⟨?_, ?_, by simpa [bytes] using hlen⟩, ?_⟩
        · simp [consumeFront, hq, hcons, hsub, ChunkOwned.filledLen_of_ordered hc'.ordered, hz]
        · intro d hd
          rcases List.mem_cons.mp hd with rfl | hd
          · exact hc'
          · exact hrest d hd
        · intro d hd
          rcases List.mem_cons.mp hd with rfl | hd
          · exact hz
          · exact hrne d hd
        · rw [hdrop]; simp [bytes]

end ChainedChunkBufferWriter

instance : ByteSink ChainedChunkBufferWriter where
  Wf := ChainedChunkBufferWriter.Wf
  bytes := ChainedChunkBufferWriter.bytes
  filledLen_eq h := congrArg some h.filledLen_eq
  writeU8_spec b h := ChainedChunkBufferWriter.writeU8_of_wf h b
  writeSlice_spec bs h := ChainedChunkBufferWriter.writeSlice_of_wf h bs

end YamuxLowMem
