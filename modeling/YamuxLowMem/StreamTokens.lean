/-
YamuxLowMem/StreamTokens.lean

One stream of a multiplexed wire.

What the sender sees as frames the receiver may see cut differently, since
payload comes in chunks of any size; both stand for the same tokens.  So the
relation between the two sides is `Arrived`: the tokens of what was received are
the front of the tokens of what was sent.  It carries over payload, flags, and
that no payload follows a `FIN`.
-/
import YamuxLowMem.Outbound

namespace YamuxLowMem

open Framing

/-! ### The wire of a well-formed sender -/

namespace Frame

/-- A frame as a piece of the stream. -/
def piece : Frame → Format.Piece UInt8 (Except ParserError Frame) StreamID
  | .stream id (.dataChunk chunk) => .items id chunk
  | frame => .head (.ok frame) frame.encode

theorem piece_written (f : Frame) : f.piece.written = f.encode := by
  match f with
  | .session event | .stream id (.data flags size) => rfl
  | .stream id (.windowUpdate flags delta) | .stream id (.dataChunk chunk) => rfl

theorem piece_tokens (f : Frame) : f.piece.tokens = f.tokens := by
  match f with
  | .session event | .stream id (.data flags size) => rfl
  | .stream id (.windowUpdate flags delta) | .stream id (.dataChunk chunk) => rfl

theorem length_encode {f : Frame} {h : Header} (hf : f.header = some h) :
    f.encode.length = headerLen := by
  rw [encode_of_header hf, Header.length_encode]

end Frame

/-- Between payloads, blocks may be written. -/
theorem FrameBlocks.writes {fs : List Frame} (h : FrameBlocks fs)
    {pending : Option (StreamID × Nat)}
    (hpending : pending = none ∨ ∃ id, pending = some (id, 0)) :
    yamux.Writes pending (fs.map Frame.piece) := by
  induction h generalizing pending with
  | nil => exact .nil pending
  | session event _ ih =>
      obtain ⟨header, hheader⟩ : ∃ header, (Frame.session event).header = some header := by
        cases event <;> exact ⟨_, rfl⟩
      exact .head hpending (Frame.length_encode hheader) (refFrame_encode hheader) (ih (Or.inl rfl))
  | window id flags delta _ ih =>
      have hheader : (Frame.stream id (.windowUpdate flags delta)).header = some _ := rfl
      exact .head hpending (Frame.length_encode hheader) (refFrame_encode hheader) (ih (Or.inl rfl))
  | @payload id flags size chunk fs hsize _ ih =>
      have hheader : (Frame.stream id (.data flags size)).header = some _ := rfl
      apply Format.Writes.head hpending (Frame.length_encode hheader) (refFrame_encode hheader)
      -- the chunk is all of the payload that was announced
      show yamux.Writes (some (id, size.toNat)) (.items id chunk :: fs.map Frame.piece)
      apply Format.Writes.items (Nat.le_of_eq hsize.symm)
      rw [hsize, Nat.sub_self]
      exact ih (Or.inr ⟨id, rfl⟩)

/-- What a well-formed sender has written is decoded as its frames. -/
theorem FrameBlocks.decode_encoding {fs : List Frame} (h : FrameBlocks fs) :
    yamux.decode (encoding fs) = fs.flatMap Frame.tokens := by
  have hdecode := (h.writes (Or.inl rfl)).decodeFrom_flatten
  simp only [List.flatMap_map, Frame.piece_written, Frame.piece_tokens] at hdecode
  exact hdecode

/-- The tokens that belong to a stream. -/
def tokenOn (id : StreamID) : WireToken → Bool
  | .head (.ok (.stream id' _)) => id' = id
  | .item id' _ => id' = id
  | _ => false

/-- What the events of a stream stand for on the wire. -/
def streamTokens (id : StreamID) (es : List FrameStreamEvent) : List WireToken :=
  es.flatMap fun e => (Frame.stream id e).tokens

section StreamTokens

variable (id : StreamID) (e : FrameStreamEvent) (es es' : List FrameStreamEvent)

@[simp] theorem streamTokens_nil : streamTokens id [] = [] := rfl

@[simp] theorem streamTokens_cons :
    streamTokens id (e :: es) = (Frame.stream id e).tokens ++ streamTokens id es :=
  List.flatMap_cons

@[simp] theorem streamTokens_append :
    streamTokens id (es ++ es') = streamTokens id es ++ streamTokens id es' :=
  List.flatMap_append

theorem filter_frame_tokens (f : Frame) :
    f.tokens.filter (tokenOn id) = streamTokens id (eventsOn id [f]) := by
  match f with
  | .session event => rfl
  | .stream id' event =>
      by_cases hid : id' = id
      · subst hid
        cases event <;> simp [Frame.tokens, tokenOn, List.filter_map, Function.comp_def]
      · rw [eventsOn_ne id [] hid]
        cases event <;> simp [Frame.tokens, tokenOn, List.filter_map, Function.comp_def, hid]

/-- Picking out a stream commutes with the meaning of frames. -/
theorem filter_tokens (fs : List Frame) :
    (fs.flatMap Frame.tokens).filter (tokenOn id) = streamTokens id (eventsOn id fs) := by
  induction fs with
  | nil => rfl
  | cons f fs ih =>
      have hsplit : eventsOn id (f :: fs) = eventsOn id [f] ++ eventsOn id fs :=
        eventsOn_append id [f] fs
      rw [List.flatMap_cons, List.filter_append, ih, filter_frame_tokens, hsplit,
        streamTokens_append]

end StreamTokens

/-! ### What has arrived of what was sent -/

/-- The events `es` have arrived of what was sent as `es'`. -/
def Arrived (id : StreamID) (es es' : List FrameStreamEvent) : Prop :=
  streamTokens id es <+: streamTokens id es'

/-- What has arrived on the wire has arrived on each stream. -/
theorem arrived_of_tokens {fs fs' : List Frame}
    (h : fs.flatMap Frame.tokens <+: fs'.flatMap Frame.tokens) (id : StreamID) :
    Arrived id (eventsOn id fs) (eventsOn id fs') := by
  have hfilter := h.filter (tokenOn id)
  rwa [filter_tokens, filter_tokens] at hfilter

/-- The payload byte of a token. -/
def tokenByte : WireToken → Option UInt8
  | .head _ => none
  | .item _ b => some b

/-- Does a token end the stream? -/
def endsStream : WireToken → Bool
  | .head (.ok (.stream _ e)) => e.carries Flags.fin
  | _ => false

theorem payloadOf_eq_tokens (id : StreamID) (es : List FrameStreamEvent) :
    payloadOf es = (streamTokens id es).filterMap tokenByte := by
  induction es with
  | nil => rfl
  | cons e es ih =>
      rw [payloadOf_cons, streamTokens_cons, List.filterMap_append, ih]
      cases e <;>
        simp [FrameStreamEvent.payload, Frame.tokens, tokenByte, List.filterMap_map,
          Function.comp_def]

theorem mem_streamTokens {id : StreamID} {e : FrameStreamEvent} {es : List FrameStreamEvent} :
    Token.head (.ok (.stream id e)) ∈ streamTokens id es ↔ e ∈ es ∧ e.flags.isSome := by
  induction es with
  | nil => simp
  | cons e' es ih =>
      rw [streamTokens_cons, List.mem_append, ih, List.mem_cons, or_and_right]
      apply or_congr_left
      cases e' with
      | dataChunk chunk =>
          simp only [Frame.tokens, List.mem_map, reduceCtorEq, and_false, exists_false, false_iff]
          rintro ⟨rfl, hflags⟩
          cases hflags
      | data flags size | windowUpdate flags delta =>
          simp only [Frame.tokens, List.mem_singleton, Token.head.injEq, Except.ok.injEq,
            Frame.stream.injEq, true_and]
          constructor
          · rintro rfl
            exact ⟨rfl, rfl⟩
          · rintro ⟨rfl, -⟩
            rfl

theorem mem_carried {flag : Flags → Bool} {es : List FrameStreamEvent} :
    carried flag es = true ↔ ∃ e ∈ es, e.carries flag = true := by
  simp [carried]

theorem flags_of_carries {flag : Flags → Bool} {e : FrameStreamEvent}
    (h : e.carries flag = true) : e.flags.isSome = true := by
  cases e with
  | dataChunk chunk => cases h
  | data flags size | windowUpdate flags delta => rfl

/-- No payload follows a `FIN`: the same, said about tokens. -/
theorem final_iff_tokens (id : StreamID) (es : List FrameStreamEvent) :
    Final es ↔
      (streamTokens id es).Pairwise fun t t' => endsStream t = true → tokenByte t' = none := by
  induction es with
  | nil => simp [Final]
  | cons e es ih =>
      have hnil : payloadOf es = [] ↔ ∀ t ∈ streamTokens id es, tokenByte t = none := by
        rw [payloadOf_eq_tokens id, List.filterMap_eq_nil_iff]
      rw [Final, ih, hnil, streamTokens_cons, List.pairwise_append]
      cases e with
      | dataChunk chunk =>
          -- payload does not end the stream
          have hpay : ∀ t ∈ (Frame.stream id (.dataChunk chunk)).tokens, endsStream t = false := by
            simp [Frame.tokens, endsStream]
          have hnot : ∀ t ∈ (Frame.stream id (.dataChunk chunk)).tokens, ∀ t' : WireToken,
              endsStream t = true → tokenByte t' = none := by
            intro t ht t' hend
            rw [hpay t ht] at hend
            cases hend
          constructor
          · rintro ⟨-, hes⟩
            refine ⟨?_, hes, fun t ht t' _ => hnot t ht t'⟩
            exact List.pairwise_of_forall_mem_list fun t ht t' _ => hnot t ht t'
          · rintro ⟨-, hes, -⟩
            exact ⟨fun h => (by cases h), hes⟩
      | data flags size | windowUpdate flags delta =>
          simp only [Frame.tokens, List.mem_singleton, forall_eq, List.pairwise_singleton, true_and,
            endsStream]
          constructor
          · rintro ⟨hfin, hes⟩
            exact ⟨hes, fun t ht hend => hfin hend t ht⟩
          · rintro ⟨hes, hfin⟩
            exact ⟨fun hend t ht => hfin t ht hend, hes⟩

namespace Arrived

variable {id : StreamID} {es es' : List FrameStreamEvent}

theorem payload (h : Arrived id es es') : payloadOf es <+: payloadOf es' := by
  rw [payloadOf_eq_tokens id, payloadOf_eq_tokens id]
  exact h.filterMap tokenByte

/-- Events with flags arrive as they were sent. -/
theorem mem (h : Arrived id es es') {e : FrameStreamEvent} (he : e ∈ es)
    (hflags : e.flags.isSome = true) : e ∈ es' :=
  (mem_streamTokens.mp (h.subset (mem_streamTokens.mpr ⟨he, hflags⟩))).1

theorem carries (h : Arrived id es es') {flag : Flags → Bool}
    (hes : carried flag es = true) : carried flag es' = true := by
  obtain ⟨e, he, hcarries⟩ := mem_carried.mp hes
  exact mem_carried.mpr ⟨e, h.mem he (flags_of_carries hcarries), hcarries⟩

theorem carries_not (h : Arrived id es es') {flag : Flags → Bool}
    (hes' : carried flag es' = false) : carried flag es = false := by
  by_contra hes
  rw [h.carries (Bool.not_eq_false _ ▸ hes)] at hes'
  cases hes'

theorem final (h : Arrived id es es') (hfinal : Final es') : Final es :=
  (final_iff_tokens id es).mpr (((final_iff_tokens id es').mp hfinal).sublist h.sublist)

/-- With the `FIN`, all of the payload has arrived. -/
theorem complete (h : Arrived id es es') (hfinal : Final es')
    (hfin : carried Flags.fin es = true) : payloadOf es = payloadOf es' := by
  obtain ⟨e, he, hcarries⟩ := mem_carried.mp hfin
  have hmem : Token.head (.ok (.stream id e)) ∈ streamTokens id es :=
    mem_streamTokens.mpr ⟨he, flags_of_carries hcarries⟩
  obtain ⟨more, hmore⟩ := h
  have hpairs := (final_iff_tokens id es').mp hfinal
  rw [← hmore, List.pairwise_append] at hpairs
  have hnone : more.filterMap tokenByte = [] :=
    List.filterMap_eq_nil_iff.mpr fun t ht => hpairs.2.2 _ hmem t ht hcarries
  rw [payloadOf_eq_tokens id es', ← hmore, List.filterMap_append, hnone, List.append_nil,
    payloadOf_eq_tokens id]

/-- Nothing arrives that has not been sent. -/
theorem ne_nil (h : Arrived id es es') (hes : streamTokens id es ≠ []) : es' ≠ [] := by
  rintro rfl
  exact hes (List.prefix_nil.mp h)

/-- What arrives begins with the header that was sent first. -/
theorem cons {e first : FrameStreamEvent} {rest : List FrameStreamEvent}
    (h : Arrived id (e :: es) (first :: rest)) (he : (Frame.stream id e).tokens ≠ [])
    (hfirst : first.flags.isSome = true) : e = first ∧ Arrived id es rest := by
  have htokens : ∀ e : FrameStreamEvent, e.flags.isSome = true →
      (Frame.stream id e).tokens = [.head (.ok (.stream id e))] := by
    intro e he
    cases e with
    | dataChunk chunk => cases he
    | data flags size | windowUpdate flags delta => rfl
  rw [Arrived, streamTokens_cons, streamTokens_cons, htokens first hfirst] at h
  cases e with
  | dataChunk chunk =>
      -- a payload byte is no header
      cases chunk with
      | nil => exact absurd rfl he
      | cons b bs =>
          obtain ⟨hhead, -⟩ := List.cons_prefix_cons.mp h
          cases hhead
  | data flags size | windowUpdate flags delta =>
      obtain ⟨hhead, hrest⟩ := List.cons_prefix_cons.mp h
      cases hhead
      exact ⟨rfl, hrest⟩

end Arrived

end YamuxLowMem
