/-
YamuxLowMem/Decode.lean

The frame reader decodes the byte stream, whatever its chunking.

`yamux` is the wire format as an instance of `Framing.Format`, so that
`yamux.decode` is a decoder of whole byte strings: twelve-byte headers, a data
header followed by exactly as many payload bytes as it announces, each tagged
with the stream id.  `NextFrame` says everything a call of `next_frame` can do
to the pending payload and to the buffered bytes; it holds over any byte
source.  A run of `push_back` and `next_frame` calls is then followed with the
invariant `Reads`.

A header with an unknown type is taken off the stream like any other, both by
the reader and by `yamux.decode`.
-/
import YamuxLowMem.HeaderCodec
import YamuxLowMem.Lib.Framing

namespace YamuxLowMem

open Framing

abbrev WireToken := Token UInt8 (Except ParserError Frame) StreamID

/-- The Yamux wire format. -/
def yamux : Format UInt8 (Except ParserError Frame) StreamID where
  headLen := headerLen
  headLen_pos := by decide
  parse := refFrame
  payload
    | .ok (.stream id (.data _ size)) => some (id, size.toNat)
    | _ => none

/-- The payload a frame announces. -/
def Frame.announced : Frame → Option PendingPayload
  | .stream id (.data _ size) => some { streamId := id, remain := size.toNat }
  | _ => none

/-- A pending payload as the format knows it. -/
def PendingPayload.due (p : PendingPayload) : StreamID × Nat := (p.streamId, p.remain)

/-- What is pending after `n` more bytes of a payload. -/
def PendingPayload.advance (p : PendingPayload) (n : Nat) : Option PendingPayload :=
  if p.remain - n = 0 then none else some { p with remain := p.remain - n }

/-- What a frame stands for in the byte stream. -/
def Frame.tokens : Frame → List WireToken
  | .stream id (.dataChunk chunk) => chunk.map (.item id)
  | frame => [.head (.ok frame)]

abbrev ReaderAnswer := Except ParserError (Option Frame)

/-- What an answer of `next_frame` stands for. -/
def answerTokens : ReaderAnswer → List WireToken
  | .ok (some frame) => frame.tokens
  | .ok none => []
  | .error e => [.head (.error e)]

/-! ### Headers -/

theorem refHeader_error {hd : Bytes} {e : ParserError} (h : refHeader hd = .error e) :
    ∃ t, e = .unknownType t ∧ 3 < t := by
  have hsmall : BigEndian.ofBytes ((hd.take 2).drop 1) < 256 := by
    have hlen : ((hd.take 2).drop 1).length ≤ 1 := by simp
    match (hd.take 2).drop 1, hlen with
    | [], _ => decide
    | [b], _ => simpa [BigEndian.ofBytes] using b.toNat_lt
  simp only [refHeader] at h
  split at h
  · rename_i hnone
    cases h
    refine ⟨_, rfl, UInt8.lt_iff_toNat_lt.mpr ?_⟩
    rw [UInt8.toNat_ofNat', Nat.mod_eq_of_lt hsmall]
    exact List.getElem?_eq_none_iff.mp hnone
  · cases h

theorem refFrame_error {hd : Bytes} {e : ParserError} (h : refFrame hd = .error e) :
    ∃ t, e = .unknownType t ∧ 3 < t := by
  apply @refHeader_error hd _
  cases hh : refHeader hd with
  | error e' =>
      rw [refFrame, hh] at h
      cases h
      rfl
  | ok header =>
      rw [refFrame, hh] at h
      cases h

/-- A frame read off a header has that one token, and announces what the
format says. -/
theorem refFrame_ok {hd : Bytes} {frame : Frame} (h : refFrame hd = .ok frame) :
    frame.tokens = [.head (.ok frame)] ∧
      yamux.payload (.ok frame) = frame.announced.map PendingPayload.due := by
  cases hh : refHeader hd with
  | error e =>
      rw [refFrame, hh] at h
      cases h
  | ok header =>
      rw [refFrame, hh] at h
      cases h
      rcases header with ⟨version, type_, flags, id, length⟩
      cases type_ <;> exact ⟨rfl, rfl⟩

/-! ### One call -/

/-- What a call of `next_frame` does to the pending payload and to the
buffered bytes, and its answer. -/
inductive NextFrame : Option PendingPayload → Bytes → ReaderAnswer →
    Option PendingPayload → Bytes → Prop where
  | short {bs} : bs.length < headerLen → NextFrame none bs (.ok none) none bs
  | starved {p} : NextFrame (some p) [] (.ok none) (some p) []
  | unknown {hd bs e} : hd.length = headerLen → refFrame hd = .error e →
      NextFrame none (hd ++ bs) (.error e) none bs
  | frame {hd bs f} : hd.length = headerLen → refFrame hd = .ok f →
      NextFrame none (hd ++ bs) (.ok (some f)) f.announced bs
  | chunk {p c bs} : c.length ≤ p.remain → (0 < p.remain → c ≠ []) →
      NextFrame (some p) (c ++ bs) (.ok (some (.stream p.streamId (.dataChunk c))))
        (p.advance c.length) bs

section Reader

open ByteSource

variable {R : Type} [ChunkBufferReader R] [ByteSource R] {r : FrameReader R}

theorem nextFrame_spec (h : Wf r.buffer) :
    ∃ answer r', r.nextFrame = some (answer, r') ∧ Wf r'.buffer ∧
      NextFrame r.pending (bytes r.buffer) answer r'.pending (bytes r'.buffer) := by
  cases hp : r.pending with
  | some p =>
      by_cases hnil : bytes r.buffer = []
      · refine ⟨.ok none, r, ?_, h, ?_⟩
        · rcases r with ⟨buffer, pending⟩
          subst hp
          simp [FrameReader.nextFrame, nextChunk_nil p.remain h hnil]
        · rw [hnil, hp]
          exact .starved
      · obtain ⟨v, b', c, hnext, hlen, hderef, hw, hb, hle, hpos⟩ := nextChunk_cons p.remain h hnil
        refine ⟨.ok (some (.stream p.streamId (.dataChunk c))),
          { buffer := b', pending := p.advance c.length }, ?_, hw, ?_⟩
        · simp only [FrameReader.nextFrame, hp, hnext, hlen, hderef, checkedSub_of_le hle,
            Option.bind_eq_bind, Option.bind_some, Option.pure_def]
          rfl
        · rw [hb]
          exact .chunk hle hpos
  | none =>
      by_cases hshort : (bytes r.buffer).length < headerLen
      · refine ⟨.ok none, r, ?_, h, ?_⟩
        · rcases r with ⟨buffer, pending⟩
          subst hp
          simp [FrameReader.nextFrame, Frame.read_short h hshort]
        · rw [hp]
          exact .short hshort
      · obtain ⟨hd, bs, hb, hlen⟩ : ∃ hd bs, bytes r.buffer = hd ++ bs ∧ hd.length = headerLen :=
          ⟨_, _, (List.take_append_drop headerLen _).symm, by
            rw [List.length_take]; omega⟩
        obtain ⟨b', hread, hw, hb'⟩ := Frame.read_spec h hb hlen
        cases hf : refFrame hd with
        | error e =>
            refine ⟨.error e, { r with buffer := b' }, ?_, hw, ?_⟩
            · simp [FrameReader.nextFrame, hp, hread, hf, Except.map]
            · show NextFrame none _ _ r.pending (bytes b')
              rw [hp, hb, hb']
              exact .unknown hlen hf
        | ok frame =>
            refine ⟨.ok (some frame), { buffer := b', pending := frame.announced }, ?_, hw, ?_⟩
            · simp only [FrameReader.nextFrame, hp, hread, hf, Except.map, Option.bind_eq_bind,
                Option.bind_some, Option.pure_def]
              rfl
            · show NextFrame none _ _ frame.announced (bytes b')
              rw [hb, hb']
              exact .frame hlen hf

end Reader

/-! ### What a call means for the stream -/

section Meaning

variable {pending pending' : Option PendingPayload} {bs bs' pushed : Bytes} {answer : ReaderAnswer}
  {tokens : List WireToken}

theorem NextFrame.reads (h : NextFrame pending bs answer pending' bs')
    (hr : yamux.Reads pushed tokens (pending.map PendingPayload.due) bs) :
    yamux.Reads pushed (tokens ++ answerTokens answer) (pending'.map PendingPayload.due) bs' := by
  cases h with
  | short hlt =>
      rw [answerTokens, List.append_nil]
      exact hr
  | starved =>
      rw [answerTokens, List.append_nil]
      exact hr
  | unknown hlen hf =>
      have hr' := hr.head hlen
      rwa [show yamux.parse = refFrame from rfl, hf] at hr'
  | frame hlen hf =>
      have hr' := hr.head hlen
      rw [show yamux.parse = refFrame from rfl, hf, (refFrame_ok hf).2] at hr'
      rw [answerTokens, (refFrame_ok hf).1]
      exact hr'
  | @chunk p c _ hle hpos =>
      have hr' := hr.items hle
      by_cases hz : p.remain - c.length = 0
      · rw [PendingPayload.advance, if_pos hz]
        rw [hz] at hr'
        exact hr'.close
      · rw [PendingPayload.advance, if_neg hz]
        exact hr'

/-- Only a partial header stops the reader. -/
theorem NextFrame.stalled (h : NextFrame pending bs (.ok none) pending' bs') :
    bs'.length < headerLen ∧ yamux.decodeFrom (pending'.map PendingPayload.due) bs' = [] := by
  cases h with
  | short hlt => exact ⟨hlt, Format.decode_short hlt⟩
  | starved => exact ⟨by decide, Format.decodeFrom_nil _⟩

theorem NextFrame.error {e : ParserError} (h : NextFrame pending bs (.error e) pending' bs') :
    ∃ t, e = .unknownType t ∧ 3 < t := by
  cases h with
  | unknown _ hf => exact refFrame_error hf

end Meaning

/-! ### Runs -/

/-- A view of at least one byte. -/
structure InputChunk where
  view : ChunkView
  wf : view.Wf
  nonempty : view.bytes ≠ []

/-- A view of all bytes of a list. -/
def InputChunk.ofList (bs : Bytes) (h : bs ≠ []) : InputChunk where
  view := .ofVec (.ofList bs)
  wf := ChunkView.wf_ofVec _
  nonempty := (ChunkView.bytes_ofList bs).symm ▸ h

inductive ReaderOp where
  | pushBack (chunk : InputChunk)
  | nextFrame

/-- The answers of the `next_frame` calls in a run, and the reader after it. -/
def runReader : FrameReader ChainedChunkBufferReader → List ReaderOp →
    Option (List ReaderAnswer × FrameReader ChainedChunkBufferReader)
  | r, [] => some ([], r)
  | r, .pushBack chunk :: ops => do runReader (← r.pushBack chunk.view) ops
  | r, .nextFrame :: ops => do
      let (answer, r) ← r.nextFrame
      let (answers, r) ← runReader r ops
      return (answer :: answers, r)

/-- All bytes pushed in a run. -/
def pushedBytes : List ReaderOp → Bytes
  | [] => []
  | .pushBack chunk :: ops => chunk.view.bytes ++ pushedBytes ops
  | .nextFrame :: ops => pushedBytes ops

/-- The reader has answered with `tokens` to the bytes `pushed`. -/
structure ReaderInv (r : FrameReader ChainedChunkBufferReader) (pushed : Bytes)
    (tokens : List WireToken) : Prop where
  wf : r.buffer.Wf
  reads : yamux.Reads pushed tokens (r.pending.map PendingPayload.due) r.buffer.bytes

namespace ReaderInv

variable {r : FrameReader ChainedChunkBufferReader} {pushed : Bytes} {tokens : List WireToken}

theorem new : ReaderInv (FrameReader.new .new) [] [] :=
  ⟨ChainedChunkBufferReader.wf_new, Format.Reads.start⟩

theorem pushBack (h : ReaderInv r pushed tokens) {v : ChunkView} (hv : v.Wf) (hne : v.bytes ≠ []) :
    ∃ r', r.pushBack v = some r' ∧ r'.pending = r.pending ∧
      ReaderInv r' (pushed ++ v.bytes) tokens := by
  obtain ⟨b', hpush, hw, hb⟩ := ChainedChunkBufferReader.pushBack_of_wf h.wf hv hne
  refine ⟨{ r with buffer := b' }, ?_, rfl, hw, ?_⟩
  · simp [FrameReader.pushBack, ChunkBufferSink.pushBack, hpush]
  · show yamux.Reads _ _ _ b'.bytes
    rw [hb]
    exact h.reads.push _

theorem nextFrame (h : ReaderInv r pushed tokens) :
    ∃ answer r', r.nextFrame = some (answer, r') ∧
      ReaderInv r' pushed (tokens ++ answerTokens answer) ∧
      NextFrame r.pending r.buffer.bytes answer r'.pending r'.buffer.bytes := by
  obtain ⟨answer, r', hnext, hw, hstep⟩ := nextFrame_spec (r := r) h.wf
  exact ⟨answer, r', hnext, ⟨hw, hstep.reads h.reads⟩, hstep⟩

end ReaderInv

/-- No call of a run panics, the invariant holds at its end, and the only
errors are unknown types. -/
theorem runReader_spec {r : FrameReader ChainedChunkBufferReader} {pushed : Bytes}
    {tokens : List WireToken} (h : ReaderInv r pushed tokens) (ops : List ReaderOp) :
    ∃ answers r', runReader r ops = some (answers, r') ∧
      ReaderInv r' (pushed ++ pushedBytes ops) (tokens ++ answers.flatMap answerTokens) ∧
      ∀ e, .error e ∈ answers → ∃ t, e = .unknownType t ∧ 3 < t := by
  induction ops generalizing r pushed tokens with
  | nil => exact ⟨[], r, rfl, by simpa [pushedBytes] using h, by simp⟩
  | cons op ops ih =>
      cases op with
      | pushBack chunk =>
          obtain ⟨r₁, hpush, -, h₁⟩ := h.pushBack chunk.wf chunk.nonempty
          obtain ⟨answers, r', hrun, hinv, herr⟩ := ih h₁
          refine ⟨answers, r', by simp [runReader, hpush, hrun], ?_, herr⟩
          rwa [List.append_assoc] at hinv
      | nextFrame =>
          obtain ⟨answer, r₁, hnext, h₁, hstep⟩ := h.nextFrame
          obtain ⟨answers, r', hrun, hinv, herr⟩ := ih h₁
          refine ⟨answer :: answers, r', by simp [runReader, hnext, hrun], ?_, ?_⟩
          · rwa [List.append_assoc] at hinv
          · intro e he
            rcases List.mem_cons.mp he with rfl | he
            · exact hstep.error
            · exact herr e he

/-! ### Unknown types -/

/-- No unknown type occurs among the tokens. -/
def NoUnknown (tokens : List WireToken) : Prop := ∀ e, Token.head (.error e) ∉ tokens

theorem Frame.noUnknown_tokens (frame : Frame) : NoUnknown frame.tokens := by
  intro e he
  match frame with
  | .stream id (.dataChunk chunk) => simp [Frame.tokens] at he
  | .stream id (.data flags size) | .stream id (.windowUpdate flags delta) =>
      simp [Frame.tokens] at he
  | .session event => simp [Frame.tokens] at he

theorem noUnknown_answers {answers : List ReaderAnswer} (h : ∀ e, .error e ∉ answers) :
    NoUnknown (answers.flatMap answerTokens) := by
  intro e he
  obtain ⟨answer, hmem, hin⟩ := List.mem_flatMap.mp he
  match answer with
  | .error e' => exact h e' hmem
  | .ok none => cases hin
  | .ok (some frame) => exact frame.noUnknown_tokens e hin

/-- Where the reader has emitted all that comes before a header of unknown
type, that header is next, unless a payload of no bytes has yet to be closed. -/
theorem ReaderInv.raises {r : FrameReader ChainedChunkBufferReader} {pushed : Bytes}
    {tokens rest : List WireToken} {e : ParserError} {answer : ReaderAnswer}
    {pending' : Option PendingPayload} {bs' : Bytes} (h : ReaderInv r pushed tokens)
    (hnext : NextFrame r.pending r.buffer.bytes answer pending' bs')
    (hdec : yamux.decode pushed = tokens ++ .head (.error e) :: rest) :
    answer = .error e ∨ ∃ id, answer = .ok (some (.stream id (.dataChunk []))) := by
  have hrest : yamux.decodeFrom (r.pending.map PendingPayload.due) r.buffer.bytes =
      .head (.error e) :: rest := by
    have hall := h.reads []
    rw [List.append_nil, List.append_nil, hdec] at hall
    exact (List.append_cancel_left hall).symm
  generalize r.pending = pending, r.buffer.bytes = bs at hnext hrest
  -- what is left to decode begins with the error, so only two answers fit
  cases hnext with
  | short hlt =>
      rw [Option.map_none, Format.decodeFrom_none, Format.decode_short hlt] at hrest
      cases hrest
  | starved =>
      rw [Format.decodeFrom_nil] at hrest
      cases hrest
  | unknown hlen hf =>
      rw [Option.map_none, Format.decodeFrom_none, Format.decode_head hlen,
        show yamux.parse = refFrame from rfl, hf] at hrest
      left
      cases hrest
      rfl
  | frame hlen hf =>
      rw [Option.map_none, Format.decodeFrom_none, Format.decode_head hlen,
        show yamux.parse = refFrame from rfl, hf] at hrest
      cases hrest
  | @chunk p c _ hle hpos =>
      right
      rw [Option.map_some, PendingPayload.due, Format.decodeFrom_items hle] at hrest
      cases c with
      | nil => exact ⟨p.streamId, rfl⟩
      | cons b bs => cases hrest

/-! ### Any chunking -/

/-- In any run from an empty reader, over any chunks, no call panics, and the
tokens emitted are the front of what the whole-string decoder makes of the
bytes pushed, with whatever may follow.  The first unknown type is reported
where that decoder meets it.  One more call does not panic either; when it
finds nothing, all that was pushed has been emitted, short of a partial header;
when an unknown type is next in the stream, it says so. -/
theorem frameReader_decodes (ops : List ReaderOp) :
    ∃ answers r, runReader (FrameReader.new .new) ops = some (answers, r) ∧
      (∀ more, answers.flatMap answerTokens <+: yamux.decode (pushedBytes ops ++ more)) ∧
      (∀ before e after, answers = before ++ .error e :: after → (∀ e', .error e' ∉ before) →
        NoUnknown (before.flatMap answerTokens) ∧ ∃ t, e = .unknownType t ∧ 3 < t ∧
          ∀ more, ∃ rest, yamux.decode (pushedBytes ops ++ more) =
            before.flatMap answerTokens ++ .head (.error e) :: rest) ∧
      ∃ answer r', r.nextFrame = some (answer, r') ∧
        (answer = .ok none →
          answers.flatMap answerTokens = yamux.decode (pushedBytes ops) ∧ r'.buffer.len ≤ 11) ∧
        (∀ e rest, yamux.decode (pushedBytes ops) =
            answers.flatMap answerTokens ++ .head (.error e) :: rest →
          answer = .error e ∨ ∃ id, answer = .ok (some (.stream id (.dataChunk [])))) := by
  obtain ⟨answers, r, hrun, hinv, herr⟩ := runReader_spec ReaderInv.new ops
  rw [List.nil_append, List.nil_append] at hinv
  obtain ⟨answer, r', hnext, hinv', hstep⟩ := hinv.nextFrame
  refine ⟨answers, r, hrun, hinv.reads.isPrefix, ?_, answer, r', hnext, ?_, ?_⟩
  · rintro before e after rfl hfirst
    -- an error is the last of the answers
    obtain ⟨t, het, ht⟩ := herr e (by simp)
    refine ⟨noUnknown_answers hfirst, t, het, ht, ?_⟩
    intro more
    obtain ⟨rest, hrest⟩ := hinv.reads.isPrefix more
    refine ⟨after.flatMap answerTokens ++ rest, ?_⟩
    rw [← hrest, List.flatMap_append, List.flatMap_cons, List.append_assoc, List.append_assoc]
    rfl
  · rintro rfl
    obtain ⟨hlt, hnil⟩ := hstep.stalled
    rw [answerTokens, List.append_nil] at hinv'
    refine ⟨(hinv'.reads.complete hnil).symm, ?_⟩
    rw [hinv'.wf.len_eq]
    exact Nat.le_of_lt_succ hlt
  · intro e rest hdec
    exact hinv.raises hstep hdec

end YamuxLowMem
