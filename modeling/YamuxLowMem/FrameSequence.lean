/-
YamuxLowMem/FrameSequence.lean

Which sequences of frames `FrameWriter::write` accepts.

The rule: a payload is incomplete from its `Data` header on until the chunks
after it have brought as many bytes as the header announces, and for no time at
all if it announces none.  While a payload is incomplete only its chunks may
follow, and otherwise only frames that are no chunks.

The writer answers as the rule says until it accepts a `Data` header of size 0.
It then keeps a payload with nothing remaining, and waits for a chunk of it: it
answers whatever frame comes next otherwise than the rule.
-/
import YamuxLowMem.RoundTrip
import YamuxLowMem.Lib.Run

namespace YamuxLowMem

/-! ### The rule -/

/-- A payload with `n` bytes to come is incomplete, unless `n` is 0. -/
def outstanding (id : StreamID) (n : Nat) : Option PendingPayload :=
  if n = 0 then none else some { streamId := id, remain := n }

/-- The incomplete payload after one more accepted frame. -/
def afterFrame (inc : Option PendingPayload) : Frame → Option PendingPayload
  | .stream id (.data _ size) => outstanding id size.toNat
  | .stream _ (.dataChunk chunk) =>
      inc.bind fun p => outstanding p.streamId (p.remain - chunk.length)
  | _ => inc

/-- The payload that is incomplete after the accepted frames. -/
def incomplete (accepted : List Frame) : Option PendingPayload := accepted.foldl afterFrame none

/-- How the rule answers a frame. -/
def verdict (inc : Option PendingPayload) (frame : Frame) : Except FrameWriterError Unit :=
  match frame with
  | .stream id (.dataChunk chunk) =>
      match inc with
      | none => .error .unexpectedFrameType
      | some p =>
          if id ≠ p.streamId then .error .invalidStreamId
          else if p.remain < chunk.length then .error .chunkTooLarge
          else .ok ()
  | _ => if inc = none then .ok () else .error .unexpectedFrameType

/-- The frames that the rule accepts, after those in `accepted`. -/
def ruleAccepted (accepted : List Frame) (frames : List Frame) : List Frame :=
  frames.foldl (fun acc frame =>
    if verdict (incomplete acc) frame = .ok () then acc ++ [frame] else acc) accepted

/-! ### One frame -/

/-- With the incomplete payload pending, the writer answers as the rule does. -/
theorem verdict_eq (inc : Option PendingPayload) (frame : Frame) :
    verdict inc frame = (FrameWriter.track inc frame).map fun _ => () := by
  cases inc with
  | none =>
      match frame with
      | .session event => rfl
      | .stream id (.data flags size) => rfl
      | .stream id (.dataChunk chunk) => rfl
      | .stream id (.windowUpdate flags delta) => rfl
  | some p =>
      match frame with
      | .session event => rfl
      | .stream id (.data flags size) => rfl
      | .stream id (.windowUpdate flags delta) => rfl
      | .stream id (.dataChunk chunk) =>
          rw [verdict, FrameWriter.track]
          by_cases hid : id = p.streamId
          · rw [if_neg (not_not.mpr hid), if_pos hid]
            split
            · rfl
            · split <;> rfl
          · rw [if_pos hid, if_neg hid]
            rfl

/-- It then keeps the incomplete payload pending, except for one of size 0. -/
theorem track_ok {inc pending : Option PendingPayload} {frame : Frame}
    (h : FrameWriter.track inc frame = .ok pending) :
    pending = afterFrame inc frame ∨
      inc = none ∧ ∃ id flags, frame = .stream id (.data flags 0) ∧ pending = some ⟨id, 0⟩ := by
  cases inc with
  | none =>
      match frame with
      | .session event =>
          cases h
          exact Or.inl rfl
      | .stream id (.windowUpdate flags delta) =>
          cases h
          exact Or.inl rfl
      | .stream id (.dataChunk chunk) => cases h
      | .stream id (.data flags size) =>
          cases h
          by_cases hzero : size = 0
          · subst hzero
            exact Or.inr ⟨rfl, id, flags, rfl, rfl⟩
          · left
            have hne : size.toNat ≠ 0 := fun h => hzero (UInt32.toNat_inj.mp h)
            rw [afterFrame, outstanding, if_neg hne]
  | some p =>
      match frame with
      | .session event => cases h
      | .stream id (.data flags size) => cases h
      | .stream id (.windowUpdate flags delta) => cases h
      | .stream id (.dataChunk chunk) =>
          left
          rw [FrameWriter.track] at h
          split at h
          · split at h
            · cases h
            · rw [afterFrame, Option.bind_some, outstanding]
              split at h
              · rename_i hzero
                cases h
                rw [if_pos hzero]
              · rename_i hzero
                cases h
                rw [if_neg hzero]
          · cases h

theorem track_emptyData {inc pending : Option PendingPayload} {id : StreamID} {flags : Flags}
    (h : FrameWriter.track inc (.stream id (.data flags 0)) = .ok pending) :
    pending ≠ afterFrame inc (.stream id (.data flags 0)) := by
  cases inc with
  | some p => cases h
  | none =>
      cases h
      exact fun h => by cases h

/-- Where a payload with nothing remaining is pending while the rule knows of
none, the answer to any frame is wrong. -/
theorem track_stuck (id : StreamID) (frame : Frame) :
    (FrameWriter.track (some ⟨id, 0⟩) frame).map (fun _ => ()) ≠ verdict none frame := by
  match frame with
  | .session event => exact fun h => by cases h
  | .stream id' (.data flags size) => exact fun h => by cases h
  | .stream id' (.windowUpdate flags delta) => exact fun h => by cases h
  | .stream id' (.dataChunk chunk) =>
      intro h
      rw [FrameWriter.track, verdict] at h
      split at h
      · split at h
        · cases h
        · split at h <;> cases h
      · cases h

/-- What a call of `write` does. -/
theorem write_spec {w : FrameWriter ChainedChunkBufferWriter} (hw : w.buffer.Wf) (frame : Frame) :
    ∃ w', w.write frame = some ((FrameWriter.track w.pending frame).map fun _ => (), w') ∧
      w'.buffer.Wf ∧ (∀ e, FrameWriter.track w.pending frame = .error e → w' = w) ∧
      ∀ pending, FrameWriter.track w.pending frame = .ok pending → w'.pending = pending := by
  cases h : FrameWriter.track w.pending frame with
  | error e =>
      refine ⟨w, by rw [FrameWriter.write, h]; rfl, hw, fun _ _ => rfl,
        fun _ h => by cases h⟩
  | ok pending =>
      obtain ⟨buffer, hframe, hwf, -⟩ := Frame.write_spec (w := w.buffer) frame hw
      refine ⟨{ pending := pending, buffer := buffer }, ?_, hwf, fun _ h => (by cases h), ?_⟩
      · rw [FrameWriter.write, h]
        simp [hframe, Except.map]
      · intro pending' h
        cases h
        rfl

/-! ### All frames -/

theorem runWriter_cons {w w₁ w' : FrameWriter ChainedChunkBufferWriter} {frame : Frame}
    {frames : List Frame} {answer : Except FrameWriterError Unit}
    {answers : List (Except FrameWriterError Unit)}
    (hwrite : w.write frame = some (answer, w₁)) (hrun : runWriter w₁ frames = some (answers, w')) :
    runWriter w (frame :: frames) = some (answer :: answers, w') := by
  simp only [runWriter, hwrite, hrun, Option.bind_eq_bind, Option.bind_some]
  rfl

theorem runWriter_total {w : FrameWriter ChainedChunkBufferWriter} (hw : w.buffer.Wf)
    (frames : List Frame) : ∃ answers w', runWriter w frames = some (answers, w') := by
  induction frames generalizing w with
  | nil => exact ⟨[], w, rfl⟩
  | cons frame frames ih =>
      obtain ⟨w₁, hwrite, hw₁, -⟩ := write_spec hw frame
      obtain ⟨answers, w', hrun⟩ := ih hw₁
      exact ⟨_, w', runWriter_cons hwrite hrun⟩

/-- A header that announces a payload of 0 bytes. -/
def Frame.IsEmptyData (frame : Frame) : Prop := ∃ id flags, frame = .stream id (.data flags 0)

theorem incomplete_concat (accepted : List Frame) (frame : Frame) :
    incomplete (accepted ++ [frame]) = afterFrame (incomplete accepted) frame := by
  rw [incomplete, List.foldl_append]
  rfl

theorem ruleAccepted_cons (accepted pre : List Frame) (frame : Frame) :
    ruleAccepted accepted (frame :: pre) = ruleAccepted
      (if verdict (incomplete accepted) frame = .ok () then accepted ++ [frame] else accepted)
      pre := rfl

/-- A run from a writer that has so far accepted the frames in `accepted` and
keeps the incomplete payload pending. -/
theorem runWriter_verdicts {w : FrameWriter ChainedChunkBufferWriter} (hw : w.buffer.Wf)
    (accepted : List Frame) (hpending : w.pending = incomplete accepted) (frames : List Frame) :
    ∃ answers w', runWriter w frames = some (answers, w') ∧
      ((∀ pre frame post, frames = pre ++ frame :: post → answers[pre.length]? =
          some (verdict (incomplete (accepted ++ acceptedFrames pre answers)) frame)) ↔
        ∀ pre frame post, frames = pre ++ frame :: post → frame.IsEmptyData →
          post = [] ∨ incomplete (ruleAccepted accepted pre) ≠ none) := by
  induction frames generalizing w accepted with
  | nil => exact ⟨[], w, rfl, by simp⟩
  | cons frame frames ih =>
      obtain ⟨w₁, hwrite, hw₁, herror, hok⟩ := write_spec hw frame
      rw [hpending, ← verdict_eq] at hwrite
      rw [hpending] at herror hok
      cases htrack : FrameWriter.track (incomplete accepted) frame with
      | error e =>
          -- rejected by both: nothing changes
          have hverdict : verdict (incomplete accepted) frame = .error e := by
            rw [verdict_eq, htrack]
            rfl
          have hne : verdict (incomplete accepted) frame ≠ .ok () := by
            rw [hverdict]
            exact fun h => by cases h
          have hrule : ∀ pre, ruleAccepted accepted (frame :: pre) = ruleAccepted accepted pre :=
            fun pre => by rw [ruleAccepted_cons, if_neg hne]
          rw [← herror e htrack] at hpending
          obtain ⟨answers, w', hrun, hiff⟩ := ih hw₁ accepted hpending
          rw [hverdict] at hwrite
          refine ⟨.error e :: answers, w', runWriter_cons hwrite hrun, ?_⟩
          rw [Run.forall_split_cons, Run.forall_split_cons]
          refine and_congr (iff_of_true ?_ ?_) ?_
          · show some (Except.error e) = some (verdict (incomplete (accepted ++ [])) frame)
            rw [List.append_nil, hverdict]
          · rintro ⟨id, flags, rfl⟩
            right
            intro hnone
            exact hne (by rw [show incomplete accepted = none from hnone]; rfl)
          · simp only [hrule]
            exact hiff
      | ok pending =>
          have hverdict : verdict (incomplete accepted) frame = .ok () := by
            rw [verdict_eq, htrack]
            rfl
          have hrule : ∀ pre, ruleAccepted accepted (frame :: pre) =
              ruleAccepted (accepted ++ [frame]) pre :=
            fun pre => by rw [ruleAccepted_cons, if_pos hverdict]
          rw [hverdict] at hwrite
          have hfirst : some (Except.ok ()) =
              some (verdict (incomplete (accepted ++ [])) frame) := by
            rw [List.append_nil, hverdict]
          rcases track_ok htrack with hagree | ⟨hnone, id, flags, rfl, rfl⟩
          · -- the writer goes on in step with the rule
            obtain ⟨answers, w', hrun, hiff⟩ := ih hw₁ (accepted ++ [frame]) (by
              rw [hok _ htrack, hagree, incomplete_concat])
            refine ⟨.ok () :: answers, w', runWriter_cons hwrite hrun, ?_⟩
            rw [Run.forall_split_cons, Run.forall_split_cons]
            refine and_congr (iff_of_true hfirst ?_) ?_
            · rintro ⟨id, flags, rfl⟩
              exact absurd hagree (track_emptyData htrack)
            · simp only [List.append_assoc, List.singleton_append] at hiff
              simp only [hrule]
              exact hiff
          · -- a payload with nothing remaining stays pending: the next answer is wrong
            cases frames with
            | nil =>
                refine ⟨[.ok ()], w₁, runWriter_cons hwrite rfl, ?_⟩
                rw [Run.forall_split_cons, Run.forall_split_cons]
                exact iff_of_true ⟨hfirst, by simp⟩ ⟨fun _ => Or.inl rfl, by simp⟩
            | cons next frames =>
                obtain ⟨w₂, hwrite₂, hw₂, -⟩ := write_spec hw₁ next
                obtain ⟨answers, w', hrun⟩ := runWriter_total hw₂ frames
                refine ⟨_, w', runWriter_cons hwrite (runWriter_cons hwrite₂ hrun),
                  iff_of_false ?_ ?_⟩
                · intro hright
                  have hnext := Option.some.inj (hright [_] next frames rfl)
                  rw [hok _ htrack] at hnext
                  refine track_stuck id next (hnext.trans ?_)
                  show verdict (incomplete (accepted ++ [_])) next = verdict none next
                  rw [incomplete_concat]
                  rfl
                · intro hclean
                  rcases hclean [] _ _ rfl ⟨id, flags, rfl⟩ with h | h
                  · cases h
                  · exact h hnone

/-- The writer answers every frame of a sequence as the rule says if and only
if no `Data` header of size 0, other than the last frame, comes while no payload
is incomplete. -/
theorem write_follows_rule_iff (frames : List Frame) :
    ∃ answers w, runWriter (FrameWriter.new .new) frames = some (answers, w) ∧
      ((∀ pre frame post, frames = pre ++ frame :: post →
          answers[pre.length]? = some (verdict (incomplete (acceptedFrames pre answers)) frame)) ↔
        ∀ pre frame post, frames = pre ++ frame :: post → frame.IsEmptyData →
          post = [] ∨ incomplete (ruleAccepted [] pre) ≠ none) :=
  runWriter_verdicts (w := FrameWriter.new .new) ChainedChunkBufferWriter.wf_new [] rfl frames

/-- A payload of 0 bytes is announced; the writer then refuses a `Ping`. -/
theorem write_after_emptyData :
    let frames : List Frame :=
      [.stream ⟨1⟩ (.data Flags.onlySyn 0), .session (.ping Flags.onlySyn 0)]
    ∃ answers w, runWriter (FrameWriter.new .new) frames = some (answers, w) ∧
      answers = [.ok (), .error .unexpectedFrameType] ∧
      ¬ ∀ pre frame post, frames = pre ++ frame :: post →
        answers[pre.length]? = some (verdict (incomplete (acceptedFrames pre answers)) frame) := by
  intro frames
  have hrun : ∃ x ∈ runWriter (FrameWriter.new .new) frames,
      x.1 = [.ok (), .error .unexpectedFrameType] := by decide +kernel
  obtain ⟨⟨answers, w⟩, hrun, rfl⟩ := hrun
  refine ⟨_, w, hrun, rfl, fun hrule => ?_⟩
  have hping := hrule [_] (.session (.ping Flags.onlySyn 0)) [] rfl
  cases hping

end YamuxLowMem
