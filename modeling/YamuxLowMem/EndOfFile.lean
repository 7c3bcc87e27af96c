/-
YamuxLowMem/EndOfFile.lean

What makes a read report the end of the stream.

The end is sent to the handle as an empty chunk, through the same channel as
the payload.  A `FIN` or `RST` sends one, but so does a data frame of length
zero: once another byte has arrived, the reader yields an empty `DataChunk`
for it, and the head passes it on.  There is no third way.
-/
import YamuxLowMem.HeadClosing
import YamuxLowMem.SessionRun

namespace YamuxLowMem

open Async Relation

/-- Something has arrived that sends an empty chunk to the handle. -/
def marked (inputs : List FrameStreamEvent) : Bool :=
  peerFinished inputs || decide (.dataChunk [] ∈ inputs)

theorem marked_append (es es' : List FrameStreamEvent) :
    marked (es ++ es') = (marked es || marked es') := by
  simp only [marked, peerFinished_append, List.mem_append, Bool.decide_or]
  ac_rfl

/-- Every empty chunk comes after a `FIN` or `RST`. -/
def EmptyChunksEnd (inputs : List FrameStreamEvent) : Prop :=
  ∀ before after, inputs = before ++ .dataChunk [] :: after → peerFinished before = true

/-- Then only a `FIN` or `RST` marks the end. -/
theorem EmptyChunksEnd.finished {inputs : List FrameStreamEvent} (h : EmptyChunksEnd inputs)
    (hmarked : marked inputs = true) : peerFinished inputs = true := by
  rw [marked, Bool.or_eq_true, decide_eq_true_eq] at hmarked
  rcases hmarked with hfinished | hmem
  · exact hfinished
  · obtain ⟨before, after, heq⟩ := List.append_of_mem hmem
    rw [heq, peerFinished_append, h before after heq, Bool.true_or]

/-- An empty chunk in the channel comes from what has arrived; and a read that
reports the end has come to such a chunk, with all before it read. -/
structure EndMarks (p : StreamPair) : Prop where
  log : [] ∈ p.down.log → marked p.inputs = true
  eof : p.eof = true → ∃ before after,
    p.down.log = before ++ [] :: after ∧ before.flatten <+: p.handle.read

namespace EndMarks

variable {p q : StreamPair}

theorem marked_of_eof (h : EndMarks p) (heof : p.eof = true) : marked p.inputs = true := by
  obtain ⟨before, after, hlog, -⟩ := h.eof heof
  apply h.log
  rw [hlog]
  exact List.mem_append_right _ List.mem_cons_self

/-- Neither the channel nor what has been read shrinks. -/
theorem eof_mono (h : EndMarks p) (hlog : p.down.log <+: q.down.log)
    (hread : p.handle.read <+: q.handle.read) (heof : p.eof = true) : ∃ before after,
      q.down.log = before ++ [] :: after ∧ before.flatten <+: q.handle.read := by
  obtain ⟨before, after, hbefore, hall⟩ := h.eof heof
  obtain ⟨new, hnew⟩ := hlog
  refine ⟨before, after ++ new, ?_, hall.trans hread⟩
  rw [← hnew, hbefore, List.append_assoc]
  rfl

/-- The head sends a chunk down, and if it is empty the event says so. -/
theorem send (h : EndMarks p) {e : FrameStreamEvent} {chunk : Bytes}
    (hdown : q.down = YamuxStreamHead.sendDown p.down chunk) (hhandle : q.handle = p.handle)
    (heof : q.eof = p.eof) (hinputs : q.inputs = p.inputs ++ [e])
    (hmarks : chunk = [] → marked [e] = true) : EndMarks q := by
  have hlog := YamuxStreamHead.log_sendDown p.down chunk
  rw [← hdown] at hlog
  have hkeep : [] ∈ p.down.log → marked q.inputs = true := by
    intro hmem
    rw [hinputs, marked_append, h.log hmem, Bool.true_or]
  refine ⟨?_, ?_⟩
  · intro hmem
    rcases hlog with hlog | hlog <;> rw [hlog] at hmem
    · exact hkeep hmem
    · rcases List.mem_append.mp hmem with hmem | hmem
      · exact hkeep hmem
      · rw [hinputs, marked_append, hmarks (List.mem_singleton.mp hmem).symm, Bool.or_true]
  · rw [heof]
    apply h.eof_mono
    · rcases hlog with hlog | hlog <;> rw [hlog]
      exact List.prefix_append _ _
    · rw [hhandle]

/-- Flags arrive: an empty chunk, or none. -/
theorem flagged (h : EndMarks p) {flags : Flags} {e : FrameStreamEvent}
    (he : e.flags = some flags) (hdown : q.down = p.head.flaggedDown p.down flags)
    (hhandle : q.handle = p.handle) (heof : q.eof = p.eof)
    (hinputs : q.inputs = p.inputs ++ [e]) : EndMarks q := by
  by_cases hend : p.head.endsRemote flags = true
  · rw [YamuxStreamHead.flaggedDown, if_pos hend] at hdown
    apply h.send hdown hhandle heof hinputs
    intro _
    have hflags : (flags.rst || flags.fin) = true := (Bool.and_eq_true _ _ ▸ hend).2
    rw [Bool.or_comm] at hflags
    simp [marked, peerFinished, FrameStreamEvent.carries, he, hflags]
  · rw [YamuxStreamHead.flaggedDown, if_neg hend] at hdown
    refine ⟨?_, ?_⟩
    · rw [hdown, hinputs, marked_append]
      exact fun hmem => by rw [h.log hmem, Bool.true_or]
    · rw [heof, hdown, hhandle]
      exact h.eof

/-- A read of the next bytes of a chunk. -/
theorem read (h : EndMarks p) {out : Bytes} {bufLen : Nat} (hlog : q.down.log = p.down.log)
    (hinputs : q.inputs = p.inputs) (hread : q.handle.read = p.handle.read ++ out)
    (heof : q.eof = (p.eof || (out.isEmpty && decide (0 < bufLen))))
    (hout : 0 < bufLen → out ≠ []) : EndMarks q := by
  refine ⟨?_, ?_⟩
  · rw [hlog, hinputs]
    exact h.log
  · rw [heof, Bool.or_eq_true, Bool.and_eq_true, decide_eq_true_eq, List.isEmpty_iff]
    rintro (he | ⟨hnil, hbuf⟩)
    · apply h.eof_mono ?_ ?_ he
      · rw [hlog]
      · rw [hread]
        exact List.prefix_append _ _
    · exact absurd hnil (hout hbuf)

end EndMarks

theorem PairReachable.endMarks {opened : Bool} {id : StreamID} {p : StreamPair}
    (h : PairReachable opened id p) : EndMarks p := by
  refine h.invariant_with (fun _ => readInv) ?_ ?_
  · rintro p rfl
    cases opened <;> exact ⟨fun hmem => (by cases hmem), fun he => (by cases he)⟩
  · rintro p q hr hp hstep
    cases hstep with
    | header flags size => exact hp.flagged (e := .data flags size) rfl rfl rfl rfl rfl
    | window flags delta => exact hp.flagged (e := .windowUpdate flags delta) rfl rfl rfl rfl rfl
    | chunk bytes =>
        refine hp.send (e := .dataChunk bytes) rfl rfl rfl rfl ?_
        rintro rfl
        decide
    | @readRest chunk offset bufLen halive hc =>
        obtain ⟨hread, -, hout, -⟩ := p.handle.readChunk_spec bufLen (hr.offset _ _ hc)
        exact hp.read rfl rfl hread rfl hout
    | @readEnd rest bufLen halive hc hq =>
        refine ⟨hp.log, ?_⟩
        intro _
        -- nothing is left of a chunk, so all before the empty one has been read
        obtain ⟨popped, hlog, hpopped⟩ := hr.popped halive
        rw [YamuxStream.rest, hc, List.append_nil] at hpopped
        exact ⟨popped, rest, hq ▸ hlog, hpopped ▸ List.prefix_rfl⟩
    | @readNext chunk rest bufLen halive hc hq hne =>
        obtain ⟨hread, -, hout, -⟩ :=
          p.handle.readChunk_spec bufLen (List.length_pos_iff.mpr hne)
        exact hp.read rfl rfl hread rfl hout
    | _ => exact ⟨hp.log, hp.eof⟩

/-! ### In a session -/

/-- The events a stream has taken in are among the frames received. -/
def HeardFrom (received : List Frame) (p : StreamPair) : Prop :=
  ∀ e ∈ p.inputs, .stream p.handle.id e ∈ received

/-- So it is with all streams of a session. -/
abbrev YamuxSession.Heard (s : YamuxSession) : Prop :=
  Pairs (fun id p => p.handle.id = id ∧ HeardFrom s.transport.received p)
    (HeardFrom s.transport.received) s

section Heard

variable {s s' : YamuxSession} {received : List Frame} {p : StreamPair}

theorem HeardFrom.handleOp (h : HeardFrom received p) (op : HandleOp) :
    HeardFrom received (p.handleOp op) := by
  rw [HeardFrom, (p.handleOp_frame op).2.2, p.handleOp_handleId]
  exact h

theorem HeardFrom.onInput (h : HeardFrom received p) {event : FrameStreamEvent}
    (hmem : .stream p.handle.id event ∈ received) : HeardFrom received (p.onInput event).2 := by
  intro e he
  have hid : (p.onInput event).2.handle = p.handle := rfl
  have hinputs : e ∈ p.inputs ++ [event] := by
    simp only [StreamPair.onInput] at he
    split at he
    · exact he
    · exact List.mem_append_left _ he
  rw [hid]
  rcases List.mem_append.mp hinputs with he | he
  · exact h e he
  · rw [List.mem_singleton.mp he]
    exact hmem

/-- Receiving adds frames, and changes none of the streams. -/
theorem YamuxSession.Heard.mono (h : s.Heard) (hstreams : s'.streams = s.streams)
    (hdropped : s'.dropped = s.dropped)
    (hreceived : s.transport.received ⊆ s'.transport.received) : s'.Heard := by
  apply Pairs.congr ?_ hstreams hdropped
  apply Pairs.mono h
  · exact fun id p _ hp => ⟨hp.1, fun e he => hreceived (hp.2 e he)⟩
  · exact fun p _ hp e he => hreceived (hp e he)

theorem Dispatch.heard {frame : Frame} (h : Dispatch s frame s') (hs : s.Heard)
    (hframe : frame ∈ s.transport.received) : s'.Heard := by
  cases h with
  | ping | quiet | unknown => exact hs.mono rfl rfl (List.Subset.refl _)
  | @input id p event hp =>
      obtain ⟨rfl, hheard⟩ := hs.registered id p hp
      have hset := Pairs.setStream (p := (p.onInput event).2) hs ⟨rfl, hheard.onInput hframe⟩
      cases hresult : (p.onInput event).1 with
      | ok => exact hset
      | error e => exact hset.congr rfl rfl
  | @accept id event flags =>
      have hnew : HeardFrom s.transport.received
          ((StreamPair.acceptStream id).onInput event).2 := by
        apply HeardFrom.onInput
        · exact fun e he => (by cases he)
        · exact hframe
      have hset := Pairs.insertStream hs (fun _ _ hp => hp.2) ⟨rfl, hnew⟩
      cases hresult : ((StreamPair.acceptStream id).onInput event).1 with
      | ok => exact hset
      | error e => exact hset.congr rfl rfl

theorem PollStep.heard (h : PollStep s s') (hpairs : PairsOk s) (hs : s.Heard) : s'.Heard := by
  cases h with
  | flush hflush =>
      refine hs.mono rfl rfl ?_
      show s.transport.received ⊆ YamuxTransport.received _
      rw [hflush.received]
      exact List.Subset.refl _
  | @send t out rest hqueue hsend =>
      refine hs.mono rfl rfl ?_
      obtain ⟨buffer, -, heq⟩ := Option.bind_eq_some_iff.mp hsend
      cases heq
      exact List.Subset.refl _
  | closeIo => exact hs.mono rfl rfl (List.Subset.refl _)
  | @receive t event pushed hreceive =>
      -- the frame is recorded before it is handed to its stream
      have hreceived := hreceive.received
      have ht : YamuxSession.Heard { s with transport := t } := by
        refine hs.mono rfl rfl ?_
        show s.transport.received ⊆ t.received
        rw [hreceived]
        exact List.subset_append_left _ _
      unfold YamuxSession.deliver
      split
      · rename_i frame
        refine (YamuxSession.onFrame_dispatch _ _).heard ht ?_
        show frame ∈ t.received
        rw [hreceived]
        exact List.mem_append_right _ List.mem_cons_self
      · exact ht
  | @drain id p hp =>
      have hdrained := (hpairs.registered id p hp).drain
      obtain ⟨hid, hheard⟩ := hs.registered id p hp
      have hnew : (YamuxSession.drainHead (YamuxSession.drainWork p) p).2.2.handle.id = id ∧
          HeardFrom s.transport.received
            (YamuxSession.drainHead (YamuxSession.drainWork p) p).2.2 := by
        rw [HeardFrom, hdrained.handle, hdrained.inputs]
        exact ⟨hid, hheard⟩
      exact (Pairs.setStream hs hnew).congr rfl rfl
  | remove id => exact Pairs.removeStream hs (fun _ _ hp => hp.2) id

theorem SessionStep.heard {guard : Guard} (h : SessionStep guard s s') (hpairs : PairsOk s)
    (hs : s.Heard) : s'.Heard := by
  cases h with
  | openStream =>
      have hnew : HeardFrom s.transport.received (StreamPair.openStream ⟨s.nextStreamId⟩) :=
        fun e he => (by cases he)
      exact Pairs.insertStream (hs.congr rfl rfl) (fun _ _ hp => hp.2) ⟨rfl, hnew⟩
  | close | behave => exact hs.mono rfl rfl (List.Subset.refl _)
  | handle ref op =>
      have htransport := handleOp_transport (s := s) ref op
      rw [YamuxSession.Heard, htransport]
      refine hs.handleOp ref op (fun _ p hp => ?_) fun _ hp => hp.handleOp op
      exact ⟨(p.handleOp_handleId op).trans hp.1, hp.2.handleOp op⟩
  | poll hpoll => exact hpoll.heard hpairs hs

theorem SessionReachable.heard {isServer : Bool} {maxWriteBuffer : Nat} {guard : Guard}
    (h : SessionReachable isServer maxWriteBuffer guard s) : s.Heard := by
  refine h.invariant_with (fun _ => SessionReachable.pairsOk) ?_ ?_
  · rintro s rfl
    exact ⟨fun id p hp => (by cases hp), fun p hp => (by cases hp)⟩
  · intro s s' hpairs hs hstep
    exact hstep.heard hpairs hs

end Heard

/-! ### Runs -/

/-- The session has the stream, or had it. -/
def YamuxSession.Knows (s : YamuxSession) (p : StreamPair) : Prop :=
  (∃ id, s.streams.lookup id = some p) ∨ p ∈ s.dropped

/-- A frame with `FIN` or `RST` has been decoded for the stream. -/
def YamuxSession.EndDecoded (s : YamuxSession) (p : StreamPair) : Prop :=
  ∃ e, .stream p.handle.id e ∈ s.transport.received ∧
    (e.carries Flags.fin || e.carries Flags.rst) = true

/-- In every state of every run, whatever bytes come in: where each empty chunk
decoded for a stream came after a `FIN` or `RST`, a read reports the end only
after a frame with `FIN` or `RST` has been decoded for the stream, and taken in
by it. -/
theorem eof_after_end {isServer : Bool} {maxWriteBuffer : Nat} {s : YamuxSession}
    (h : (sessionMachine isServer maxWriteBuffer anything).Reachable s) {p : StreamPair}
    (hp : s.Knows p) (hends : EmptyChunksEnd p.inputs) (heof : p.eof = true) :
    s.EndDecoded p ∧ peerFinished p.inputs = true := by
  have hreach := sessionMachine_reachable h
  obtain ⟨hknown, hheard⟩ : Known p ∧ HeardFrom s.transport.received p := by
    rcases hp with ⟨id, hlookup⟩ | hdropped
    · obtain ⟨opened, hpair⟩ := (hreach.pairsOk.registered id p hlookup).reach
      exact ⟨⟨opened, id, hpair⟩, (hreach.heard.registered id p hlookup).2⟩
    · exact ⟨hreach.pairsOk.dropped p hdropped, hreach.heard.dropped p hdropped⟩
  obtain ⟨opened, id, hpair⟩ := hknown
  have hfinished := hends.finished (hpair.endMarks.marked_of_eof heof)
  refine ⟨?_, hfinished⟩
  rw [peerFinished, Bool.or_eq_true] at hfinished
  rcases hfinished with hcarried | hcarried <;>
    obtain ⟨e, he, hflag⟩ := List.any_eq_true.mp hcarried <;>
    exact ⟨e, hheard e he, by rw [hflag]; simp⟩

/-- Once the end has come, empty chunks may. -/
theorem EmptyChunksEnd.of_front {before : List FrameStreamEvent}
    (hfinished : peerFinished before = true) (hnone : .dataChunk [] ∉ before)
    (after : List FrameStreamEvent) : EmptyChunksEnd (before ++ after) := by
  intro front rest heq
  rcases List.append_eq_append_iff.mp heq with ⟨more, hfront, -⟩ | ⟨more, hbefore, hrest⟩
  · rw [hfront, peerFinished_append, hfinished, Bool.true_or]
  · cases more with
    | nil =>
        rw [List.append_nil] at hbefore
        rwa [← hbefore]
    | cons e more =>
        -- the empty chunk would be one of `before`
        obtain ⟨rfl, -⟩ := List.cons.inj hrest
        exact absurd (hbefore ▸ List.mem_append_right _ List.mem_cons_self) hnone

/-- The peer opens stream 1, sends a byte and `FIN`, and a data frame of length
zero behind it; the application reads twice. -/
def finRead : List Move :=
  [.poll [] [.ready (.ok ((Frame.stream ⟨1⟩ (.windowUpdate Flags.onlySyn 0)).encode ++
      (Frame.stream ⟨1⟩ (.data Flags.empty 1)).encode ++ [7] ++
      (Frame.stream ⟨1⟩ (.windowUpdate Flags.onlyFin 0)).encode ++
      (Frame.stream ⟨1⟩ (.data Flags.empty 0)).encode ++ [0]))] [] [],
    .poll [] [] [] [⟨1⟩], .handle (.registered ⟨1⟩) (.read 1),
    .handle (.registered ⟨1⟩) (.read 1)]

/-- The end it reads is that of the peer, though an empty chunk has arrived. -/
theorem eof_after_end_finRead :
    ∃ s p, (YamuxSession.new Io.new true 0).run finRead = some s ∧
      s.streams.lookup ⟨1⟩ = some p ∧ .dataChunk [] ∈ p.inputs ∧ p.handle.read = [7] ∧
      p.eof = true ∧ s.EndDecoded p ∧ peerFinished p.inputs = true := by
  have hrun : ((YamuxSession.new Io.new true 0).run finRead).map (fun s =>
      (s.streams.lookup ⟨1⟩).map fun p => (p.handle.read, p.eof, p.inputs)) =
        some (some ([7], true, [.windowUpdate Flags.onlySyn 0, .data Flags.empty 1,
          .dataChunk [7], .windowUpdate Flags.onlyFin 0] ++
            [.data Flags.empty 0, .dataChunk []])) := by
    decide +kernel
  obtain ⟨s, hs, hlookup⟩ := Option.map_eq_some_iff.mp hrun
  obtain ⟨p, hp, hfacts⟩ := Option.map_eq_some_iff.mp hlookup
  simp only [Prod.mk.injEq] at hfacts
  obtain ⟨hread, heof, hinputs⟩ := hfacts
  have hends : EmptyChunksEnd p.inputs := by
    rw [hinputs]
    exact .of_front (by decide) (by decide) _
  have hmem : .dataChunk [] ∈ p.inputs := by
    rw [hinputs]
    decide
  refine ⟨s, p, hs, hp, hmem, hread, heof, ?_⟩
  exact eof_after_end (reachable_of_run (.init rfl) hs) (Or.inl ⟨_, hp⟩) hends heof

/-- The peer opens stream 1 and sends a data frame of length zero, without
flags, and another byte; the application reads. -/
def emptyRead : List Move :=
  [.poll [] [.ready (.ok ([0, 1, 0, 1, 0, 0, 0, 1, 0, 0, 0, 0] ++
      [0, 0, 0, 0, 0, 0, 0, 1, 0, 0, 0, 0] ++ [0]))] [] [],
    .poll [] [] [] [⟨1⟩], .handle (.registered ⟨1⟩) (.read 1)]

/-- Does the frame end its stream? -/
def Frame.endsStream : Frame → Bool
  | .stream _ event => event.carries Flags.fin || event.carries Flags.rst
  | .session _ => false

/-- The application is told that the stream has ended. -/
theorem eof_spurious :
    ¬ ∀ (isServer : Bool) (maxWriteBuffer : Nat) (s : YamuxSession),
      (sessionMachine isServer maxWriteBuffer anything).Reachable s →
      ∀ p, s.Knows p → p.eof = true → s.EndDecoded p := by
  intro hall
  obtain ⟨s, hreach, hs⟩ := exists_of_run true 0 emptyRead
    (p := fun s => (s.streams.lookup ⟨1⟩).any (fun p => p.eof) &&
      s.transport.received.all (fun f => !f.endsStream)) (by decide +kernel)
  obtain ⟨hread, hnone⟩ := Bool.and_eq_true _ _ ▸ hs
  obtain ⟨p, hp, heof⟩ := (Option.any_eq_true _ _).mp hread
  obtain ⟨e, he, hends⟩ := hall true 0 s hreach p (Or.inl ⟨_, hp⟩) heof
  have hnot : (!(e.carries Flags.fin || e.carries Flags.rst)) = true :=
    List.all_eq_true.mp hnone _ he
  rw [hends] at hnot
  cases hnot

end YamuxLowMem
