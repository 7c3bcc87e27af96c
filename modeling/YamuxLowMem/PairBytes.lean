/-
YamuxLowMem/PairBytes.lean

The bytes that pass through a stream, in both directions.

Outwards: the payload a head has put out and the chunks still waiting are what
the application has written; once the head has put out its `FIN`, nothing
waits any more.  Inwards: what the application has read, the rest of the
current chunk and the chunks still waiting are the payload that has arrived; a
read that reports the end comes after all of it.

The facts about `FIN` need a peer that sends no `RST`, no empty chunk and
nothing after its own `FIN`, and an application that writes no empty slice.
-/
import YamuxLowMem.PairInv

namespace YamuxLowMem

open Async

/-! ### Sequences that end with `FIN` -/

/-- No payload comes after a `FIN`. -/
def Final : List FrameStreamEvent → Prop
  | [] => True
  | e :: es => (e.carries Flags.fin = true → payloadOf es = []) ∧ Final es

theorem final_append {es es' : List FrameStreamEvent} :
    Final (es ++ es') ↔
      Final es ∧ Final es' ∧ (carried Flags.fin es = true → payloadOf es' = []) := by
  induction es with
  | nil => simp [Final]
  | cons e es ih =>
      simp only [List.cons_append, Final, ih, payloadOf_append, List.append_eq_nil_iff,
        carried_cons, Bool.or_eq_true]
      constructor
      · rintro ⟨he, hes, hes', hfin⟩
        refine ⟨⟨fun h => (he h).1, hes⟩, hes', ?_⟩
        rintro (h | h)
        · exact (he h).2
        · exact hfin h
      · rintro ⟨⟨he, hes⟩, hes', hfin⟩
        exact ⟨fun h => ⟨he h, hfin (Or.inl h)⟩, hes, hes', fun h => hfin (Or.inr h)⟩

/-- What a peer that plays fair sends. -/
structure Fair (es : List FrameStreamEvent) : Prop where
  noReset : carried Flags.rst es = false
  nonempty : .dataChunk [] ∉ es
  final : Final es

theorem Fair.left {es es' : List FrameStreamEvent} (h : Fair (es ++ es')) : Fair es := by
  refine ⟨?_, ?_, ?_⟩
  · have hreset := h.noReset
    rw [carried_append, Bool.or_eq_false_iff] at hreset
    exact hreset.1
  · intro hmem
    exact h.nonempty (List.mem_append_left _ hmem)
  · exact (final_append.mp h.final).1

/-! ### Outwards -/

/-- What has been put out is the front of what was written, and with what
waits it is all of it. -/
structure WrittenInv (p : StreamPair) : Prop where
  isPrefix : payloadOf p.history <+: p.handle.written
  all : p.headAlive → payloadOf p.history ++ p.up.queue.flatten = p.handle.written

/-- Once the local half is closed, everything written has been put out, and
nothing will be written any more. -/
structure FinInv (p : StreamPair) : Prop where
  queue_log : ∀ c ∈ p.up.queue, c ∈ p.up.log
  closed : carried Flags.rst p.inputs = false → [] ∉ p.up.log →
    p.head.state.localOpen = false →
      p.up.senderOpen = false ∧ p.up.queue = [] ∧ payloadOf p.history = p.handle.written
  final : carried Flags.rst p.inputs = false → [] ∉ p.up.log → Final p.history

namespace FinInv

variable {p q : StreamPair}

/-- What a later state assumes of the peer and the handle was so before. -/
theorem assumed (hstep : PairStep p q) (hr : carried Flags.rst q.inputs = false)
    (hl : [] ∉ q.up.log) : carried Flags.rst p.inputs = false ∧ [] ∉ p.up.log := by
  obtain ⟨new, hnew⟩ := hstep.inputs_prefix
  rw [← hnew, carried_append, Bool.or_eq_false_iff] at hr
  exact ⟨hr.1, fun hmem => hl (hstep.upLog_prefix.subset hmem)⟩

theorem queue_log_step (hp : FinInv p) (hstep : PairStep p q) :
    ∀ c ∈ q.up.queue, c ∈ q.up.log := by
  have hqueue := hp.queue_log
  cases hstep with
  | take _ hq | takeEnd _ hq =>
      intro c hc
      exact hqueue c (by rw [hq]; exact List.mem_cons_of_mem _ hc)
  | write buf =>
      intro c hc
      rcases List.mem_append.mp hc with hc | hc
      · exact List.mem_append_left _ (hqueue c hc)
      · exact List.mem_append_right _ hc
  | dropHead =>
      intro c hc
      cases hc
  | _ => exact hqueue

theorem closed_step (hp : FinInv p) (hwritten : WrittenInv p) (hstep : PairStep p q)
    (hr : carried Flags.rst q.inputs = false) (hl : [] ∉ q.up.log)
    (hlocal : q.head.state.localOpen = false) :
    q.up.senderOpen = false ∧ q.up.queue = [] ∧ payloadOf q.history = q.handle.written := by
  obtain ⟨hreset, hlog⟩ := assumed hstep hr hl
  have hclosed := hp.closed hreset hlog
  cases hstep with
  | yield _ ho =>
      obtain ⟨hs, hq, hw⟩ := hclosed hlocal
      refine ⟨hs, hq, ?_⟩
      rw [← hw]
      simp [StreamPair.history, ho]
  | take _ hq =>
      have hnone := (hclosed hlocal).2.1
      rw [hq] at hnone
      cases hnone
  | takeEnd _ hq => exact absurd (hp.queue_log [] (by simp [hq])) hlog
  | takeNone halive hq hs =>
      refine ⟨hs, hq, ?_⟩
      show _ = p.handle.written
      rw [← hwritten.all halive, hq]
      simp only [StreamPair.history, YamuxStreamHead.tryCloseLocal_eq]
      split <;> simp
  | header flags size | window flags delta =>
      rw [carried_append, carried_cons, Bool.or_eq_false_iff, Bool.or_eq_false_iff] at hr
      have hrst : flags.rst = false := hr.2.1
      obtain ⟨hs, hq, hw⟩ := hclosed (by simpa [YamuxStreamHead.flagged, hrst] using hlocal)
      refine ⟨hs, hq, ?_⟩
      rw [← hw]
      simp [StreamPair.history, YamuxStreamHead.flagged, hrst]
  | chunk bytes =>
      obtain ⟨hs, hq, hw⟩ :=
        hclosed (by simpa [YamuxStreamHead.markReceivedBytes_eq] using hlocal)
      refine ⟨hs, hq, ?_⟩
      rw [← hw]
      simp only [StreamPair.history, YamuxStreamHead.markReceivedBytes_eq]
      split <;> simp
  | write buf _ _ hs =>
      rw [(hclosed hlocal).1] at hs
      cases hs
  | close | dropHandle => exact ⟨rfl, (hclosed hlocal).2⟩
  | dropHead => exact ⟨(hclosed hlocal).1, rfl, (hclosed hlocal).2.2⟩
  | _ => exact hclosed hlocal

theorem final_step (hp : FinInv p)
    (hfin : carried Flags.fin p.history = !p.head.state.localOpen) (hstep : PairStep p q)
    (hr : carried Flags.rst q.inputs = false) (hl : [] ∉ q.up.log) : Final q.history := by
  obtain ⟨hreset, hlog⟩ := assumed hstep hr hl
  obtain ⟨new, hnew, hput⟩ := hstep.putOut
  rw [hnew]
  refine final_append.mpr ⟨hp.final hreset hlog, ?_, ?_⟩
  · cases hput <;> simp [Final, finEvent, creditEvent, FrameStreamEvent.carries,
      FrameStreamEvent.flags, Flags.empty]
  · intro hcarried
    cases hput with
    | block hq =>
        -- a chunk would still be waiting after `FIN`
        rw [hfin] at hcarried
        have hnone := (hp.closed hreset hlog (by simpa using hcarried)).2.1
        rw [hq] at hnone
        cases hnone
    | none | fin | credit => rfl

end FinInv

namespace PairReachable

variable {opened : Bool} {id : StreamID} {p : StreamPair}

theorem writtenInv (h : PairReachable opened id p) : WrittenInv p := by
  refine h.invariant ?_ ?_
  · rintro p rfl
    cases opened <;> exact ⟨List.prefix_rfl, fun _ => rfl⟩
  · rintro p q hp hstep
    -- while the head is alive, the second part gives the first
    have mk : ∀ {q : StreamPair},
        payloadOf q.history ++ q.up.queue.flatten = q.handle.written → WrittenInv q :=
      fun hall => ⟨⟨_, hall⟩, fun _ => hall⟩
    cases hstep with
    | yield halive ho =>
        apply mk
        rw [← hp.all halive]
        simp [StreamPair.history, ho]
    | take halive hq =>
        apply mk
        rw [← hp.all halive]
        simp [StreamPair.history, YamuxStreamHead.sendChunk, FrameStreamEvent.payload, hq]
    | takeEnd halive hq =>
        apply mk
        rw [← hp.all halive]
        simp only [StreamPair.history, YamuxStreamHead.tryCloseLocal_eq, hq]
        split <;> simp
    | takeNone halive hq =>
        apply mk
        rw [← hp.all halive]
        simp only [StreamPair.history, YamuxStreamHead.tryCloseLocal_eq]
        split <;> simp
    | header flags size halive | window flags delta halive =>
        apply mk
        rw [← hp.all halive]
        simp only [StreamPair.history, YamuxStreamHead.flagged]
        split <;> simp [FrameStreamEvent.payload]
    | chunk bytes halive =>
        apply mk
        rw [← hp.all halive]
        simp only [StreamPair.history, YamuxStreamHead.markReceivedBytes_eq]
        split <;> simp
    | write buf _ halive =>
        apply mk
        show payloadOf p.history ++ (p.up.queue ++ [_]).flatten = p.handle.written ++ _
        rw [← hp.all halive, List.flatten_append, List.flatten_singleton, List.append_assoc]
    | dropHead => exact ⟨hp.isPrefix, fun h => (by cases h)⟩
    | _ => exact ⟨hp.isPrefix, hp.all⟩

/-- The facts used by the step lemma of `finInv`. -/
theorem finInv_with (h : PairReachable opened id p) :
    WrittenInv p ∧ carried Flags.fin p.history = !p.head.state.localOpen :=
  ⟨h.writtenInv, h.fin_history⟩

theorem finInv (h : PairReachable opened id p) : FinInv p := by
  refine h.invariant_with (fun _ => finInv_with) ?_ ?_
  · rintro p rfl
    refine ⟨?_, ?_, ?_⟩
    · intro c hc
      cases opened <;> cases hc
    · intro _ _ hlocal
      cases opened <;> cases hlocal
    · intro _ _
      cases opened <;> exact ⟨fun _ => rfl, trivial⟩
  · rintro p q ⟨hwritten, hfin⟩ hp hstep
    exact ⟨hp.queue_log_step hstep, hp.closed_step hwritten hstep, hp.final_step hfin hstep⟩

end PairReachable

/-! ### Inwards -/

namespace YamuxStream

/-- What is left of the current chunk. -/
def rest (s : YamuxStream) : Bytes :=
  match s.recvChunk with
  | some (chunk, offset) => chunk.drop offset
  | none => []

/-- A read takes the front of what is left of a chunk, and something of it
unless the buffer is empty. -/
theorem readChunk_spec (s : YamuxStream) {chunk : Bytes} {offset : Nat} (bufLen : Nat)
    (hoffset : offset < chunk.length) :
    (s.readChunk chunk offset bufLen).2.read =
        s.read ++ (s.readChunk chunk offset bufLen).1 ∧
      (s.readChunk chunk offset bufLen).1 ++ (s.readChunk chunk offset bufLen).2.rest =
        chunk.drop offset ∧
      (0 < bufLen → (s.readChunk chunk offset bufLen).1 ≠ []) ∧
      (∀ c o, (s.readChunk chunk offset bufLen).2.recvChunk = some (c, o) → o < c.length) := by
  have hlen : (s.readChunk chunk offset bufLen).1.length = min (chunk.length - offset) bufLen := by
    simp [readChunk]
  refine ⟨rfl, ?_, ?_, ?_⟩
  · have hout : (s.readChunk chunk offset bufLen).1 =
        (chunk.drop offset).take (s.readChunk chunk offset bufLen).1.length := by
      rw [hlen]
      rfl
    by_cases hend : offset + (s.readChunk chunk offset bufLen).1.length = chunk.length
    · have hrest : (s.readChunk chunk offset bufLen).2.rest = [] := by
        have hrecv : (s.readChunk chunk offset bufLen).2.recvChunk = none := if_pos hend
        rw [rest, hrecv]
      rw [hrest, List.append_nil, hout, List.take_of_length_le]
      rw [List.length_drop]
      omega
    · have hrest : (s.readChunk chunk offset bufLen).2.rest =
          chunk.drop (offset + (s.readChunk chunk offset bufLen).1.length) := by
        have hrecv : (s.readChunk chunk offset bufLen).2.recvChunk =
            some (chunk, offset + (s.readChunk chunk offset bufLen).1.length) := if_neg hend
        rw [rest, hrecv]
      rw [hrest, ← List.drop_drop]
      exact (congrArg (· ++ _) hout).trans (List.take_append_drop _ _)
  · intro hbuf hnil
    rw [hnil, List.length_nil] at hlen
    omega
  · intro c o hrecv
    by_cases hend : offset + (s.readChunk chunk offset bufLen).1.length = chunk.length
    · have hnone : (s.readChunk chunk offset bufLen).2.recvChunk = none := if_pos hend
      rw [hnone] at hrecv
      cases hrecv
    · have hsome : (s.readChunk chunk offset bufLen).2.recvChunk =
          some (chunk, offset + (s.readChunk chunk offset bufLen).1.length) := if_neg hend
      rw [hsome] at hrecv
      obtain ⟨rfl, rfl⟩ := Prod.mk.inj (Option.some.inj hrecv)
      omega

end YamuxStream

theorem YamuxStreamHead.sendDown_eq (down : Channel Bytes) (chunk : Bytes) :
    sendDown down chunk =
      if down.senderOpen && down.receiverOpen then down.push chunk else down.dropSender := by
  simp only [sendDown, Channel.unboundedSend]
  cases down.senderOpen && down.receiverOpen <;> rfl

/-- A chunk is logged, unless the handle is gone. -/
theorem YamuxStreamHead.log_sendDown (down : Channel Bytes) (chunk : Bytes) :
    (sendDown down chunk).log = down.log ∨ (sendDown down chunk).log = down.log ++ [chunk] := by
  rw [sendDown_eq]
  split
  · exact Or.inr rfl
  · exact Or.inl rfl

/-- What was read, what is left of the current chunk and what waits are the
payload received. -/
structure ReadInv (p : StreamPair) : Prop where
  offset : ∀ c o, p.handle.recvChunk = some (c, o) → o < c.length
  popped : p.handleAlive → ∃ popped, p.down.log = popped ++ p.down.queue ∧
    popped.flatten = p.handle.read ++ p.handle.rest
  isPrefix : p.handle.read <+: p.down.log.flatten
  log : p.down.log.flatten <+: payloadOf p.inputs
  tracks : p.handleAlive → p.down.log.flatten = payloadOf p.inputs
  sender : p.headAlive → p.handleAlive → p.down.senderOpen = true

namespace ReadInv

variable {p q : StreamPair}

/-- Moves that have nothing to do with reading. -/
theorem frame (h : ReadInv p) (hdown : q.down = p.down) (hread : q.handle.read = p.handle.read)
    (hchunk : q.handle.recvChunk = p.handle.recvChunk)
    (hinputs : payloadOf q.inputs = payloadOf p.inputs)
    (halive : q.headAlive → p.headAlive) : ReadInv q := by
  have hrest : q.handle.rest = p.handle.rest := by
    rw [YamuxStream.rest, YamuxStream.rest, hchunk]
  have hhandle : q.handleAlive = p.handleAlive := congrArg Channel.receiverOpen hdown
  refine ⟨?_, ?_, ?_, ?_, ?_, ?_⟩
  · rw [hchunk]
    exact h.offset
  · rw [hhandle, hdown, hread, hrest]
    exact h.popped
  · rw [hdown, hread]
    exact h.isPrefix
  · rw [hdown, hinputs]
    exact h.log
  · rw [hhandle, hdown, hinputs]
    exact h.tracks
  · rw [hhandle, hdown]
    exact fun hq => h.sender (halive hq)

/-- The head sends a chunk down. -/
theorem send (h : ReadInv p) (halive : p.headAlive) {chunk : Bytes}
    (hdown : q.down = YamuxStreamHead.sendDown p.down chunk) (hhandle : q.handle = p.handle)
    (hinputs : payloadOf q.inputs = payloadOf p.inputs ++ chunk) : ReadInv q := by
  rw [YamuxStreamHead.sendDown_eq] at hdown
  by_cases hopen : p.handleAlive = true
  · have hsender := h.sender halive hopen
    have hboth : (p.down.senderOpen && p.down.receiverOpen) = true := by
      rw [hsender]
      exact hopen
    rw [if_pos hboth] at hdown
    obtain ⟨popped, hlog, hpopped⟩ := h.popped hopen
    have hall : q.down.log.flatten = payloadOf q.inputs := by
      rw [hdown, hinputs, Channel.push_log, List.flatten_append, List.flatten_singleton,
        h.tracks hopen]
    refine ⟨?_, ?_, ?_, ?_, fun _ => hall, ?_⟩
    · rw [hhandle]
      exact h.offset
    · intro _
      refine ⟨popped, ?_, by rw [hhandle]; exact hpopped⟩
      rw [hdown, Channel.push_log, Channel.push_queue, hlog, List.append_assoc]
    · rw [hhandle, hdown, Channel.push_log, List.flatten_append]
      exact h.isPrefix.trans (List.prefix_append _ _)
    · exact hall ▸ List.prefix_rfl
    · intro _ _
      rw [hdown]
      exact hsender
  · have hclosed : p.down.receiverOpen = false := by simpa [StreamPair.handleAlive] using hopen
    have hboth : (p.down.senderOpen && p.down.receiverOpen) = false := by
      rw [hclosed, Bool.and_false]
    rw [hboth] at hdown
    have hq : ¬ q.handleAlive = true := by
      rw [StreamPair.handleAlive, hdown]
      simpa using hclosed
    have hlog : q.down.log = p.down.log := by rw [hdown]; rfl
    refine ⟨?_, fun h => absurd h hq, ?_, ?_, fun h => absurd h hq, fun _ h => absurd h hq⟩
    · rw [hhandle]
      exact h.offset
    · rw [hhandle, hlog]
      exact h.isPrefix
    · rw [hlog, hinputs]
      exact h.log.trans (List.prefix_append _ _)

/-- Flags arrive: an empty chunk, or none. -/
theorem flagged (h : ReadInv p) (halive : p.headAlive) {flags : Flags}
    (hdown : q.down = p.head.flaggedDown p.down flags) (hhandle : q.handle = p.handle)
    (hinputs : payloadOf q.inputs = payloadOf p.inputs) : ReadInv q := by
  by_cases hend : p.head.endsRemote flags = true
  · rw [YamuxStreamHead.flaggedDown, if_pos hend] at hdown
    exact h.send halive hdown hhandle (by rw [hinputs, List.append_nil])
  · rw [YamuxStreamHead.flaggedDown, if_neg hend] at hdown
    exact h.frame hdown (by rw [hhandle]) (by rw [hhandle]) hinputs fun _ => halive

/-- A read takes `out`, and leaves `s`, of a current chunk `c`. -/
theorem read (h : ReadInv p) (popped : List Bytes) {s : YamuxStream} (out : Bytes)
    (halive : p.handleAlive) (hlog : p.down.log = popped ++ q.down.queue)
    (hpopped : popped.flatten = p.handle.read ++ out ++ s.rest) (hhandle : q.handle = s)
    (hread : s.read = p.handle.read ++ out)
    (hoffset : ∀ c o, s.recvChunk = some (c, o) → o < c.length)
    (hdown : q.down = { p.down with queue := q.down.queue })
    (hup : q.up = p.up) (hinputs : q.inputs = p.inputs) : ReadInv q := by
  have hqlog : q.down.log = p.down.log := by rw [hdown]
  have hqalive : q.handleAlive = p.handleAlive := by
    rw [StreamPair.handleAlive, hdown]
    rfl
  have hall : q.down.log.flatten = payloadOf q.inputs := by
    rw [hqlog, hinputs]
    exact h.tracks halive
  refine ⟨?_, ?_, ?_, ?_, fun _ => hall, ?_⟩
  · rw [hhandle]
    exact hoffset
  · intro _
    refine ⟨popped, ?_, ?_⟩
    · rw [hqlog]
      exact hlog
    · rw [hhandle, hread]
      exact hpopped
  · rw [hhandle, hread, hqlog, hlog, List.flatten_append, hpopped, List.append_assoc]
    exact List.prefix_append _ _
  · exact hall ▸ List.prefix_rfl
  · intro hq hqh
    have hsender := h.sender (by rwa [StreamPair.headAlive, hup] at hq) halive
    rw [hdown]
    exact hsender

end ReadInv

namespace PairReachable

variable {opened : Bool} {id : StreamID} {p : StreamPair}

theorem readInv (h : PairReachable opened id p) : ReadInv p := by
  refine h.invariant ?_ ?_
  · rintro p rfl
    cases opened <;>
      exact ⟨fun c o hc => (by cases hc), fun _ => ⟨[], rfl, rfl⟩, List.prefix_rfl,
        List.prefix_rfl, fun _ => rfl, fun _ _ => rfl⟩
  · rintro p q hp hstep
    cases hstep with
    | header flags size halive | window flags delta halive =>
        refine hp.flagged halive rfl rfl ?_
        simp [FrameStreamEvent.payload]
    | chunk bytes halive =>
        refine hp.send halive rfl rfl ?_
        simp [FrameStreamEvent.payload]
    | @readRest chunk offset bufLen halive hc =>
        obtain ⟨popped, hlog, hpopped⟩ := hp.popped halive
        obtain ⟨hread, hsplit, -, hoffset⟩ := p.handle.readChunk_spec bufLen (hp.offset _ _ hc)
        refine hp.read popped _ halive hlog ?_ rfl hread hoffset rfl rfl rfl
        rw [hpopped, YamuxStream.rest, hc, List.append_assoc, hsplit]
    | @readEnd rest bufLen halive hc hq =>
        obtain ⟨popped, hlog, hpopped⟩ := hp.popped halive
        refine hp.read (popped ++ [[]]) [] halive ?_ ?_ rfl ?_ hp.offset rfl rfl rfl
        · rw [hlog, hq, List.append_assoc]
          rfl
        · rw [List.flatten_append, hpopped]
          simp
        · rw [List.append_nil]
    | @readNext chunk rest bufLen halive hc hq hne =>
        obtain ⟨popped, hlog, hpopped⟩ := hp.popped halive
        obtain ⟨hread, hsplit, -, hoffset⟩ :=
          p.handle.readChunk_spec bufLen (List.length_pos_iff.mpr hne)
        have hrest : p.handle.rest = [] := by rw [YamuxStream.rest, hc]
        refine hp.read (popped ++ [chunk]) _ halive ?_ ?_ rfl hread hoffset rfl rfl rfl
        · rw [hlog, hq, List.append_assoc]
          rfl
        · rw [List.flatten_append, hpopped, hrest, List.append_assoc, List.append_assoc, hsplit]
          simp
    | dropHandle =>
        exact ⟨hp.offset, fun h => (by cases h), hp.isPrefix, hp.log, fun h => (by cases h),
          fun _ h => (by cases h)⟩
    | dropHead =>
        exact ⟨hp.offset, hp.popped, hp.isPrefix, hp.log, hp.tracks, fun h => (by cases h)⟩
    | _ => exact hp.frame rfl rfl rfl rfl fun h => h

end PairReachable

/-! ### The end of the stream -/

/-- From a fair peer, an empty chunk means that its `FIN` has arrived, and
nothing comes after it; a read that reports the end has been preceded by all
the payload. -/
structure EofInv (p : StreamPair) : Prop where
  ends : Fair p.inputs → ∀ a b, p.down.log = a ++ [] :: b → b.flatten = []
  fin : Fair p.inputs → [] ∈ p.down.log → carried Flags.fin p.inputs = true
  eof : Fair p.inputs → p.eof = true →
    carried Flags.fin p.inputs = true ∧ p.handle.read = payloadOf p.inputs

namespace EofInv

variable {p q : StreamPair}

/-- Moves that have nothing to do with what was received. -/
theorem frame (h : EofInv p) (hlog : q.down.log = p.down.log) (hinputs : q.inputs = p.inputs)
    (heof : Fair p.inputs → q.eof = true →
      carried Flags.fin p.inputs = true ∧ q.handle.read = payloadOf p.inputs) : EofInv q := by
  refine ⟨?_, ?_, ?_⟩
  · rw [hlog, hinputs]
    exact h.ends
  · rw [hlog, hinputs]
    exact h.fin
  · rw [hinputs]
    exact heof

/-- An event arrives, and the chunk `chunk` goes down to the handle. -/
theorem send (h : EofInv p) {e : FrameStreamEvent} {chunk : Bytes}
    (hdown : q.down = YamuxStreamHead.sendDown p.down chunk) (hhandle : q.handle = p.handle)
    (heof : q.eof = p.eof) (hinputs : q.inputs = p.inputs ++ [e]) (hchunk : e.payload = chunk)
    (hend : Fair q.inputs → chunk = [] → e.carries Flags.fin = true) : EofInv q := by
  have hpay : payloadOf q.inputs = payloadOf p.inputs ++ chunk := by
    rw [hinputs, payloadOf_append, payloadOf_cons, hchunk, payloadOf_nil, List.append_nil]
  have hfair : Fair q.inputs → Fair p.inputs := fun hf => by
    rw [hinputs] at hf
    exact hf.left
  have hcarried : carried Flags.fin p.inputs = true → carried Flags.fin q.inputs = true :=
    fun hc => by rw [hinputs, carried_append, hc, Bool.true_or]
  -- after a `FIN` only empty chunks come
  have hafter : Fair q.inputs → carried Flags.fin p.inputs = true → chunk = [] := by
    intro hf hc
    have hfinal := hf.final
    rw [hinputs, final_append] at hfinal
    simpa [hchunk] using hfinal.2.2 hc
  have hlog := YamuxStreamHead.log_sendDown p.down chunk
  rw [← hdown] at hlog
  refine ⟨?_, ?_, ?_⟩
  · intro hf a b hab
    rcases hlog with hlog | hlog
    · exact h.ends (hfair hf) a b (hlog ▸ hab)
    · rw [hlog] at hab
      rcases List.append_eq_append_iff.mp hab with ⟨a', ha, hb⟩ | ⟨c', hp, hc⟩
      · -- the empty chunk is the new one
        have hlen := congrArg List.length hb
        simp only [List.length_append, List.length_cons, List.length_nil] at hlen
        obtain rfl : b = [] := List.length_eq_zero_iff.mp (by omega)
        rfl
      · cases c' with
        | nil =>
            obtain rfl : b = [] := (List.cons.inj hc).2
            rfl
        | cons x c' =>
            obtain ⟨rfl, rfl⟩ := List.cons.inj hc
            have hmem : [] ∈ p.down.log := by rw [hp]; simp
            have hnil := hafter hf (h.fin (hfair hf) hmem)
            show (c' ++ [chunk]).flatten = []
            rw [List.flatten_append, h.ends (hfair hf) a c' hp, hnil]
            rfl
  · intro hf hmem
    rcases hlog with hlog | hlog
    · exact hcarried (h.fin (hfair hf) (hlog ▸ hmem))
    · rw [hlog] at hmem
      rcases List.mem_append.mp hmem with hmem | hmem
      · exact hcarried (h.fin (hfair hf) hmem)
      · have hnil := (List.mem_singleton.mp hmem).symm
        rw [hinputs, carried_append, carried_cons, hend hf hnil, Bool.true_or, Bool.or_true]
  · intro hf he
    obtain ⟨hc, hread⟩ := h.eof (hfair hf) (heof ▸ he)
    refine ⟨hcarried hc, ?_⟩
    rw [hhandle, hread, hpay, hafter hf hc, List.append_nil]

/-- Flags arrive. -/
theorem flagged (h : EofInv p) {flags : Flags} {e : FrameStreamEvent}
    (he : e.flags = some flags) (hpayload : e.payload = [])
    (hdown : q.down = p.head.flaggedDown p.down flags) (hhandle : q.handle = p.handle)
    (heof : q.eof = p.eof) (hinputs : q.inputs = p.inputs ++ [e]) : EofInv q := by
  by_cases hend : p.head.endsRemote flags = true
  · rw [YamuxStreamHead.flaggedDown, if_pos hend] at hdown
    apply h.send hdown hhandle heof hinputs hpayload
    intro hf _
    -- a fair peer sends no `RST`, so it was `FIN`
    have hreset := hf.noReset
    rw [hinputs, carried_append, carried_cons, Bool.or_eq_false_iff, Bool.or_eq_false_iff] at hreset
    have hrst : flags.rst = false := by
      simpa [FrameStreamEvent.carries, he] using hreset.2.1
    simp only [YamuxStreamHead.endsRemote, hrst, Bool.false_or, Bool.and_eq_true] at hend
    simpa [FrameStreamEvent.carries, he] using hend.2
  · rw [YamuxStreamHead.flaggedDown, if_neg hend] at hdown
    have hpay : payloadOf q.inputs = payloadOf p.inputs := by simp [hinputs, hpayload]
    have hfair : Fair q.inputs → Fair p.inputs := fun hf => by
      rw [hinputs] at hf
      exact hf.left
    have hcarried : carried Flags.fin p.inputs = true → carried Flags.fin q.inputs = true :=
      fun hc => by rw [hinputs, carried_append, hc, Bool.true_or]
    refine ⟨?_, ?_, ?_⟩
    · rw [hdown]
      exact fun hf => h.ends (hfair hf)
    · rw [hdown]
      exact fun hf hmem => hcarried (h.fin (hfair hf) hmem)
    · rw [heof, hhandle, hpay]
      exact fun hf he => ⟨hcarried (h.eof (hfair hf) he).1, (h.eof (hfair hf) he).2⟩

/-- After the end has been reported, nothing is left to read. -/
theorem nothing_left (h : EofInv p) (hr : ReadInv p) (halive : p.handleAlive)
    (hf : Fair p.inputs) (he : p.eof = true) :
    p.handle.rest = [] ∧ p.down.queue.flatten = [] := by
  obtain ⟨popped, hlog, hpopped⟩ := hr.popped halive
  have hread := (h.eof hf he).2
  rw [← hr.tracks halive, hlog, List.flatten_append, hpopped, List.append_assoc] at hread
  exact List.append_eq_nil_iff.mp (List.self_eq_append_right.mp hread)

end EofInv

namespace PairReachable

variable {opened : Bool} {id : StreamID} {p : StreamPair}

theorem eofInv (h : PairReachable opened id p) : EofInv p := by
  refine h.invariant_with (fun _ => readInv) ?_ ?_
  · rintro p rfl
    refine ⟨?_, ?_, ?_⟩
    · intro _ a b hab
      have hnil : [] = a ++ [] :: b := by
        cases opened <;> exact hab
      simp at hnil
    · intro _ hmem
      cases opened <;> cases hmem
    · intro _ he
      cases opened <;> cases he
  · rintro p q hr hp hstep
    cases hstep with
    | header flags size => exact hp.flagged (e := .data flags size) rfl rfl rfl rfl rfl rfl
    | window flags delta =>
        exact hp.flagged (e := .windowUpdate flags delta) rfl rfl rfl rfl rfl rfl
    | chunk bytes =>
        refine hp.send (e := .dataChunk bytes) rfl rfl rfl rfl rfl ?_
        rintro hf rfl
        exact absurd (List.mem_append_right _ (List.mem_singleton.mpr rfl)) hf.nonempty
    | @readRest chunk offset bufLen halive hc =>
        obtain ⟨-, hsplit, hout, -⟩ := p.handle.readChunk_spec bufLen (hr.offset _ _ hc)
        refine hp.frame rfl rfl ?_
        intro hf he
        exfalso
        rcases Bool.or_eq_true _ _ ▸ he with he | he
        · -- what is left of the chunk would not be empty
          have hrest := (hp.nothing_left hr halive hf he).1
          rw [YamuxStream.rest, hc, List.drop_eq_nil_iff] at hrest
          exact absurd (hr.offset _ _ hc) (Nat.not_lt_of_le hrest)
        · obtain ⟨hnil, hbuf⟩ := Bool.and_eq_true _ _ ▸ he
          exact hout (of_decide_eq_true hbuf) (List.isEmpty_iff.mp hnil)
    | @readEnd rest bufLen halive hc hq =>
        refine hp.frame rfl rfl ?_
        intro hf he
        rcases Bool.or_eq_true _ _ ▸ he with he | -
        · exact hp.eof hf he
        · obtain ⟨popped, hlog, hpopped⟩ := hr.popped halive
          rw [hq] at hlog
          have hrest : p.handle.rest = [] := by rw [YamuxStream.rest, hc]
          have hread : p.handle.read = p.down.log.flatten := by
            rw [hlog, List.flatten_append, hpopped, hrest, List.append_nil, List.flatten_cons,
              hp.ends hf popped rest hlog, List.nil_append, List.append_nil]
          refine ⟨hp.fin hf ?_, ?_⟩
          · rw [hlog]
            simp
          · show p.handle.read = _
            rw [hread, hr.tracks halive]
    | @readNext chunk rest bufLen halive hc hq hne =>
        obtain ⟨-, -, hout, -⟩ := p.handle.readChunk_spec bufLen (List.length_pos_iff.mpr hne)
        refine hp.frame rfl rfl ?_
        intro hf he
        exfalso
        rcases Bool.or_eq_true _ _ ▸ he with he | he
        · -- the chunk would be empty
          have hqueue := (hp.nothing_left hr halive hf he).2
          rw [hq, List.flatten_cons, List.append_eq_nil_iff] at hqueue
          exact hne hqueue.1
        · obtain ⟨hnil, hbuf⟩ := Bool.and_eq_true _ _ ▸ he
          exact hout (of_decide_eq_true hbuf) (List.isEmpty_iff.mp hnil)
    | _ => exact hp.frame rfl rfl hp.eof

end PairReachable

end YamuxLowMem
