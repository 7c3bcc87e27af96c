/-
YamuxLowMem/Willing.lean

Calls of `poll_next` on an I/O object that takes whatever is written to it.

When such a call answers `Pending`, nothing is left to send: the queue is empty,
and so is the write buffer.  There is one thing to watch.  The flush at the end
takes place only if the call has sent a frame, and a call that hands out an
accepted stream ends before the flush.  So bytes can stay in the write buffer
from one call to the next; but then something follows them (`Followed`), for the
head of the accepted stream has its `ACK` to yield.
-/
import YamuxLowMem.Rest
import YamuxLowMem.StreamAccounts

namespace YamuxLowMem

open Async Relation

/-! ### Answers to writes -/

/-- Every write is taken. -/
def Willing (writes : List (Poll (Except IoError Nat))) : Prop :=
  ∀ answer ∈ writes, ∃ n, answer = .ready (.ok n)

/-- From `io` to `io'` answers to writes have been used up, and if the object is
willing and some are left, `P` holds. -/
structure Granted (io io' : Io) (P : Prop) : Prop where
  writes : io'.writes <:+ io.writes
  /-- if each takes one byte, as many have been taken as answers used up -/
  paid : (∀ answer ∈ io.writes, answer = .ready (.ok 1)) →
    io'.accepted.length + io'.writes.length = io.accepted.length + io.writes.length
  holds : Willing io.writes → io'.writes ≠ [] → P

namespace Granted

variable {io io₁ io₂ : Io} {P Q : Prop}

/-- No answer is used up. -/
theorem same (hwrites : io₁.writes = io.writes) (haccepted : io₁.accepted = io.accepted)
    (hP : P) : Granted io io₁ P :=
  ⟨hwrites ▸ List.suffix_rfl, fun _ => by rw [hwrites, haccepted], fun _ _ => hP⟩

theorem refl (hP : P) : Granted io io P := same rfl rfl hP

theorem imp (h : Granted io io₁ P) (himp : P → Q) : Granted io io₁ Q :=
  ⟨h.writes, h.paid, fun hio hleft => himp (h.holds hio hleft)⟩

/-- One after the other. -/
theorem trans (h : Granted io io₁ P) (h' : Granted io₁ io₂ Q) : Granted io io₂ (P ∧ Q) := by
  refine ⟨h'.writes.trans h.writes, fun hio => ?_, fun hio hleft => ?_⟩
  · exact (h'.paid fun a ha => hio a (h.writes.subset ha)).trans (h.paid hio)
  · have hleft₁ : io₁.writes ≠ [] := by
      intro hnil
      have hsuffix := h'.writes
      rw [hnil, List.suffix_nil] at hsuffix
      exact hleft hsuffix
    exact ⟨h.holds hio hleft₁, h'.holds (fun a ha => hio a (h.writes.subset ha)) hleft⟩

end Granted

theorem Io.pollWrite_granted (io : Io) {slice : Bytes} (hslice : slice ≠ []) :
    Granted io (io.pollWrite slice).2 (∃ n, (io.pollWrite slice).1 = .ready (.ok n)) := by
  refine ⟨(io.pollWrite_spec slice).writes, fun hio => ?_, fun hio hleft => ?_⟩
  · cases hwrites : io.writes with
    | nil => simp only [Io.pollWrite, hwrites]
    | cons answer rest =>
        obtain rfl := hio answer (by rw [hwrites]; exact List.mem_cons_self)
        have hlen : 0 < slice.length := List.length_pos_iff.mpr hslice
        simp only [Io.pollWrite, hwrites, List.length_append, List.length_take, List.length_cons]
        omega
  · cases hwrites : io.writes with
    | nil =>
        have hnil : (io.pollWrite slice).2.writes <:+ [] :=
          hwrites ▸ (io.pollWrite_spec slice).writes
        exact absurd (List.suffix_nil.mp hnil) hleft
    | cons answer rest =>
        obtain ⟨n, rfl⟩ := hio answer (by rw [hwrites]; exact List.mem_cons_self)
        refine ⟨min n slice.length, ?_⟩
        simp only [Io.pollWrite, hwrites]

namespace YamuxTransport

variable {t t' : YamuxTransport}

theorem pollWriteLoop_granted {fuel : Nat} {io io' : Io} {w w' : ChainedChunkBufferWriter}
    {result : Poll (Except YamuxTransportError Unit)} (hw : w.Wf)
    (h : pollWriteLoop fuel io w = some (result, io', w')) :
    Granted io io' (result = .ready (.ok ())) := by
  induction fuel generalizing io w with
  | zero => cases h
  | succ fuel ih =>
      rcases ChainedChunkBufferWriter.frontSlice_of_wf hw with
        ⟨hfront, -⟩ | ⟨slice, rest, hfront, hne, -, hconsume⟩
      · simp only [pollWriteLoop, hfront, Option.bind_eq_bind, Option.bind_some] at h
        cases h
        exact .refl rfl
      · have hoffer := io.pollWrite_granted hne
        have htaken := (io.pollWrite_spec slice).taken
        simp only [pollWriteLoop, hfront, Option.bind_eq_bind, Option.bind_some] at h
        rcases hanswer : io.pollWrite slice with ⟨- | e | n, io₁⟩
        · rw [hanswer] at h hoffer
          cases h
          refine hoffer.imp ?_
          rintro ⟨n, hn⟩
          cases hn
        · rw [hanswer] at h hoffer
          cases h
          refine hoffer.imp ?_
          rintro ⟨n, hn⟩
          cases hn
        · rw [hanswer] at h hoffer htaken
          obtain ⟨w₁, hcons, hw₁, -⟩ := hconsume n (htaken n rfl).1
          simp only [hcons, Option.bind_some] at h
          exact (hoffer.trans (ih hw₁ h)).imp And.right

theorem pollWrite_granted {result : Poll (Except YamuxTransportError Unit)}
    (hw : t.writer.buffer.Wf) (h : t.pollWrite = some (result, t')) :
    Granted t.stream t'.stream (result = .ready (.ok ())) := by
  obtain ⟨⟨result, io, w⟩, hloop, h⟩ := Option.bind_eq_some_iff.mp h
  cases h
  exact pollWriteLoop_granted hw hloop

theorem pollReady_granted {ready : Poll (Except YamuxTransportError Unit)}
    (hw : t.writer.buffer.Wf) (h : t.pollReady = some (ready, t')) :
    Granted t.stream t'.stream (ready.isReady = true) := by
  obtain ⟨⟨result, t₁⟩, hwrite, h⟩ := Option.bind_eq_some_iff.mp h
  have hgranted := pollWrite_granted hw hwrite
  cases result with
  | ready result =>
      cases h
      exact hgranted.imp fun _ => rfl
  | pending =>
      simp only at h
      split at h <;> cases h <;> exact hgranted.imp fun hready => by cases hready

end YamuxTransport

namespace YamuxSession

variable {s s' : YamuxSession} {sent sent' : Bool} {order : List StreamID}

/-- The send loop leaves nothing queued. -/
theorem sendLoop_granted {t t' : YamuxTransport} {queue rest : List Frame}
    (hw : t.writer.buffer.Wf) (h : sendLoop t sent queue = some (t', rest, sent')) :
    Granted t.stream t'.stream (rest = []) := by
  induction queue generalizing t sent with
  | nil =>
      cases h
      exact .refl rfl
  | cons out queue ih =>
      obtain ⟨⟨ready, t₁⟩, hready, h⟩ := Option.bind_eq_some_iff.mp h
      have hgranted := YamuxTransport.pollReady_granted hw hready
      obtain ⟨_, _, _, hready', hflush, -⟩ := YamuxTransport.pollReady_spec hw
      cases hready.symm.trans hready'
      simp only at h
      split at h
      · obtain ⟨t₂, hsend, h⟩ := Option.bind_eq_some_iff.mp h
        obtain ⟨_, hsend', hw₂, -, heq⟩ := YamuxTransport.startSend_spec hflush.wf out
        cases hsend.symm.trans hsend'
        have hstream : t₂.stream = t₁.stream := by rw [heq]
        have hrest := ih hw₂ h
        rw [hstream] at hrest
        exact (hgranted.trans hrest).imp And.right
      · rename_i hrefused
        cases h
        exact hgranted.imp fun hready => absurd hready hrefused

theorem trySend_granted (hw : s.Wf) (h : s.trySend sent = some (s', sent')) :
    Granted s.transport.stream s'.transport.stream (s'.outQueue = []) := by
  obtain ⟨⟨t, rest, sent₁⟩, hloop, h⟩ := Option.bind_eq_some_iff.mp h
  cases h
  exact sendLoop_granted hw.writer hloop

/-- The flush leaves nothing in the write buffer; without it the call changes
nothing. -/
theorem flushSent_granted {answer : Poll (Option YamuxStream)} (hw : s.Wf)
    (h : s.flushSent sent = some (answer, s')) :
    Granted s.transport.stream s'.transport.stream
      (s'.outQueue = s.outQueue ∧ (s'.transport.buffered = [] ∨ sent = false ∧ s' = s)) := by
  cases sent with
  | false =>
      cases h
      exact .refl ⟨rfl, Or.inr ⟨rfl, rfl⟩⟩
  | true =>
      obtain ⟨result, t, hwrite, hflush, hsent⟩ := flushSent_spec hw
      have hgranted := YamuxTransport.pollWrite_granted hw.writer hwrite
      rw [hsent] at h
      rcases result with - | e | u
      · cases h
        exact hgranted.imp fun hresult => by cases hresult
      · cases h
        exact hgranted.imp fun hresult => by cases hresult
      · cases h
        exact hgranted.imp fun hresult => ⟨rfl, Or.inl (hflush.flushed.done hresult)⟩

/-- A call in which the heads are drained leaves nothing queued. -/
theorem drained_granted {t t' : YamuxTransport} {done rest done' rest' : List Frame}
    {s₂ : YamuxSession} {answer : Poll (Option YamuxStream)} {sent₁ sent₂ : Bool} (hw : s.Wf)
    (hsend : Sending s sent t done rest)
    (hread : Reading { s with transport := t, outQueue := rest } none s₂)
    (hsend' : Sending (s₂.drainAll order) sent₁ t' done' rest')
    (hflush : flushSent { s₂.drainAll order with transport := t', outQueue := rest' } sent₂ =
      some (answer, s')) :
    Granted s.transport.stream s'.transport.stream (rest = [] ∧ rest' = [] ∧
      s'.outQueue = rest' ∧ (s'.transport.buffered = [] ∨ sent₂ = false ∧
        s' = { s₂.drainAll order with transport := t', outQueue := rest' })) := by
  have hw₂ := PollStep.steps_wf (s₂.drainAll_steps order) hread.wf
  obtain ⟨htransport, -⟩ := s₂.drainAll_frame order
  -- reading and draining leave the writing side alone
  have hsame : Granted t.stream (s₂.drainAll order).transport.stream True := by
    rw [htransport]
    exact .same hread.inbound.writes hread.inbound.accepted trivial
  have hfirst := (trySend_granted hw hsend.send).trans hsame
  have hsecond := hfirst.trans (trySend_granted hw₂ hsend'.send)
  have hall := hsecond.trans (flushSent_granted hsend'.wf hflush)
  exact hall.imp fun ⟨⟨⟨hrest, _⟩, hrest'⟩, hqueue, hbuffered⟩ =>
    ⟨hrest, hrest', hqueue, hbuffered⟩

/-- If each answer takes one byte, a call uses up as many as bytes are taken. -/
theorem pollNext_paid {answer : Poll (Option YamuxStream)} (hw : s.Wf)
    (hopen : s.manualClose = false)
    (hio : ∀ answer ∈ s.transport.stream.writes, answer = .ready (.ok 1))
    (hpoll : s.pollNext order = some (answer, s')) :
    s'.transport.stream.accepted.length + s'.transport.stream.writes.length =
      s.transport.stream.accepted.length + s.transport.stream.writes.length := by
  cases s.course hw order with
  | closing _ hclose _ =>
      rw [hopen] at hclose
      cases hclose
  | answered hsend _ hread hanswer =>
      obtain ⟨rfl, rfl⟩ := Prod.mk.inj (Option.some.inj (hanswer.symm.trans hpoll))
      rw [hread.inbound.writes, hread.inbound.accepted]
      exact (trySend_granted hw hsend.send).paid hio
  | drained hsend _ hread hsend' hflush =>
      exact (drained_granted hw hsend hread hsend' (hflush.symm.trans hpoll)).paid hio

end YamuxSession

/-! ### What follows -/

/-- Taking in an event only adds to what a head has to yield. -/
theorem StreamPair.onInput_outs (p : StreamPair) (event : FrameStreamEvent) :
    p.head.outs <+: (p.onInput event).2.head.outs := by
  cases event with
  | data flags size =>
      simp only [onInput, YamuxStreamHead.onInput, YamuxStreamHead.handleFlag_eq]
      split
      · exact List.prefix_rfl
      · exact List.prefix_append _ _
  | dataChunk chunk =>
      simp only [onInput, YamuxStreamHead.onInput]
      split
      · split
        · exact List.prefix_rfl
        · rw [YamuxStreamHead.markReceivedBytes_eq]
          exact List.prefix_append _ _
      · exact List.prefix_rfl
  | windowUpdate flags delta =>
      simp only [onInput, YamuxStreamHead.onInput, YamuxStreamHead.handleFlag_eq]
      exact List.prefix_append _ _

theorem StreamPair.onInput_outs_ne_nil {p : StreamPair} (event : FrameStreamEvent)
    (h : p.head.outs ≠ []) : (p.onInput event).2.head.outs ≠ [] := by
  intro hnil
  have hprefix := p.onInput_outs event
  rw [hnil, List.prefix_nil] at hprefix
  exact h hprefix

/-- Some head has something to yield. -/
def YamuxSession.HasOuts (s : YamuxSession) : Prop :=
  ∃ id p, s.streams.lookup id = some p ∧ p.head.outs ≠ []

/-- Bytes that are left in the write buffer will be followed by others. -/
def YamuxSession.Followed (s : YamuxSession) : Prop :=
  s.transport.buffered = [] ∨ s.outQueue ≠ [] ∨ s.HasOuts

section Following

variable {s s' : YamuxSession} {order : List StreamID}

namespace YamuxSession

theorem HasOuts.congr (h : s.HasOuts) (hstreams : s'.streams = s.streams) : s'.HasOuts := by
  obtain ⟨id, p, hp, houts⟩ := h
  exact ⟨id, p, hstreams ▸ hp, houts⟩

theorem HasOuts.dispatch {frame : Frame} (h : s.HasOuts) (hframe : Dispatch s frame s') :
    s'.HasOuts := by
  cases hframe with
  | ping | quiet | unknown => exact h.congr rfl
  | @input id p event hp =>
      obtain ⟨id', q, hq, houts⟩ := h
      apply HasOuts.congr (s := s.setStream id (p.onInput event).2) _ (logError_streams _ _)
      by_cases hid : id' = id
      · subst hid
        obtain rfl := Option.some.inj (hq.symm.trans hp)
        exact ⟨id', _, Finmap.lookup_insert _, StreamPair.onInput_outs_ne_nil event houts⟩
      · exact ⟨id', q, (Finmap.lookup_insert_of_ne _ hid).trans hq, houts⟩
  | @accept id event flags hnone =>
      obtain ⟨id', q, hq, houts⟩ := h
      apply HasOuts.congr
        (s := s.insertStream id ((StreamPair.acceptStream id).onInput event).2) _
        (logError_streams _ _)
      refine ⟨id', q, (Finmap.lookup_insert_of_ne _ ?_).trans hq, houts⟩
      rintro rfl
      rw [hnone] at hq
      cases hq

theorem HasOuts.turn (h : s.HasOuts) (hturn : InboundTurn s s') : s'.HasOuts := by
  cases hturn with
  | @frame t f _ _ hframe =>
      have hdispatch := onFrame_dispatch { s with transport := t } f
      rw [hframe] at hdispatch
      have ht : HasOuts { s with transport := t } := h
      exact ht.dispatch hdispatch

theorem HasOuts.turns (h : s.HasOuts) (hturns : ReflTransGen InboundTurn s s') : s'.HasOuts := by
  induction hturns with
  | refl => exact h
  | tail _ hlast ih => exact ih.turn hlast

/-- A stream that has just been accepted has its `ACK` to yield. -/
theorem onFrame_accepts {frame : Frame} {handle : YamuxStream}
    (h : s.onFrame frame = (some (.ready (some handle)), s')) : s'.HasOuts := by
  match frame with
  | .session (.goAway code) => cases h
  | .session (.ping flags code) =>
      rw [onFrame] at h
      split at h <;> cases h
  | .stream id event =>
      rw [onFrame] at h
      split at h
      · cases h
      · split at h
        · split at h
          · cases h
            apply HasOuts.congr _ (logError_streams _ _)
            refine ⟨id, _, Finmap.lookup_insert _, StreamPair.onInput_outs_ne_nil event ?_⟩
            exact List.cons_ne_nil _ _
          · cases h
        · cases h

/-- What a head has to yield gets into the queue. -/
theorem HasOuts.drainAll (h : s.HasOuts) (horder : IsOrder s order) :
    (s.drainAll order).outQueue ≠ [] := by
  obtain ⟨id, p, hp, houts⟩ := h
  obtain ⟨-, hqueue, -⟩ := drainAll_spec horder
  have hmem : id ∈ order := by
    rw [← List.mem_toFinset, horder.2, Finmap.mem_keys]
    exact mem_of_lookup hp
  have hblock : s.block id ≠ [] := by
    rw [block, hp]
    obtain ⟨out, outs, hcons⟩ := List.exists_cons_of_ne_nil houts
    have hpoll : ∃ q, p.pollNext = (.ready (some out), q) := by
      simp only [StreamPair.pollNext, YamuxStreamHead.pollNext, hcons]
      exact ⟨_, rfl⟩
    obtain ⟨q, hq⟩ := hpoll
    simp [drainWork, drainHead, hq]
  rw [hqueue]
  apply List.append_ne_nil_of_right_ne_nil
  intro hnil
  exact hblock (List.flatMap_eq_nil_iff.mp hnil id hmem)

theorem HasOuts.inboundLoop {fuel : Nat} (h : s.HasOuts)
    (hloop : s.inboundLoop fuel = some (none, s')) : s'.HasOuts := by
  obtain ⟨s₁, hturns, hend⟩ := inboundLoop_turns hloop
  cases hend with
  | dry => exact (h.turns hturns).congr rfl

/-- The loop has received the frame with the `SYN`. -/
theorem inboundLoop_accepts {fuel : Nat} {handle : YamuxStream} (hw : s.Wf)
    (h : s.inboundLoop fuel = some (some (.ready (some handle)), s')) :
    s'.HasOuts ∧ s.transport.received.length < s'.transport.received.length := by
  obtain ⟨s₁, hturns, hend⟩ := inboundLoop_turns h
  obtain ⟨hw₁, hgrown⟩ := InboundTurn.induct
    (P := fun a => s.transport.received.length ≤ a.transport.received.length) hturns hw
    (Nat.le_refl _) fun a b hwa hturn hgrown => by
      obtain ⟨f, t, pushed, hreceive, rfl⟩ := hturn.receive hwa
      rw [deliver_transport, hreceive.received, List.length_append]
      exact Nat.le_add_right_of_le hgrown
  cases hend with
  | @frame t f _ _ hnext hframe =>
      refine ⟨onFrame_accepts hframe, Nat.lt_of_le_of_lt hgrown ?_⟩
      obtain ⟨event, t', pushed, hnext', hreceive⟩ := YamuxTransport.pollNext_spec hw₁.reader
      cases hnext.symm.trans hnext'
      have htransport := onFrame_transport (s := { s₁ with transport := t }) f
      rw [hframe] at htransport
      rw [htransport, hreceive.received, List.length_append]
      exact Nat.lt_succ_self _

/-- A send loop with nothing to send leaves the write buffer as it is. -/
theorem Sending.buffered {t : YamuxTransport} {sent : Bool} {done rest : List Frame}
    (h : Sending s sent t done rest) (hqueue : s.outQueue = []) :
    t.buffered = s.transport.buffered := by
  obtain ⟨hdone, hrest⟩ := List.append_eq_nil_iff.mp (h.split.symm.trans hqueue)
  rw [h.run.idle hdone hrest]

/-- A call that answers `Pending` on a willing I/O object leaves nothing to send. -/
theorem pollNext_willing (hw : s.Wf) (hopen : s.manualClose = false) (horder : IsOrder s order)
    (hfollowed : s.Followed) (hio : Willing s.transport.stream.writes)
    (hpoll : s.pollNext order = some (.pending, s'))
    (hleft : s'.transport.stream.writes ≠ []) : s'.AtRest ∧ s'.transport.buffered = [] := by
  obtain ⟨-, -, hstarved, hidle⟩ := pollNext_pending hw hopen horder hpoll
  cases s.course hw order with
  | closing _ hclose _ =>
      rw [hopen] at hclose
      cases hclose
  | answered _ _ hread hanswer =>
      obtain ⟨rfl, -⟩ := Prod.mk.inj (Option.some.inj (hanswer.symm.trans hpoll))
      exact absurd rfl hread.ready
  | @drained t t' done rest done' rest' s₂ hsend _ hread hsend' hflush =>
      have hflush := hflush.symm.trans hpoll
      obtain ⟨htransport, -⟩ := s₂.drainAll_frame order
      have hin := hread.inbound
      have hall := drained_granted hw hsend hread hsend' hflush
      obtain ⟨hrest, hrest', hqueue, hbuffered⟩ := hall.holds hio hleft
      refine ⟨⟨hqueue.trans hrest', hstarved, hidle⟩, ?_⟩
      rcases hbuffered with hnone | ⟨hsent, rfl⟩
      · exact hnone
      · -- nothing has been sent, so there was nothing to follow either
        obtain ⟨rfl, rfl⟩ : done = [] ∧ done' = [] := by simpa using hsent
        have hnothing : s.outQueue = [] := by rw [hsend.split, List.nil_append]; exact hrest
        have hnothing' : (s₂.drainAll order).outQueue = [] := by
          rw [hsend'.split, List.nil_append]
          exact hrest'
        have hsame : t'.buffered = s.transport.buffered := by
          rw [hsend'.buffered hnothing', htransport, YamuxTransport.buffered, hin.writer]
          exact hsend.buffered hnothing
        rcases hfollowed with hnone | hqueued | houts
        · exact hsame.trans hnone
        · exact absurd hnothing hqueued
        · obtain ⟨-, -, hkeys⟩ := inboundLoop_exhausts hsend.wf hread.loop
          have hsending : HasOuts { s with transport := t, outQueue := rest } := houts
          exact absurd hnothing' ((hsending.inboundLoop hread.loop).drainAll
            (horder.of_mem_iff hkeys))

/-- A call that hands out a stream has received the frame that opened it, and the
stream has its `ACK` to yield. -/
theorem pollNext_accepts {handle : YamuxStream} (hw : s.Wf) (hopen : s.manualClose = false)
    (hpoll : s.pollNext order = some (.ready (some handle), s')) :
    s'.HasOuts ∧ s.transport.received.length < s'.transport.received.length := by
  cases s.course hw order with
  | closing _ hclose _ =>
      rw [hopen] at hclose
      cases hclose
  | answered hsend _ hread hanswer =>
      obtain ⟨rfl, rfl⟩ := Prod.mk.inj (Option.some.inj (hanswer.symm.trans hpoll))
      obtain ⟨houts, hgrown⟩ := inboundLoop_accepts hsend.wf hread.loop
      refine ⟨houts, ?_⟩
      rw [← hsend.run.received]
      exact hgrown
  | drained _ _ _ _ hflush =>
      -- the flush at the end hands out nothing
      cases flushSent_handles (hflush.symm.trans hpoll)

end YamuxSession

end Following

/-! ### Reads -/

/-- Every read hands over something, and no more than fits the buffer. -/
def Forthcoming (reads : List (Poll (Except IoError Bytes))) : Prop :=
  ∀ answer ∈ reads, ∃ bs, answer = .ready (.ok bs) ∧ bs ≠ [] ∧ bs.length ≤ readBufferLen

section Reads

variable {s s' : YamuxSession} {reads : List (Poll (Except IoError Bytes))}

/-- What has been handed over, and what can still be. -/
def YamuxSession.input (s : YamuxSession) : Bytes :=
  s.transport.stream.delivered ++ readable s.transport.stream.reads

theorem PollStep.input (h : PollStep s s') (hreads : Forthcoming s.transport.stream.reads) :
    s'.input = s.input ∧ s'.transport.stream.reads <:+ s.transport.stream.reads := by
  have hsame : s'.transport.stream.delivered = s.transport.stream.delivered →
      s'.transport.stream.reads = s.transport.stream.reads →
      s'.input = s.input ∧ s'.transport.stream.reads <:+ s.transport.stream.reads := by
    intro hdelivered hrest
    refine ⟨?_, hrest ▸ List.suffix_rfl⟩
    rw [YamuxSession.input, hdelivered, hrest, YamuxSession.input]
  cases h with
  | flush hflush => exact hsame hflush.flushed.delivered hflush.flushed.reads
  | send hq hsend =>
      obtain ⟨b, rfl⟩ := YamuxTransport.startSend_eq hsend
      exact hsame rfl rfl
  | closeIo =>
      apply hsame <;> simp only [Io.pollClose] <;> split <;> rfl
  | receive hreceive =>
      rw [YamuxSession.input, YamuxSession.deliver_transport]
      refine ⟨?_, hreceive.suffix⟩
      have hpipe := hreceive.pipe fun bs hbs => by
        obtain ⟨bs', heq, -, hsmall⟩ := hreads _ hbs
        cases heq
        exact hsmall
      rw [hreceive.delivered, List.append_assoc, hpipe, YamuxSession.input]
  | drain | remove => exact hsame rfl rfl

theorem PollStep.steps_input (h : ReflTransGen PollStep s s')
    (hreads : Forthcoming s.transport.stream.reads) :
    s'.input = s.input ∧ s'.transport.stream.reads <:+ s.transport.stream.reads := by
  induction h with
  | refl => exact ⟨rfl, List.suffix_rfl⟩
  | tail _ hstep ih =>
      obtain ⟨hinput, hsuffix⟩ := ih
      obtain ⟨hinput', hsuffix'⟩ := hstep.input fun a ha => hreads a (hsuffix.subset ha)
      exact ⟨hinput'.trans hinput, hsuffix'.trans hsuffix⟩

/-- A call that has read until nothing came has been handed over everything. -/
theorem ReadDry.eq_nil {rest : List (Poll (Except IoError Bytes))} (h : ReadDry reads rest)
    (hreads : Forthcoming reads) : rest = [] := by
  rcases h with ⟨used, rfl, -⟩ | ⟨-, rfl⟩
  · obtain ⟨bs, hbs, -⟩ := hreads .pending (by simp)
    cases hbs
  · rfl

end Reads

end YamuxLowMem
