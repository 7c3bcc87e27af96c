/-
YamuxLowMem/Upcoming.lean

What a call of `poll_next` brings up, told from the state before it.

What arrives in a call is settled by what the reader holds and what can be
read, and ends the call or not.  If it does not, the session answers the pings
among it, hands each head what is for its stream, and polls each head until
it is pending.  None of this depends on what the I/O object takes.
-/
import YamuxLowMem.Backpressure
import YamuxLowMem.InboundTurns
import YamuxLowMem.StreamIds

namespace YamuxLowMem

open Async Relation

/-! ### What arrives -/

namespace YamuxTransport

/-- The frames that can be read before the I/O object is pending, unless the
connection ends or fails before. -/
def arrivals : Nat → YamuxTransport → Option (List Frame)
  | 0, _ => none
  | fuel + 1, t =>
      match t.pollNext with
      | some (.pending, _) => some []
      | some (.ready (some (.ok frame)), t) => (arrivals fuel t).map (frame :: ·)
      | _ => none

/-- The write side has nothing to do with it. -/
theorem arrivals_inner (fuel : Nat) (t : YamuxTransport) :
    t.inner.arrivals fuel = t.arrivals fuel := by
  induction fuel generalizing t with
  | zero => rfl
  | succ fuel ih =>
      rw [arrivals, arrivals, pollNext_inner]
      rcases t.pollNext with - | ⟨- | - | e | frame, t'⟩
      · rfl
      · rfl
      · rfl
      · rfl
      · exact congrArg (Option.map (frame :: ·)) (ih t')

end YamuxTransport

namespace YamuxSession

/-- A frame that makes `poll_next` return. -/
def endsCall (s : YamuxSession) : Frame → Bool
  | .session (.goAway _) => true
  | .session (.ping _ _) => false
  | .stream id event => (s.streams.lookup id).isNone && event.carries Flags.syn

/-- The frames that arrive in a call that goes on to the heads; there are none
if a frame makes it return, or the connection ends or fails. -/
def arriving (s : YamuxSession) : Option (List Frame) :=
  (s.transport.arrivals (s.inboundWork + 1)).filter fun fs => !fs.any s.endsCall

variable {s s' : YamuxSession}

theorem onFrame_isSome (s : YamuxSession) (frame : Frame) :
    (s.onFrame frame).1.isSome = s.endsCall frame := by
  match frame with
  | .session (.goAway code) => rfl
  | .session (.ping flags code) =>
      simp only [onFrame]
      split <;> rfl
  | .stream id event =>
      simp only [onFrame, endsCall]
      cases s.streams.lookup id with
      | some p => rfl
      | none =>
          cases hflags : event.flags with
          | none => simp [FrameStreamEvent.carries, hflags]
          | some flags =>
              cases hsyn : flags.syn <;> simp [FrameStreamEvent.carries, hflags, hsyn]

end YamuxSession

/-! ### What the heads make of it -/

/-- The stream after its head has taken in what has arrived for it. -/
def StreamPair.takeIn (p : StreamPair) (events : List FrameStreamEvent) : StreamPair :=
  events.foldl (fun p e => (p.onInput e).2) p

namespace YamuxSession

/-- The stream once its head has taken in what is for it in the frames `fs`. -/
def informed (s : YamuxSession) (fs : List Frame) (id : StreamID) : Option StreamPair :=
  (s.streams.lookup id).map (·.takeIn (eventsOn id fs))

/-- What the head of a stream then brings up. -/
def brings (s : YamuxSession) (fs : List Frame) (id : StreamID) : List Frame :=
  (s.informed fs id).elim [] fun p => (drainHead (drainWork p) p).1.map (Frame.stream id)

/-- Does the head then report the end of the stream? -/
def reportsEnd (s : YamuxSession) (fs : List Frame) (id : StreamID) : Bool :=
  (s.informed fs id).elim false fun p => (drainHead (drainWork p) p).2.1

/-- The frames that come up for sending when `fs` have arrived, and the streams
come in this order. -/
def upcoming (s : YamuxSession) (fs : List Frame) (order : List StreamID) : List Frame :=
  fs.flatMap (fun f => f.pongs.map Frame.session) ++ order.flatMap (s.brings fs)

/-- The frames `fs` have been taken in. -/
structure TakenIn (s : YamuxSession) (fs : List Frame) (s' : YamuxSession) : Prop where
  outQueue : s'.outQueue = s.outQueue ++ fs.flatMap fun f => f.pongs.map Frame.session
  lookup : ∀ id, s'.streams.lookup id = s.informed fs id

variable {s s' : YamuxSession}

theorem TakenIn.refl (s : YamuxSession) : TakenIn s [] s :=
  ⟨(List.append_nil _).symm, fun id => (congrFun Option.map_id (s.streams.lookup id)).symm⟩

theorem TakenIn.trans {s₁ : YamuxSession} {fs fs' : List Frame} (h : TakenIn s fs s₁)
    (h' : TakenIn s₁ fs' s') : TakenIn s (fs ++ fs') s' := by
  refine ⟨?_, fun id => ?_⟩
  · rw [h'.outQueue, h.outQueue, List.flatMap_append, List.append_assoc]
  · rw [h'.lookup, informed, h.lookup, informed, informed, Option.map_map, eventsOn_append]
    refine congrArg (Option.map · _) (funext fun p => ?_)
    exact (List.foldl_append ..).symm

/-- Taking frames in registers no stream and forgets none. -/
theorem TakenIn.endsCall {fs : List Frame} (h : TakenIn s fs s') : s'.endsCall = s.endsCall := by
  funext f
  match f with
  | .session (.goAway code) => rfl
  | .session (.ping flags code) => rfl
  | .stream id event =>
      rw [YamuxSession.endsCall, YamuxSession.endsCall, h.lookup, informed, Option.isNone_map]

theorem TakenIn.unchanged {frame : Frame} (hpongs : frame.pongs = [])
    (hevents : ∀ id, id ∈ s.streams → eventsOn id [frame] = []) : TakenIn s [frame] s := by
  refine ⟨?_, fun id => ?_⟩
  · rw [List.flatMap_singleton, hpongs]
    exact (List.append_nil _).symm
  · rw [informed]
    cases hp : s.streams.lookup id with
    | none => rfl
    | some p =>
        rw [Option.map_some, hevents id (mem_of_lookup hp)]
        rfl

/-- A frame that lets the call go on is taken in. -/
theorem onFrame_takenIn {frame : Frame} (h : s.endsCall frame = false) :
    TakenIn s [frame] (s.onFrame frame).2 := by
  match frame with
  | .session (.goAway code) => cases h
  | .session (.ping flags code) =>
      cases hsyn : flags.syn with
      | false =>
          simp only [onFrame, hsyn, Bool.false_eq_true, if_false]
          exact .unchanged (by simp [Frame.pongs, hsyn]) fun id _ => rfl
      | true =>
          simp only [onFrame, hsyn, if_true]
          refine ⟨by simp [Frame.pongs, hsyn], fun id => ?_⟩
          exact (congrFun Option.map_id (s.streams.lookup id)).symm
  | .stream id event =>
      have hother : ∀ id', id' ≠ id → eventsOn id' [.stream id event] = [] := fun id' hne =>
        eventsOn_ne id' [] (Ne.symm hne) event
      simp only [onFrame]
      cases hp : s.streams.lookup id with
      | some p =>
          refine ⟨?_, fun id' => ?_⟩
          · show ((s.setStream id (p.onInput event).2).logError id (p.onInput event).1).outQueue = _
            cases (p.onInput event).1 <;> exact (List.append_nil _).symm
          · show ((s.setStream id (p.onInput event).2).logError id
              (p.onInput event).1).streams.lookup id' = _
            rw [logError_streams, informed]
            by_cases hid : id' = id
            · subst hid
              rw [setStream, Finmap.lookup_insert, hp, eventsOn_self]
              rfl
            · rw [setStream, Finmap.lookup_insert_of_ne _ hid, hother id' hid]
              exact (congrFun Option.map_id (s.streams.lookup id')).symm
      | none =>
          rw [endsCall, hp] at h
          have hnot : event.carries Flags.syn = false := h
          have hsame : TakenIn s [.stream id event] s := by
            refine .unchanged rfl fun id' hid' => hother id' ?_
            rintro rfl
            exact Finmap.lookup_eq_none.mp hp hid'
          cases hflags : event.flags with
          | none => exact hsame
          | some flags =>
              have hsyn : flags.syn = false := by
                rwa [FrameStreamEvent.carries, hflags] at hnot
              simp only [hsyn, Bool.false_eq_true, if_false]
              exact hsame

/-- The loop over inbound frames goes on to the heads exactly when nothing that
arrives makes the call return; then all of it has been taken in. -/
theorem inboundLoop_arrivals {fuel : Nat} {answer : Option (Poll (Option YamuxStream))}
    (h : s.inboundLoop fuel = some (answer, s')) :
    match answer with
    | none => ∃ fs, s.transport.arrivals fuel = some fs ∧ (∀ f ∈ fs, s.endsCall f = false) ∧
        TakenIn s fs s'
    | some _ => ∀ fs, s.transport.arrivals fuel = some fs → ∃ f ∈ fs, s.endsCall f = true := by
  induction fuel generalizing s with
  | zero => cases h
  | succ fuel ih =>
      obtain ⟨⟨event, t⟩, hnext, h⟩ := Option.bind_eq_some_iff.mp h
      rcases event with - | - | e | f
      · cases h
        have hrefl := TakenIn.refl s
        refine ⟨[], ?_, fun f hf => (by cases hf), hrefl.outQueue, hrefl.lookup⟩
        rw [YamuxTransport.arrivals, hnext]
      · cases h
        intro fs hfs
        rw [YamuxTransport.arrivals, hnext] at hfs
        cases hfs
      · cases h
        intro fs hfs
        rw [YamuxTransport.arrivals, hnext] at hfs
        cases hfs
      · simp only at h
        have harrivals : s.transport.arrivals (fuel + 1) = (t.arrivals fuel).map (f :: ·) := by
          rw [YamuxTransport.arrivals, hnext]
        have hsome := onFrame_isSome { s with transport := t } f
        cases hframe : YamuxSession.onFrame { s with transport := t } f with
        | mk answer₁ s₁ =>
            rw [hframe] at h hsome
            cases answer₁ with
            | some answer₁ =>
                cases h
                intro fs hfs
                rw [harrivals] at hfs
                obtain ⟨rest, -, rfl⟩ := Option.map_eq_some_iff.mp hfs
                exact ⟨f, List.mem_cons_self, hsome.symm⟩
            | none =>
                have htaken := onFrame_takenIn (s := { s with transport := t }) hsome.symm
                rw [hframe] at htaken
                have hfirst : TakenIn s [f] s₁ := ⟨htaken.outQueue, htaken.lookup⟩
                have htransport : s₁.transport = t := by
                  have hsame := onFrame_transport (s := { s with transport := t }) f
                  rw [hframe] at hsame
                  exact hsame
                have hends := hfirst.endsCall
                have hrest := ih h
                rw [htransport] at hrest
                cases answer with
                | none =>
                    obtain ⟨fs, hfs, hquiet, htaken'⟩ := hrest
                    refine ⟨f :: fs, by rw [harrivals, hfs]; rfl, ?_, ?_⟩
                    · intro f' hf'
                      rcases List.mem_cons.mp hf' with rfl | hf'
                      · exact hsome.symm
                      · rw [← hends]
                        exact hquiet f' hf'
                    · exact hfirst.trans htaken'
                | some answer =>
                    intro fs hfs
                    rw [harrivals] at hfs
                    obtain ⟨rest, hrest', rfl⟩ := Option.map_eq_some_iff.mp hfs
                    obtain ⟨f', hf', hend⟩ := hrest rest hrest'
                    exact ⟨f', List.mem_cons_of_mem _ hf', hends ▸ hend⟩

/-! ### The parts of a call -/

section Call

variable {t : YamuxTransport} {done rest : List Frame} {s₂ : YamuxSession}
  {order : List StreamID}

/-- What arrives does not depend on what has been sent first. -/
theorem Sending.arriving {sent : Bool} (h : Sending s sent t done rest) :
    YamuxSession.arriving { s with transport := t, outQueue := rest } = s.arriving := by
  have htransport : t.inner = s.transport.inner := congrArg YamuxSession.transport h.inner
  have hwork : inboundWork { s with transport := t, outQueue := rest } = s.inboundWork := by
    rw [inboundWork, inboundWork]
    show 2 * (t.reader.buffer.len + _) + _ = _
    rw [h.run.reader, h.run.reads]
  have harrivals : ∀ fuel, t.arrivals fuel = s.transport.arrivals fuel := by
    intro fuel
    rw [← t.arrivals_inner, htransport, s.transport.arrivals_inner]
  rw [YamuxSession.arriving, YamuxSession.arriving, hwork, harrivals]
  rfl

/-- A call that returns on what arrives. -/
theorem Sending.arriving_none (hsend : Sending s false t done rest)
    {answer : Poll (Option YamuxStream)}
    (hread : Reading { s with transport := t, outQueue := rest } (some answer) s₂) :
    s.arriving = none := by
  rw [← hsend.arriving, YamuxSession.arriving, Option.filter_eq_none_iff]
  intro fs hfs
  have hends := inboundLoop_arrivals hread.loop
  obtain ⟨f, hf, hend⟩ := hends fs hfs
  simp only [Bool.not_eq_true', Bool.not_eq_false, List.any_eq_true]
  exact ⟨f, hf, hend⟩

/-- A call that goes on to the heads: what it finds to send, which streams it
finds at their end, and what each of them has taken in. -/
theorem Sending.upcoming (hsend : Sending s false t done rest)
    (hread : Reading { s with transport := t, outQueue := rest } none s₂) (hnodup : order.Nodup) :
    ∃ fs, s.arriving = some fs ∧ (s₂.drainAll order).outQueue = rest ++ s.upcoming fs order ∧
      (s₂.drainHeads order).2 = order.filter (s.reportsEnd fs) ∧
      ∀ id, s₂.streams.lookup id = s.informed fs id := by
  obtain ⟨fs, hfs, hquiet, htaken⟩ := inboundLoop_arrivals hread.loop
  have hlookup : ∀ id, s₂.streams.lookup id = s.informed fs id := htaken.lookup
  have hblock : s₂.block = s.brings fs := by
    funext id
    rw [block, hlookup, brings]
    cases s.informed fs id <;> rfl
  have hfound : s₂.foundClosed = s.reportsEnd fs := by
    funext id
    rw [foundClosed, hlookup, reportsEnd]
    cases s.informed fs id <;> rfl
  have hheads := drainHeads_spec (s := s₂) hnodup
  refine ⟨fs, ?_, ?_, ?_, hlookup⟩
  · rw [← hsend.arriving, YamuxSession.arriving, hfs, Option.filter_some]
    apply if_pos
    simp only [Bool.not_eq_true', List.any_eq_false, Bool.not_eq_true]
    exact hquiet
  · have hall : (s₂.drainAll order).outQueue = (s₂.drainHeads order).1.outQueue :=
      (removeAll_frame _).2.2
    rw [hall, hheads.outQueue, htaken.outQueue, hblock, List.append_assoc]
    rfl
  · rw [hheads.closed, hfound]

end Call

end YamuxSession

end YamuxLowMem
