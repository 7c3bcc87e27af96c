/-
YamuxLowMem/Tended.lean

A stream as the session keeps it.

The session hands a head what arrives for its stream, polls it, and removes it
when a poll reports that the stream is over; after that the handle is left with
what is in its channel, and what still arrives is lost.  `Tended` is one stream
under this regime, with all that has arrived for it.  Every stream of a session
is one, unless `open_stream` takes its identifier while it is registered; and
what has arrived for it is what the session has received on its identifier, from
the time it was created until the next stream of that identifier was
(`sessionMachine_tended`).
-/
import YamuxLowMem.StreamsOf
import YamuxLowMem.InboundTurns

namespace YamuxLowMem

open Async

/-- A stream as the session keeps it, with all that has arrived for it.  When a
poll reports that the stream is over the head is removed, and what arrives
after that is lost. -/
structure Tended where
  pair : StreamPair
  arrived : List FrameStreamEvent
  deriving DecidableEq, Repr

namespace Tended

def create (opened : Bool) (id : StreamID) : Tended :=
  { pair := StreamPair.create opened id, arrived := [] }

/-- What arrives, for a head that is there or not. -/
def onInput (t : Tended) (event : FrameStreamEvent) : Tended :=
  { pair := if t.pair.headAlive then (t.pair.onInput event).2 else t.pair
    arrived := t.arrived ++ [event] }

/-- A poll of the head, if it is there; it is removed when it is over. -/
def poll (t : Tended) : Tended :=
  if t.pair.headAlive then
    match t.pair.pollNext with
    | (.ready none, pair) => { t with pair := pair.dropHead }
    | (_, pair) => { t with pair := pair }
  else t

def step (t : Tended) : PairOp → Tended
  | .input event => t.onInput event
  | .poll => t.poll
  | .handle op => { t with pair := t.pair.handleOp op }

def run (t : Tended) (ops : List PairOp) : Tended := ops.foldl step t

end Tended

/-! ### The streams of an id -/

/-- What an operation brings to a stream. -/
def PairOp.events : PairOp → List FrameStreamEvent
  | .input event => [event]
  | .poll | .handle _ => []

theorem Tended.step_arrived (t : Tended) (op : PairOp) :
    (t.step op).arrived = t.arrived ++ op.events := by
  cases op with
  | input event => rfl
  | handle op => exact (List.append_nil _).symm
  | poll =>
      simp only [step, Tended.poll, PairOp.events, List.append_nil]
      split
      · split <;> rfl
      · rfl

/-- The streams that live under an id one after the other, over the events
received on it.  An event goes to the last of them, whether its head is there
or not; the earlier ones have handles left. -/
inductive Arrivals (id : StreamID) : List Tended → List FrameStreamEvent → Prop where
  | start : Arrivals id [] []
  /-- there has been no stream yet -/
  | early {es : List FrameStreamEvent} (e : FrameStreamEvent) :
      Arrivals id [] es → Arrivals id [] (es ++ [e])
  | create {ts : List Tended} {es : List FrameStreamEvent} (opened : Bool) :
      Arrivals id ts es → Arrivals id (ts ++ [Tended.create opened id]) es
  | last {ts : List Tended} {t : Tended} {es : List FrameStreamEvent} (op : PairOp) :
      Arrivals id (ts ++ [t]) es → Arrivals id (ts ++ [t.step op]) (es ++ op.events)
  | handle {ts ts' : List Tended} {t : Tended} {es : List FrameStreamEvent} (op : HandleOp) :
      Arrivals id (ts ++ t :: ts') es → Arrivals id (ts ++ t.step (.handle op) :: ts') es

/-- The stream can go on from `p` to `q` while the events `new` arrive. -/
def Tends (p q : StreamPair) (new : List FrameStreamEvent) : Prop :=
  ∀ t : Tended, t.pair = p → ∃ ops, (t.run ops).pair = q ∧ ops.flatMap PairOp.events = new

namespace Arrivals

variable {id : StreamID} {ts : List Tended} {t : Tended} {es : List FrameStreamEvent}

/-- Each of the streams is what a tended stream comes to. -/
theorem reached (h : Arrivals id ts es) (ht : t ∈ ts) :
    ∃ opened ops, (Tended.create opened id).run ops = t := by
  have onward : ∀ {t : Tended} (op : PairOp), (∃ opened ops, (Tended.create opened id).run ops = t) →
      ∃ opened ops, (Tended.create opened id).run ops = t.step op := by
    rintro t op ⟨opened, ops, rfl⟩
    exact ⟨opened, ops ++ [op], by rw [Tended.run, List.foldl_append]; rfl⟩
  induction h generalizing t with
  | start | early => cases ht
  | create opened _ ih =>
      rcases List.mem_append.mp ht with ht | ht
      · exact ih ht
      · rw [List.mem_singleton.mp ht]
        exact ⟨opened, [], rfl⟩
  | last op _ ih =>
      rcases List.mem_append.mp ht with ht | ht
      · exact ih (List.mem_append_left _ ht)
      · rw [List.mem_singleton.mp ht]
        exact onward op (ih (by simp))
  | handle op _ ih =>
      rcases List.mem_append.mp ht with ht | ht
      · exact ih (List.mem_append_left _ ht)
      · rcases List.mem_cons.mp ht with rfl | ht
        · exact onward _ (ih (by simp))
        · exact ih (by simp [ht])

/-- From the first stream on, all that is received has arrived for one. -/
theorem arrived (h : Arrivals id ts es) : ts.flatMap Tended.arrived <:+ es := by
  induction h with
  | start => exact List.suffix_rfl
  | early => exact List.nil_suffix
  | create opened _ ih =>
      rw [List.flatMap_append]
      exact (List.append_nil _).symm ▸ ih
  | last op _ ih =>
      obtain ⟨front, hfront⟩ := ih
      refine ⟨front, ?_⟩
      rw [← hfront]
      simp [Tended.step_arrived]
  | handle op _ ih =>
      simpa [Tended.step_arrived, PairOp.events] using ih

theorem run (h : Arrivals id (ts ++ [t]) es) (ops : List PairOp) :
    Arrivals id (ts ++ [t.run ops]) (es ++ ops.flatMap PairOp.events) := by
  induction ops generalizing t es with
  | nil => exact (List.append_nil _).symm ▸ h
  | cons op ops ih =>
      rw [List.flatMap_cons, ← List.append_assoc]
      exact ih (h.last op)

end Arrivals

/-- The streams `ps` live under `id` one after the other, over the events `es`
received on it. -/
def ArrivedFor (id : StreamID) (ps : List StreamPair) (es : List FrameStreamEvent) : Prop :=
  ∃ ts, Arrivals id ts es ∧ ts.map Tended.pair = ps

namespace ArrivedFor

variable {id : StreamID} {ps qs : List StreamPair} {p q : StreamPair}
  {es new : List FrameStreamEvent}

theorem early (h : ArrivedFor id [] es) (e : FrameStreamEvent) : ArrivedFor id [] (es ++ [e]) := by
  obtain ⟨ts, harrivals, hpairs⟩ := h
  obtain rfl := List.map_eq_nil_iff.mp hpairs
  exact ⟨[], harrivals.early e, rfl⟩

theorem create (h : ArrivedFor id ps es) (opened : Bool) :
    ArrivedFor id (ps ++ [StreamPair.create opened id]) es := by
  obtain ⟨ts, harrivals, rfl⟩ := h
  exact ⟨_, harrivals.create opened, List.map_append⟩

theorem onward (h : ArrivedFor id (ps ++ [p]) es) (hq : Tends p q new) :
    ArrivedFor id (ps ++ [q]) (es ++ new) := by
  obtain ⟨ts, harrivals, hpairs⟩ := h
  obtain ⟨front, last, rfl, hfront, hlast⟩ := List.map_eq_append_iff.mp hpairs
  obtain ⟨t, rfl, hp⟩ := List.map_eq_singleton_iff.mp hlast
  obtain ⟨ops, hpair, rfl⟩ := hq t hp
  refine ⟨_, harrivals.run ops, ?_⟩
  rw [List.map_append, hfront, List.map_singleton, hpair]

theorem handleOp (h : ArrivedFor id ps es) {op : HandleOp}
    (hqs : List.Forall₂ (fun p q => q = p ∨ q = p.handleOp op) ps qs) : ArrivedFor id qs es := by
  obtain ⟨ts, harrivals, rfl⟩ := h
  -- the streams before the first of `ts` have been dealt with
  have hall : ∀ front ts : List Tended, Arrivals id (front ++ ts) es →
      ∀ qs, List.Forall₂ (fun p q => q = p ∨ q = p.handleOp op) (ts.map Tended.pair) qs →
      ∃ ts', Arrivals id (front ++ ts') es ∧ ts'.map Tended.pair = qs := by
    intro front ts
    induction ts generalizing front with
    | nil =>
        intro harrivals qs hqs
        cases hqs
        exact ⟨[], harrivals, rfl⟩
    | cons t ts ih =>
        intro harrivals qs hqs
        cases hqs with
        | @cons _ q _ qs hq hqs =>
            obtain ⟨t', hpair, ht'⟩ : ∃ t' : Tended, t'.pair = q ∧
                Arrivals id (front ++ t' :: ts) es := by
              rcases hq with rfl | rfl
              · exact ⟨t, rfl, harrivals⟩
              · exact ⟨_, rfl, harrivals.handle op⟩
            rw [List.append_cons] at ht'
            obtain ⟨ts', hts', rfl⟩ := ih (front ++ [t']) ht' qs hqs
            rw [← List.append_cons] at hts'
            exact ⟨t' :: ts', hts', by rw [List.map_cons, hpair]⟩
  exact hall [] ts harrivals qs hqs

end ArrivedFor

/-! ### In a session -/

/-- The stream is over: the next poll says so. -/
def StreamPair.Over (p : StreamPair) : Prop := p.pollNext.1 = .ready none

namespace Tends

variable {p q r : StreamPair} {new : List FrameStreamEvent}

theorem refl (p : StreamPair) : Tends p p [] := fun _ ht => ⟨[], ht, rfl⟩

/-- One operation more. -/
theorem tail (h : Tends p q new) (op : PairOp)
    (hop : ∀ t : Tended, t.pair = q → (t.step op).pair = r) : Tends p r (new ++ op.events) := by
  intro t ht
  obtain ⟨ops, hq, rfl⟩ := h t ht
  refine ⟨ops ++ [op], ?_, ?_⟩
  · rw [Tended.run, List.foldl_append]
    exact hop _ hq
  · rw [List.flatMap_append, List.flatMap_singleton]

theorem onInput (halive : p.headAlive = true) (e : FrameStreamEvent) :
    Tends p (p.onInput e).2 [e] := by
  apply (refl p).tail (.input e)
  rintro t rfl
  exact if_pos halive

/-- What comes too late is lost. -/
theorem lost (hgone : p.headAlive = false) (e : FrameStreamEvent) : Tends p p [e] := by
  apply (refl p).tail (.input e)
  rintro t rfl
  exact if_neg (by rw [hgone]; exact Bool.false_ne_true)

theorem poll (h : Tends p q new) (halive : q.headAlive = true) {result} {r : StreamPair}
    (hpoll : q.pollNext = (result, r)) :
    Tends p (if result = .ready none then r.dropHead else r) new := by
  have htail := h.tail (r := if result = .ready none then r.dropHead else r) .poll ?_
  · rwa [PairOp.events, List.append_nil] at htail
  · rintro t rfl
    show (Tended.poll t).pair = _
    rw [Tended.poll, if_pos halive, hpoll]
    rcases result with - | - | e <;> rfl

/-- Draining a head polls it. -/
theorem drainHead (h : Tends p q new) (halive : q.headAlive = true) (fuel : Nat) :
    Tends p (YamuxSession.drainHead fuel q).2.2 new := by
  induction fuel generalizing q with
  | zero => exact h
  | succ fuel ih =>
      have hlater := StreamPair.pollNext_headAlive (p := q)
      cases hpoll : q.pollNext with
      | mk result r =>
          rw [hpoll] at hlater
          have hr := h.poll halive hpoll
          rw [YamuxSession.drainHead, hpoll]
          rcases result with - | - | e
          · exact hr
          · rw [StreamPair.pollNext_none hpoll]
            exact h
          · exact ih hr (hlater.trans halive)

/-- Removing the head of a stream that is over is one more poll. -/
theorem remove (halive : p.headAlive = true) (hover : p.Over) : Tends p p.dropHead [] := by
  have hself : p.pollNext = (.ready none, p) := by
    have hpoll : p.pollNext = (.ready none, p.pollNext.2) := Prod.ext hover rfl
    rwa [StreamPair.pollNext_none hpoll] at hpoll
  exact (refl p).poll halive hself

end Tends

theorem YamuxSession.drainHead_headAlive (fuel : Nat) (p : StreamPair) :
    (drainHead fuel p).2.2.headAlive = p.headAlive := by
  induction fuel generalizing p with
  | zero => rfl
  | succ fuel ih =>
      have hlater := StreamPair.pollNext_headAlive (p := p)
      cases hpoll : p.pollNext with
      | mk result q =>
          rw [hpoll] at hlater
          rw [drainHead, hpoll]
          rcases result with - | - | e
          · exact hlater
          · exact hlater
          · exact (ih q).trans hlater

theorem YamuxSession.drainHead_handleId (fuel : Nat) (p : StreamPair) :
    (drainHead fuel p).2.2.handle.id = p.handle.id := by
  induction fuel generalizing p with
  | zero => rfl
  | succ fuel ih =>
      have hlater : p.pollNext.2.handle.id = p.handle.id := rfl
      cases hpoll : p.pollNext with
      | mk result q =>
          rw [hpoll] at hlater
          rw [drainHead, hpoll]
          rcases result with - | - | e
          · exact hlater
          · exact hlater
          · exact (ih q).trans hlater

/-- A head that is drained and reported closed is over. -/
theorem YamuxSession.drainHead_over {fuel : Nat} {p : StreamPair}
    (hclosed : (drainHead fuel p).2.1 = true) : (drainHead fuel p).2.2.Over := by
  induction fuel generalizing p with
  | zero => cases hclosed
  | succ fuel ih =>
      cases hpoll : p.pollNext with
      | mk result q =>
          rw [drainHead, hpoll] at hclosed ⊢
          rcases result with - | - | e
          · cases hclosed
          · rw [StreamPair.pollNext_none hpoll]
            exact congrArg Prod.fst hpoll
          · exact ih hclosed

/-- Under each id the session's streams live one after the other, over the
frames received on it.  The registered ones have their heads, the others do not. -/
structure YamuxSession.AllTended (s : YamuxSession) : Prop where
  arrivals : ∀ id, ArrivedFor id (s.streamsOf id) (eventsOn id s.transport.received)
  heads : Pairs (fun id p => p.handle.id = id ∧ p.headAlive = true)
    (fun p => p.headAlive = false) s

namespace YamuxSession

variable {s s' : YamuxSession} {id : StreamID} {p q : StreamPair}
  {new : List FrameStreamEvent}

/-- Sending changes none of the streams. -/
theorem trySend_streams {sent sent' : Bool} (h : s.trySend sent = some (s', sent')) :
    s'.streams = s.streams ∧ s'.dropped = s.dropped := by
  obtain ⟨x, -, hx⟩ := Option.bind_eq_some_iff.mp h
  cases hx
  exact ⟨rfl, rfl⟩

theorem pollClosing_streams {answer : Poll (Option YamuxStream)}
    (h : s.pollClosing = some (answer, s')) : s'.streams = s.streams ∧ s'.dropped = s.dropped := by
  obtain ⟨x, -, hx⟩ := Option.bind_eq_some_iff.mp h
  cases hx
  exact ⟨rfl, rfl⟩

theorem flushSent_streams {sent : Bool} {answer : Poll (Option YamuxStream)}
    (h : s.flushSent sent = some (answer, s')) :
    s'.streams = s.streams ∧ s'.dropped = s.dropped := by
  rw [flushSent] at h
  split at h
  · obtain ⟨⟨result, t⟩, -, hx⟩ := Option.bind_eq_some_iff.mp h
    rcases result with - | e | u <;> cases hx <;> exact ⟨rfl, rfl⟩
  · cases h
    exact ⟨rfl, rfl⟩

namespace AllTended

/-- Nothing changes but frames that belong to no stream. -/
theorem congr (h : s.AllTended) (hstreams : s'.streams = s.streams)
    (hdropped : s'.dropped = s.dropped)
    (hreceived : ∀ id, eventsOn id s'.transport.received = eventsOn id s.transport.received) :
    s'.AllTended := by
  refine ⟨fun id => ?_, h.heads.congr hstreams hdropped⟩
  rw [streamsOf_congr hstreams hdropped, hreceived]
  exact h.arrivals id

/-- A registered stream goes on. -/
theorem onward (h : s.AllTended) (hp : s.streams.lookup id = some p) (hq : Tends p q new)
    (hkept : q.handle.id = p.handle.id ∧ q.headAlive = true)
    (hstreams : s'.streams = (s.setStream id q).streams) (hdropped : s'.dropped = s.dropped)
    (hreceived : s'.transport.received = s.transport.received ++ new.map (Frame.stream id)) :
    s'.AllTended := by
  have hid := (h.heads.registered id p hp).1
  have hset : Pairs _ _ (s.setStream id q) := h.heads.setStream ⟨hkept.1.trans hid, hkept.2⟩
  refine ⟨fun id' => ?_, hset.congr hstreams hdropped⟩
  rw [streamsOf_congr (s := s.setStream id q) hstreams hdropped, hreceived, eventsOn_append]
  have hid' := h.arrivals id'
  by_cases heq : id' = id
  · subst heq
    rw [streamsOf_of_lookup hp] at hid'
    rw [streamsOf_setStream_self, eventsOn_map]
    exact hid'.onward hq
  · rw [streamsOf_setStream_ne heq, eventsOn_map_ne id' (Ne.symm heq), List.append_nil]
    exact hid'

/-- A frame comes for an id that has no stream now. -/
theorem lost (h : s.AllTended) (hnone : s.streams.lookup id = none) {e : FrameStreamEvent}
    (hstreams : s'.streams = s.streams) (hdropped : s'.dropped = s.dropped)
    (hreceived : s'.transport.received = s.transport.received ++ [.stream id e]) :
    s'.AllTended := by
  refine ⟨fun id' => ?_, h.heads.congr hstreams hdropped⟩
  rw [streamsOf_congr hstreams hdropped, hreceived]
  have hid' := h.arrivals id'
  by_cases heq : id' = id
  · subst heq
    rw [eventsOn_concat_self]
    rw [streamsOf_of_none hnone] at hid' ⊢
    -- the last stream there was has lost its head
    rcases List.eq_nil_or_concat (s.dropped.filter fun p => p.handle.id = id') with
      hnil | ⟨front, p, hlast⟩
    · rw [hnil] at hid' ⊢
      exact hid'.early e
    · have hmem : p ∈ s.dropped.filter fun p => p.handle.id = id' := by
        rw [hlast]
        simp
      rw [hlast, List.concat_eq_append] at hid' ⊢
      exact hid'.onward (Tends.lost (h.heads.dropped p (List.mem_of_mem_filter hmem)) e)
  · rw [eventsOn_concat_ne id' _ (Ne.symm heq)]
    exact hid'

/-- A stream is registered under an id that is free. -/
theorem create (h : s.AllTended) (hnone : s.streams.lookup id = none) (opened : Bool)
    (hstreams : s'.streams = s.streams.insert id (StreamPair.create opened id))
    (hdropped : s'.dropped = s.dropped)
    (hreceived : s'.transport.received = s.transport.received) : s'.AllTended := by
  have hset : Pairs _ _ (s.setStream id (StreamPair.create opened id)) :=
    h.heads.setStream ⟨by cases opened <;> rfl, by cases opened <;> rfl⟩
  refine ⟨fun id' => ?_, hset.congr hstreams hdropped⟩
  rw [streamsOf_congr (s := s.setStream id _) hstreams hdropped, hreceived]
  have hid' := h.arrivals id'
  by_cases heq : id' = id
  · subst heq
    rw [streamsOf_of_none hnone] at hid'
    rw [streamsOf_setStream_self]
    exact hid'.create opened
  · rw [streamsOf_setStream_ne heq]
    exact hid'

/-- The head of a stream that is over is removed. -/
theorem removeStream (h : s.AllTended)
    (hover : ∀ p, s.streams.lookup id = some p → p.Over) : (s.removeStream id).AllTended := by
  have hids : ∀ p, s.streams.lookup id = some p → p.handle.id = id :=
    fun p hp => (h.heads.registered id p hp).1
  refine ⟨fun id' => ?_, h.heads.removeStream (fun _ _ _ => rfl) id⟩
  have hid' := h.arrivals id'
  by_cases heq : id' = id
  · subst heq
    rw [streamsOf_removeStream_self hids]
    cases hp : s.streams.lookup id' with
    | none =>
        rw [streamsOf_of_none hp] at hid'
        exact (List.append_nil _).symm ▸ hid'
    | some p =>
        rw [streamsOf_of_lookup hp] at hid'
        have hremove := Tends.remove (h.heads.registered id' p hp).2 (hover p hp)
        have hnext := hid'.onward hremove
        rwa [List.append_nil] at hnext
  · rw [streamsOf_removeStream_ne hids heq]
    exact hid'

theorem handleOp (h : s.AllTended) (ref : HandleRef) (op : HandleOp) :
    (s.handleOp ref op).AllTended := by
  obtain ⟨id, hothers, hid⟩ := s.handleOp_streamsOf ref op
  refine ⟨fun id' => ?_, h.heads.handleOp ref op ?_ ?_⟩
  · rw [handleOp_transport]
    by_cases heq : id' = id
    · subst heq
      exact (h.arrivals id').handleOp hid
    · rw [hothers id' heq]
      exact h.arrivals id'
  · rintro id' p ⟨hhandle, halive⟩
    exact ⟨(p.handleOp_handleId op).trans hhandle, (StreamPair.handleOp_headAlive op).trans halive⟩
  · intro p hgone
    exact (StreamPair.handleOp_headAlive op).trans hgone

/-- A frame has come in. -/
theorem dispatch {t : YamuxTransport} {frame : Frame} (h : s.AllTended)
    (hframe : Dispatch { s with transport := t } frame s')
    (hreceived : t.received = s.transport.received ++ [frame]) : s'.AllTended := by
  cases hframe with
  | ping | quiet =>
      refine h.congr rfl rfl fun id => ?_
      show eventsOn id t.received = _
      rw [hreceived, eventsOn_concat_session]
  | unknown hnone => exact h.lost hnone rfl rfl hreceived
  | @input id p event hp =>
      have halive := (h.heads.registered id p hp).2
      refine h.onward hp (Tends.onInput halive event) ⟨rfl, halive⟩ ?_ ?_ ?_
      · cases (p.onInput event).1 <;> rfl
      · cases (p.onInput event).1 <;> rfl
      · rw [logError_transport]
        exact hreceived
  | @accept id event flags hnone =>
      -- the stream is created first, and then given the frame
      have hnew : AllTended { s with streams := s.streams.insert id (StreamPair.create false id) } :=
        h.create hnone false rfl rfl rfl
      refine hnew.onward (Finmap.lookup_insert _) (Tends.onInput rfl event) ⟨rfl, rfl⟩ ?_ ?_ ?_
      · have hstreams : (s.insertStream id ((StreamPair.acceptStream id).onInput event).2).streams =
            (s.streams.insert id (StreamPair.create false id)).insert id
              ((StreamPair.acceptStream id).onInput event).2 := (Finmap.insert_insert _).symm
        cases ((StreamPair.acceptStream id).onInput event).1 <;> exact hstreams
      · have hdropped : (s.insertStream id ((StreamPair.acceptStream id).onInput event).2).dropped =
            s.dropped := by simp [insertStream, hnone]
        cases ((StreamPair.acceptStream id).onInput event).1 <;> exact hdropped
      · rw [logError_transport]
        exact hreceived

/-- The transport has been asked for a frame. -/
theorem deliver {t : YamuxTransport} {event : Poll (Option (Except YamuxTransportError Frame))}
    {pushed : Bytes} (h : s.AllTended)
    (hreceive : YamuxTransport.Receive event s.transport t pushed) :
    (YamuxSession.deliver { s with transport := t } event).AllTended := by
  have hreceived := hreceive.received
  unfold YamuxSession.deliver
  split
  · exact h.dispatch (onFrame_dispatch _ _) hreceived
  · rename_i hother
    refine h.congr rfl rfl fun id => ?_
    show eventsOn id t.received = _
    rw [hreceived, eventFrames_eq_nil hother, List.append_nil]

theorem inboundLoop {fuel : Nat} {answer : Option (Poll (Option YamuxStream))} (h : s.AllTended)
    (hw : s.Wf) (hloop : s.inboundLoop fuel = some (answer, s')) : s'.AllTended := by
  have hturn : ∀ a b : YamuxSession, a.Wf → InboundTurn a b → a.AllTended → b.AllTended := by
    intro a b hwa hturn ha
    obtain ⟨f, t, pushed, hreceive, rfl⟩ := hturn.receive hwa
    exact ha.deliver hreceive
  obtain ⟨s₁, hturns, hend⟩ := inboundLoop_turns hloop
  obtain ⟨hw₁, h₁⟩ := InboundTurn.induct hturns hw h hturn
  obtain ⟨event, t, pushed, hnext, hreceive⟩ := YamuxTransport.pollNext_spec hw₁.reader
  have hdeliver := h₁.deliver hreceive
  cases hend with
  | dry hnext' | closed hnext' | failed hnext' =>
      cases hnext.symm.trans hnext'
      exact hdeliver
  | frame hnext' hframe =>
      cases hnext.symm.trans hnext'
      have hs' : (onFrame { s₁ with transport := t } _).2 = s' := congrArg Prod.snd hframe
      rw [← hs']
      exact hdeliver

theorem drainHeads (h : s.AllTended) (order : List StreamID) :
    (s.drainHeads order).1.AllTended := by
  induction order generalizing s with
  | nil => exact h
  | cons id order ih =>
      cases hp : s.streams.lookup id with
      | none =>
          simp only [YamuxSession.drainHeads, hp]
          exact ih h
      | some p =>
          have halive := (h.heads.registered id p hp).2
          simp only [YamuxSession.drainHeads, hp]
          apply ih
          exact h.onward (q := afterDrain p) hp ((Tends.refl p).drainHead halive _)
            ⟨drainHead_handleId _ p, (drainHead_headAlive _ p).trans halive⟩ rfl rfl
            (List.append_nil _).symm

/-- All heads are drained, and the ones that are over removed. -/
theorem drainAll {order : List StreamID} (h : s.AllTended) (hnodup : order.Nodup) :
    (s.drainAll order).AllTended := by
  obtain ⟨-, hlookup, hclosed, -⟩ := drainHeads_spec (s := s) hnodup
  have hremove : ∀ (ids : List StreamID) (a : YamuxSession), a.AllTended →
      (∀ id ∈ ids, ∀ p, a.streams.lookup id = some p → p.Over) →
      (ids.foldl YamuxSession.removeStream a).AllTended := by
    intro ids
    induction ids with
    | nil => exact fun a ha _ => ha
    | cons id ids ih =>
        intro a ha hover
        refine ih _ (ha.removeStream (hover id List.mem_cons_self)) fun id' hid' p hp => ?_
        by_cases heq : id' = id
        · subst heq
          rw [YamuxSession.removeStream, Finmap.lookup_erase] at hp
          cases hp
        · rw [YamuxSession.removeStream, Finmap.lookup_erase_ne heq] at hp
          exact hover id' (List.mem_cons_of_mem _ hid') p hp
  apply hremove _ _ (h.drainHeads order)
  intro id hid p hp
  rw [hclosed] at hid
  obtain ⟨hmem, hfound⟩ := List.mem_filter.mp hid
  rw [hlookup, if_pos hmem] at hp
  obtain ⟨q, hq, rfl⟩ := Option.map_eq_some_iff.mp hp
  rw [foundClosed, hq] at hfound
  exact drainHead_over hfound

theorem pollNext {order : List StreamID} {answer : Poll (Option YamuxStream)} (h : s.AllTended)
    (hw : s.Wf) (hnodup : order.Nodup) (hpoll : s.pollNext order = some (answer, s')) :
    s'.AllTended := by
  have same : ∀ {a : YamuxSession} {t : YamuxTransport} (rest : List Frame), a.AllTended →
      t.received = a.transport.received →
      AllTended { a with transport := t, outQueue := rest } := by
    intro a t rest ha hreceived
    refine ha.congr rfl rfl fun id => ?_
    show eventsOn id t.received = _
    rw [hreceived]
  cases s.course hw order with
  | @closing _ _ rest hsend _ hclosing =>
      have h₁ := same rest h hsend.run.received
      obtain ⟨result, t, -, hflush, hspec⟩ := pollClosing_spec hsend.wf
      have hcall := (hclosing.trans hspec).symm.trans hpoll
      rcases result with - | e | u <;> cases hcall <;> exact same _ h₁ hflush.received
  | answered hsend _ hread hanswer =>
      cases hanswer.symm.trans hpoll
      exact (same _ h hsend.run.received).inboundLoop hsend.wf hread.loop
  | @drained _ _ _ _ _ rest' s₂ hsend _ hread hsend' hend =>
      have h₂ := (same _ h hsend.run.received).inboundLoop hsend.wf hread.loop
      have h₃ := same rest' (h₂.drainAll hnodup) hsend'.run.received
      have hcall := hend.symm.trans hpoll
      revert hcall
      generalize (_ || !List.isEmpty _ : Bool) = sent
      intro hcall
      cases sent with
      | false =>
          cases hcall
          exact h₃
      | true =>
          obtain ⟨result, t, -, hflush, hspec⟩ := flushSent_spec hsend'.wf
          rw [hspec] at hcall
          rcases result with - | e | u <;> cases hcall <;> exact same _ h₃ hflush.received

end AllTended

end YamuxSession

/-- `open_stream` finds its identifier free. -/
def opensFree : Guard := fun s m => m = .openStream → ⟨s.nextStreamId⟩ ∉ s.streams

/-- In every run of a session in which `open_stream` finds its identifiers free,
under each id the streams are such as tended streams come to, one after the
other, and every frame received on the id has arrived for the last of them. -/
theorem sessionMachine_tended {isServer : Bool} {maxWriteBuffer : Nat} {s : YamuxSession}
    (h : (sessionMachine isServer maxWriteBuffer opensFree).Reachable s) : s.AllTended := by
  induction h with
  | init h =>
      obtain rfl := h
      refine ⟨fun id => ⟨[], .start, rfl⟩, ?_, ?_⟩
      · intro id p hp
        cases hp
      · intro p hp
        cases hp
  | @step s s' hreach hstep ih =>
      obtain ⟨m, hpossible, hguard, hmove⟩ := hstep
      cases m with
      | openStream =>
          obtain rfl := Option.some.inj hmove
          have hnone : s.streams.lookup ⟨s.nextStreamId⟩ = none :=
            Finmap.lookup_eq_none.mpr (hguard rfl)
          refine ih.create hnone true rfl ?_ rfl
          simp [YamuxSession.openStream, YamuxSession.insertStream, hnone]
      | close code =>
          obtain rfl := Option.some.inj hmove
          exact ih.congr rfl rfl fun _ => rfl
      | handle ref op =>
          obtain rfl := Option.some.inj hmove
          exact ih.handleOp ref op
      | poll writes reads closes order =>
          obtain ⟨⟨answer, s₁⟩, hpoll, rfl⟩ := Option.map_eq_some_iff.mp hmove
          have hw := (sessionMachine_reachable hreach).wf
          have hw' : (s.behave writes reads closes).Wf := ⟨hw.writer, hw.reader⟩
          have hbehave : (s.behave writes reads closes).AllTended :=
            ih.congr rfl rfl fun _ => rfl
          exact hbehave.pollNext hw' hpossible.1 hpoll

/-- So every stream of the session, registered or not, is what a tended stream
comes to for which a part of the frames received on its id has arrived: for the
registered one, all of them from some frame on. -/
theorem YamuxSession.AllTended.exists_run {s : YamuxSession} (h : s.AllTended) {id : StreamID}
    {p : StreamPair} (hp : p ∈ s.streamsOf id) :
    ∃ opened ops, ((Tended.create opened id).run ops).pair = p ∧
      ((Tended.create opened id).run ops).arrived <:+: eventsOn id s.transport.received ∧
      (s.streams.lookup id = some p →
        ((Tended.create opened id).run ops).arrived <:+ eventsOn id s.transport.received) := by
  obtain ⟨ts, harrivals, hpairs⟩ := h.arrivals id
  have harrived := harrivals.arrived
  by_cases hlookup : s.streams.lookup id = some p
  · -- the registered stream is the last one
    rw [YamuxSession.streamsOf_of_lookup hlookup] at hpairs
    obtain ⟨front, last, rfl, -, hlast⟩ := List.map_eq_append_iff.mp hpairs
    obtain ⟨t, rfl, rfl⟩ := List.map_eq_singleton_iff.mp hlast
    obtain ⟨opened, ops, rfl⟩ := harrivals.reached (List.mem_append_right _ List.mem_cons_self)
    rw [List.flatMap_append, List.flatMap_singleton] at harrived
    have hsuffix := (List.suffix_append _ _).trans harrived
    exact ⟨opened, ops, rfl, hsuffix.isInfix, fun _ => hsuffix⟩
  · rw [← hpairs] at hp
    obtain ⟨t, ht, rfl⟩ := List.mem_map.mp hp
    obtain ⟨opened, ops, ht'⟩ := harrivals.reached ht
    obtain ⟨front, later, rfl⟩ := List.append_of_mem ht
    rw [List.flatMap_append, List.flatMap_cons] at harrived
    refine ⟨opened, ops, by rw [ht'], ?_, fun hsome => absurd hsome hlookup⟩
    rw [ht']
    exact ((List.prefix_append _ _).isInfix.trans (List.suffix_append _ _).isInfix).trans
      harrived.isInfix

end YamuxLowMem
