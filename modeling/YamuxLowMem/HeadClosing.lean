/-
YamuxLowMem/HeadClosing.lean

When a head reports that its stream is over.

`poll_next` answers `Ready(None)` in the state where both halves are closed
and nothing is left to yield.  `state.remote_open` is false both before the
`ACK` of an opened stream has arrived and after the peer's `FIN`, so a stream
whose handle closes its half before the `ACK` is reported over although the
peer has not said anything yet.  Apart from this, a head is over only after
its own `FIN` and a `FIN` or `RST` of the peer.
-/
import YamuxLowMem.PairInv

namespace YamuxLowMem

open Async

/-- The peer has answered: some frame with `ACK`, `FIN` or `RST` has arrived. -/
def peerAnswered (inputs : List FrameStreamEvent) : Bool :=
  carried Flags.ack inputs || carried Flags.fin inputs || carried Flags.rst inputs

/-- The peer has finished: some frame with `FIN` or `RST` has arrived. -/
def peerFinished (inputs : List FrameStreamEvent) : Bool :=
  carried Flags.fin inputs || carried Flags.rst inputs

section

variable (es es' : List FrameStreamEvent)

theorem peerAnswered_append :
    peerAnswered (es ++ es') = (peerAnswered es || peerAnswered es') := by
  simp only [peerAnswered, carried_append]
  cases carried Flags.ack es <;> cases carried Flags.fin es <;> cases carried Flags.rst es <;> simp

theorem peerFinished_append :
    peerFinished (es ++ es') = (peerFinished es || peerFinished es') := by
  simp only [peerFinished, carried_append]
  cases carried Flags.fin es <;> cases carried Flags.rst es <;> simp

theorem peerAnswered_of_finished (h : peerFinished es = true) : peerAnswered es = true := by
  simp only [peerAnswered, peerFinished] at h ⊢
  rw [Bool.or_assoc, h, Bool.or_true]

end

/-- What `state.remote_open = false` can mean: nothing heard on an opened
stream, or the peer has finished. -/
structure RemoteHalf (opened : Bool) (p : StreamPair) : Prop where
  waiting : opened = true → peerAnswered p.inputs = false → p.head.state.remoteOpen = false
  closed : p.head.state.remoteOpen = false →
    (opened = true ∧ peerAnswered p.inputs = false) ∨ peerFinished p.inputs = true

namespace RemoteHalf

variable {opened : Bool} {p q : StreamPair}

/-- An event without flags, and any move of this side, leaves it as it is. -/
theorem congr (h : RemoteHalf opened p)
    (hstate : q.head.state.remoteOpen = p.head.state.remoteOpen)
    (hanswered : peerAnswered q.inputs = peerAnswered p.inputs)
    (hfinished : peerFinished q.inputs = peerFinished p.inputs) : RemoteHalf opened q := by
  constructor
  · intro ho hq
    rw [hstate]
    exact h.waiting ho (hanswered ▸ hq)
  · intro hq
    rw [hanswered, hfinished]
    exact h.closed (hstate ▸ hq)

/-- An event with flags. -/
theorem flagged (h : RemoteHalf opened p) {flags : Flags} {e : FrameStreamEvent}
    (he : e.flags = some flags) (hinputs : q.inputs = p.inputs ++ [e])
    (hstate : q.head.state.remoteOpen =
      ((p.head.state.remoteOpen || flags.ack) && !(flags.rst || flags.fin))) :
    RemoteHalf opened q := by
  have hanswered : peerAnswered q.inputs =
      (peerAnswered p.inputs || (flags.ack || flags.fin || flags.rst)) := by
    rw [hinputs, peerAnswered_append]
    simp [peerAnswered, FrameStreamEvent.carries, he]
  have hfinished : peerFinished q.inputs = (peerFinished p.inputs || (flags.fin || flags.rst)) := by
    rw [hinputs, peerFinished_append]
    simp [peerFinished, FrameStreamEvent.carries, he]
  constructor
  · intro ho hq
    rw [hanswered, Bool.or_eq_false_iff] at hq
    obtain ⟨hq, hflags⟩ := hq
    have hack : flags.ack = false := by
      cases ha : flags.ack
      · rfl
      · simp [ha] at hflags
    rw [hstate, h.waiting ho hq, hack]
    rfl
  · intro hq
    rw [hanswered, hfinished]
    cases hfr : flags.fin || flags.rst with
    | true => exact Or.inr (Bool.or_true _)
    | false =>
        obtain ⟨hfin, hrst⟩ := Bool.or_eq_false_iff.mp hfr
        rw [hstate, hfin, hrst] at hq
        simp only [Bool.or_false, Bool.not_false, Bool.and_true, Bool.or_eq_false_iff] at hq
        rw [hq.2, hfin, hrst]
        simpa using h.closed hq.1

end RemoteHalf

theorem PairReachable.remoteHalf {opened : Bool} {id : StreamID} {p : StreamPair}
    (h : PairReachable opened id p) : RemoteHalf opened p := by
  refine h.invariant ?_ ?_
  · rintro p rfl
    cases opened with
    | true => exact ⟨fun _ _ => rfl, fun _ => Or.inl ⟨rfl, rfl⟩⟩
    | false =>
        constructor
        · intro ho
          cases ho
        · intro hr
          cases hr
  · rintro p q hp hstep
    cases hstep with
    | header flags size => exact hp.flagged (e := .data flags size) rfl rfl rfl
    | window flags delta => exact hp.flagged (e := .windowUpdate flags delta) rfl rfl rfl
    | chunk bytes =>
        apply hp.congr
        · simp [YamuxStreamHead.markReceivedBytes_eq]
        · simp [peerAnswered, FrameStreamEvent.carries, FrameStreamEvent.flags]
        · simp [peerFinished, FrameStreamEvent.carries, FrameStreamEvent.flags]
    | takeEnd | takeNone =>
        apply hp.congr
        · simp [YamuxStreamHead.tryCloseLocal_eq]
        · rfl
        · rfl
    | _ => exact hp.congr rfl rfl rfl

/-- In every run of a head, opened or accepted: whenever it is polled, "it is
reported over only if it has yielded its `FIN` and a `FIN` or `RST` has
arrived" holds exactly when the stream was accepted, or the peer has answered,
or the head has not yet yielded its `FIN`, or it still has something to yield. -/
theorem head_over_iff (opened : Bool) (id : StreamID) (ops : List PairOp) :
    let p := (StreamPair.create opened id).run ops
    (p.pollNext.1 = .ready none →
        carried Flags.fin p.emitted = true ∧ peerFinished p.inputs = true) ↔
      (opened = false ∨ peerAnswered p.inputs = true ∨ carried Flags.fin p.emitted = false ∨
        p.head.outs ≠ []) := by
  intro p
  have hreach : PairReachable opened id p := (StreamPair.run_reachable opened id ops).1
  have hremote := hreach.remoteHalf
  have hfin := hreach.fin_history
  rw [StreamPair.pollNext_eq_none_iff]
  constructor
  · intro h
    -- otherwise the head is over before the peer has said anything
    by_contra hnot
    simp only [not_or, Bool.not_eq_true, Bool.not_eq_false, not_not] at hnot
    obtain ⟨hopened, hanswered, hemitted, houts⟩ := hnot
    have hlocal : p.head.state.localOpen = false := by
      rw [StreamPair.history, houts, List.append_nil, hemitted] at hfin
      simpa using hfin.symm
    have hrem := hremote.waiting hopened hanswered
    have hfinished := (h ⟨houts, by simp [State.isClosed, hlocal, hrem]⟩).2
    rw [peerAnswered_of_finished _ hfinished] at hanswered
    cases hanswered
  · rintro h ⟨houts, hclosed⟩
    obtain ⟨hlocal, hrem⟩ : p.head.state.localOpen = false ∧ p.head.state.remoteOpen = false := by
      simpa [State.isClosed] using hclosed
    have hemitted : carried Flags.fin p.emitted = true := by
      rw [StreamPair.history, houts, List.append_nil, hlocal] at hfin
      exact hfin
    refine ⟨hemitted, ?_⟩
    rcases hremote.closed hrem with ⟨hopened, hanswered⟩ | hfinished
    · rcases h with h | h | h | h
      · rw [hopened] at h
        cases h
      · rw [hanswered] at h
        cases h
      · rw [hemitted] at h
        cases h
      · exact absurd houts h
    · exact hfinished

/-- An opened stream whose handle closes its half at once: the head yields
`SYN` and `FIN`, and is then over, before anything has arrived. -/
theorem head_over_before_ack :
    ¬ ∀ (opened : Bool) (id : StreamID) (ops : List PairOp),
      let p := (StreamPair.create opened id).run ops
      p.pollNext.1 = .ready none →
        carried Flags.fin p.emitted = true ∧ peerFinished p.inputs = true := by
  intro h
  have hfalse := h true ⟨1⟩ [.handle .close, .poll, .poll] (by decide)
  exact absurd hfalse.2 (by decide)

end YamuxLowMem
