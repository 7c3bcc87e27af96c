/-
YamuxLowMem/InboundTurns.lean

The turns of the loop over inbound frames.

The loop deals with any number of frames that let it go on (`InboundTurn`),
and then something ends it (`InboundEnd`).  What a turn preserves, the loop
does, so a fact about the loop takes one lemma about a turn and one about the
end.
-/
import YamuxLowMem.SessionSteps

namespace YamuxLowMem

open Async Relation

/-- The transport yields a frame, and the loop goes on. -/
inductive InboundTurn (s : YamuxSession) : YamuxSession → Prop where
  | frame {t : YamuxTransport} {f : Frame} {s' : YamuxSession} :
      s.transport.pollNext = some (.ready (some (.ok f)), t) →
      YamuxSession.onFrame { s with transport := t } f = (none, s') → InboundTurn s s'

/-- The loop is over. -/
inductive InboundEnd (s : YamuxSession) :
    Option (Poll (Option YamuxStream)) → YamuxSession → Prop where
  /-- nothing can be read for now -/
  | dry {t : YamuxTransport} :
      s.transport.pollNext = some (.pending, t) → InboundEnd s none { s with transport := t }
  | closed {t : YamuxTransport} :
      s.transport.pollNext = some (.ready none, t) →
      InboundEnd s (some (.ready none)) { s with transport := t }
  | failed {t : YamuxTransport} {e : YamuxTransportError} :
      s.transport.pollNext = some (.ready (some (.error e)), t) →
      InboundEnd s (some (.ready none)) { s with transport := t }
  /-- a frame ends the call -/
  | frame {t : YamuxTransport} {f : Frame} {answer : Poll (Option YamuxStream)}
      {s' : YamuxSession} :
      s.transport.pollNext = some (.ready (some (.ok f)), t) →
      YamuxSession.onFrame { s with transport := t } f = (some answer, s') →
      InboundEnd s (some answer) s'

variable {s s' : YamuxSession} {answer : Option (Poll (Option YamuxStream))}

theorem YamuxSession.inboundLoop_turns {fuel : Nat}
    (h : s.inboundLoop fuel = some (answer, s')) :
    ∃ s₁, ReflTransGen InboundTurn s s₁ ∧ InboundEnd s₁ answer s' := by
  induction fuel generalizing s with
  | zero => cases h
  | succ fuel ih =>
      obtain ⟨⟨event, t⟩, hnext, h⟩ := Option.bind_eq_some_iff.mp h
      rcases event with - | - | e | f
      · cases h
        exact ⟨s, .refl, .dry hnext⟩
      · cases h
        exact ⟨s, .refl, .closed hnext⟩
      · cases h
        exact ⟨s, .refl, .failed hnext⟩
      · simp only at h
        cases hframe : YamuxSession.onFrame { s with transport := t } f with
        | mk answer₁ s₁ =>
            rw [hframe] at h
            cases answer₁ with
            | some answer₁ =>
                cases h
                exact ⟨s, .refl, .frame hnext hframe⟩
            | none =>
                obtain ⟨s₂, hturns, hend⟩ := ih h
                exact ⟨s₂, .head (.frame hnext hframe) hturns, hend⟩

namespace InboundTurn

/-- A turn is a move of the session. -/
theorem receive (h : InboundTurn s s') (hw : s.Wf) :
    ∃ f t pushed, YamuxTransport.Receive (.ready (some (.ok f))) s.transport t pushed ∧
      s' = { s with transport := t }.deliver (.ready (some (.ok f))) := by
  obtain ⟨hnext, hframe⟩ := h
  obtain ⟨event, t, pushed, hnext', hreceive⟩ := YamuxTransport.pollNext_spec hw.reader
  cases hnext.symm.trans hnext'
  exact ⟨_, _, _, hreceive, (congrArg Prod.snd hframe).symm⟩

theorem pollStep (h : InboundTurn s s') (hw : s.Wf) : PollStep s s' := by
  obtain ⟨f, t, pushed, hreceive, rfl⟩ := h.receive hw
  exact .receive hreceive

/-- What each turn preserves, while the buffers are in order, all of them do. -/
theorem induct {P : YamuxSession → Prop} (hturns : ReflTransGen InboundTurn s s') (hw : s.Wf)
    (hs : P s) (hturn : ∀ a b, a.Wf → InboundTurn a b → P a → P b) : s'.Wf ∧ P s' := by
  induction hturns with
  | refl => exact ⟨hw, hs⟩
  | tail _ hlast ih => exact ⟨(hlast.pollStep ih.1).wf ih.1, hturn _ _ ih.1 hlast ih.2⟩

theorem pollSteps (hturns : ReflTransGen InboundTurn s s') (hw : s.Wf) :
    s'.Wf ∧ ReflTransGen PollStep s s' :=
  induct (P := ReflTransGen PollStep s) hturns hw .refl
    fun _ _ hwa hturn ha => ha.tail (hturn.pollStep hwa)

end InboundTurn

end YamuxLowMem
