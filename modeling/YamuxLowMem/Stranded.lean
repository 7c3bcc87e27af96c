/-
YamuxLowMem/Stranded.lean

When `poll_next` answers `Pending` with bytes still to write.

Then the last `poll_write` of the call should have been `Pending`, so that the
task is woken once the I/O object can take more.  There are two ways to miss
this.  `poll_next` only flushes when it has sent a frame in the same call
(`sent` is a local variable), so bytes left in the write buffer by an earlier
call are not offered again.  And when the transport has refused a frame but
the flush that follows empties the buffer, the frame stays queued with nothing
to wait for.  Apart from these, the call really is blocked.

Both can be told before the call: the one from what arrives and what the heads
have to say, the other from how the I/O object goes on to answer.
-/
import YamuxLowMem.Forecast

namespace YamuxLowMem

open Async

namespace YamuxSession

/-- Something is still to be written. -/
def Unsent (s : YamuxSession) : Prop := s.outQueue ≠ [] ∨ s.transport.buffered ≠ []

/-- The last `poll_write` of the call was answered `Pending`. -/
def Blocked (s : YamuxSession) : Prop := s.transport.stream.calls.getLast? = some .pending

instance (s : YamuxSession) : Decidable s.Unsent := inferInstanceAs (Decidable (_ ∨ _))

instance (s : YamuxSession) : Decidable s.Blocked := inferInstanceAs (Decidable (_ = _))

/-- Bytes are left over from an earlier call, and there is nothing to send. -/
def LeftOver (s : YamuxSession) (fs : List Frame) : Prop :=
  s.transport.buffered ≠ [] ∧ s.outQueue ++ fs = []

instance (s : YamuxSession) (fs : List Frame) : Decidable (s.LeftOver fs) :=
  inferInstanceAs (Decidable (_ ∧ _))

/-- How a call that goes on to the heads can answer `Pending` without being
blocked, when the frames `fs` come up in it.  A flush follows the second loop
only if one of the loops has admitted a frame. -/
def StrandedBy (s : YamuxSession) (fs : List Frame) : Prop :=
  s.LeftOver fs ∨ Overtaken (s.secondRound fs) ∧ (s.secondRound fs).rest ≠ s.outQueue ++ fs

instance (s : YamuxSession) (fs : List Frame) : Decidable (s.StrandedBy fs) :=
  inferInstanceAs (Decidable (_ ∨ _))

/-- How a call can answer `Pending` without being blocked; once `close` has been
called, when the I/O object takes the bytes but is not closed yet. -/
def Stranded (s : YamuxSession) (order : List StreamID) : Prop :=
  s.manualClose = false ∧ (∃ fs ∈ s.arriving, s.StrandedBy (s.upcoming fs order)) ∨
    s.manualClose = true ∧ Overtaken s.firstRound ∧ s.transport.stream.pollClose.1 = .pending

instance (s : YamuxSession) (order : List StreamID) : Decidable (s.Stranded order) :=
  inferInstanceAs (Decidable (_ ∨ _))

variable {s s' s₂ : YamuxSession} {t t' : YamuxTransport} {order : List StreamID}
  {p : Gate.Passage IoError Frame}

/-! ### The end of a call -/

/-- With nothing to send, the write side is not touched. -/
theorem Sending.untouched {sent : Bool} (hsend : Sending s false t [] [])
    (hread : Reading { s with transport := t, outQueue := [] } none s₂)
    (hsend' : Sending (s₂.drainAll order) sent t' [] []) :
    t'.buffered = s.transport.buffered ∧ t'.stream.calls = s.transport.stream.calls := by
  have hin := hread.inbound
  rw [hsend.run.idle rfl rfl] at hin
  rw [hsend'.run.idle rfl rfl, (s₂.drainAll_frame order).1, YamuxTransport.buffered, hin.writer]
  exact ⟨rfl, hin.calls⟩

/-- Where a frame is left queued, the flush that follows leaves the call blocked
or empties the buffer. -/
theorem overtaken_of_flush (hw : s.Wf) (hround : Round p s.transport s.outQueue)
    (hwrite : s.transport.pollWrite = some (.ready (.ok ()), t))
    (hflush : YamuxTransport.Flush (.ready (.ok ())) s.transport t)
    (hunsent : s.outQueue ≠ [] ∨ t.buffered ≠ []) : Overtaken p := by
  refine ⟨?_, hround.flush hw.writer hwrite⟩
  rw [hround.rest]
  exact hunsent.resolve_right fun h => h (hflush.flushed.done rfl)

/-- The flush of a call that has sent something leaves it blocked or overtaken. -/
theorem flushSent_pending (hw : s.Wf) (hround : Round p s.transport s.outQueue)
    (h : s.flushSent true = some (.pending, s')) (hunsent : s'.Unsent) :
    s'.Blocked ∨ Overtaken p := by
  obtain ⟨result, t, hwrite, hflush, hsent⟩ := flushSent_spec hw
  rw [hsent] at h
  rcases result with - | e | u
  · obtain rfl := (Prod.mk.inj (Option.some.inj h)).2
    exact Or.inl (hflush.flushed.pending rfl).1
  · cases h
  · obtain rfl := (Prod.mk.inj (Option.some.inj h)).2
    exact Or.inr (overtaken_of_flush hw hround hwrite hflush hunsent)

/-- So does closing the transport. -/
theorem pollClosing_pending (hw : s.Wf) (hround : Round p s.transport s.outQueue)
    (h : s.pollClosing = some (.pending, s')) (hunsent : s'.Unsent) :
    s'.Blocked ∨ Overtaken p ∧ s.transport.stream.pollClose.1 = .pending := by
  obtain ⟨result, t, hwrite, hflush, hclosing⟩ := pollClosing_spec hw
  rw [hclosing] at h
  rcases result with - | e | u
  · obtain rfl := (Prod.mk.inj (Option.some.inj h)).2
    exact Or.inl (hflush.flushed.pending rfl).1
  · cases h
  · obtain ⟨hanswer, rfl⟩ := Prod.mk.inj (Option.some.inj h)
    refine Or.inr ⟨overtaken_of_flush hw hround hwrite hflush hunsent, ?_⟩
    rw [← pollClose_eq hflush.flushed.closes]
    cases hclose : t.stream.pollClose.1 with
    | pending => rfl
    | ready r =>
        rw [hclose] at hanswer
        cases hanswer

/-- A call that is overtaken has flushed all there was, and the frame is left. -/
theorem Overtaken.flush (h : Overtaken p) (hw : s.Wf) (hround : Round p s.transport s.outQueue)
    (hbuffered : s.transport.buffered ≠ []) :
    ∃ t, s.transport.pollWrite = some (.ready (.ok ()), t) ∧
      t.stream.calls.getLast? ≠ some .pending ∧
      t.stream.pollClose.1 = s.transport.stream.pollClose.1 := by
  obtain ⟨result, t, hwrite, hflush⟩ := YamuxTransport.pollWrite_spec hw.writer
  have hdone := (hround.flush hw.writer hwrite).symm.trans h.2
  rcases result with - | e | u
  · cases hdone
  · cases hdone
  · exact ⟨t, hwrite, hflush.flushed.last (fun h => by cases h) hbuffered,
      pollClose_eq hflush.flushed.closes⟩

end YamuxSession

/-! ### Pending and blocked -/

section Call

variable {s : YamuxSession} {order : List StreamID}

open YamuxSession

/-- A call that answers `Pending` with something unsent is blocked, unless it
is stranded. -/
theorem blocked_of_not_stranded (hw : s.Wf) (hp : s.transport.writer.buffer.Packed)
    (hnodup : order.Nodup) (hnot : ¬ s.Stranded order) {s' : YamuxSession}
    (hpoll : s.pollNext order = some (.pending, s')) (hunsent : s'.Unsent) : s'.Blocked := by
  cases s.course hw order with
  | closing hsend hclose hclosing =>
      have hround := hsend.first hw hp
      rcases pollClosing_pending hsend.wf hround (hclosing.symm.trans hpoll) hunsent with h | h
      · exact h
      · obtain ⟨hover, hio⟩ := h
        have hio' := (pollClose_eq hsend.run.closes).symm.trans hio
        exact absurd (Or.inr ⟨hclose, hover, hio'⟩) hnot
  | answered _ _ hread hanswer =>
      exact absurd (congrArg some (Prod.mk.inj (Option.some.inj (hanswer.symm.trans hpoll))).1)
        hread.ready
  | @drained t t' done rest done' rest' s₂ hsend hclose hread hsend' hflush =>
      obtain ⟨fs, hfs, hsplit', hround⟩ := hsend.second hw hp hread hnodup hsend'
      have hqueue : s.outQueue ++ s.upcoming fs order = done ++ done' ++ rest' := by
        rw [hsend.split, List.append_assoc, hsplit', List.append_assoc]
      have hnot' : ¬ s.StrandedBy (s.upcoming fs order) := fun h =>
        hnot (Or.inl ⟨hclose, fs, hfs, h⟩)
      rw [hflush] at hpoll
      cases hsent : (false || !done.isEmpty) || !done'.isEmpty with
      | true =>
          rw [hsent] at hpoll
          rcases flushSent_pending hsend'.wf hround hpoll hunsent with h | hover
          · exact h
          · refine absurd (Or.inr ⟨hover, fun hsame => ?_⟩) hnot'
            rw [hround.rest, hqueue] at hsame
            have hnil := List.append_left_eq_self.mp hsame.symm
            simp [List.append_eq_nil_iff.mp hnil] at hsent
      | false =>
          -- neither loop has sent anything, and nothing is flushed
          rw [hsent] at hpoll
          obtain rfl := (Prod.mk.inj (Option.some.inj hpoll)).2
          obtain ⟨rfl, rfl⟩ : done = [] ∧ done' = [] := by simpa using hsent
          by_cases hrest' : rest' = []
          · -- nothing was queued either, so the bytes are left over
            have hempty : s.outQueue ++ s.upcoming fs order = [] := by rw [hqueue, hrest']; rfl
            refine absurd (Or.inl ⟨?_, hempty⟩) hnot'
            subst hrest'
            obtain rfl : rest = [] := (hsend.split.symm.trans (List.append_eq_nil_iff.mp hempty).1)
            rw [← (hsend.untouched hread hsend').1]
            exact hunsent.resolve_left fun h => h rfl
          · exact (hsend'.run.refused hrest').1

/-- A stranded call answers `Pending` with something unsent, and is not blocked. -/
theorem YamuxSession.Stranded.not_blocked (h : s.Stranded order) (hw : s.Wf)
    (hp : s.transport.writer.buffer.Packed) (hnodup : order.Nodup)
    (hcalls : s.transport.stream.calls = []) :
    ∃ s', s.pollNext order = some (.pending, s') ∧ s'.Unsent ∧ ¬ s'.Blocked := by
  rcases h with ⟨hopen, fs, hfs, hby⟩ | ⟨hclose, hover, hio⟩
  · cases s.course hw order with
    | closing _ hclose => exact absurd (hopen.symm.trans hclose) Bool.noConfusion
    | answered hsend _ hread =>
        rw [hsend.arriving_none hread] at hfs
        cases hfs
    | @drained t t' done rest done' rest' s₂ hsend _ hread hsend' hflush =>
        obtain ⟨fs', hfs', hsplit', hround⟩ := hsend.second hw hp hread hnodup hsend'
        obtain rfl : fs = fs' := Option.some.inj (hfs.symm.trans hfs')
        have hqueue : s.outQueue ++ s.upcoming fs order = done ++ done' ++ rest' := by
          rw [hsend.split, List.append_assoc, hsplit', List.append_assoc]
        rcases hby with ⟨hbuffered, hempty⟩ | ⟨hover, hsends⟩
        · rw [hqueue] at hempty
          obtain ⟨hdone, rfl⟩ := List.append_eq_nil_iff.mp hempty
          obtain ⟨rfl, rfl⟩ := List.append_eq_nil_iff.mp hdone
          obtain rfl : rest = [] := (List.append_eq_nil_iff.mp hsplit').1
          obtain ⟨hkept, hnone⟩ := hsend.untouched hread hsend'
          refine ⟨_, hflush, Or.inr (hkept ▸ hbuffered), ?_⟩
          simp [Blocked, hnone, hcalls]
        · -- the flush has written everything where the send loop was refused
          have hleft : rest' ≠ [] := hround.rest ▸ hover.1
          obtain ⟨t₃, hwrite, hlast, -⟩ :=
            hover.flush hsend'.wf hround (hsend'.run.refused hleft).2.1
          have hsent : ((false || !done.isEmpty) || !done'.isEmpty) = true := by
            rw [hround.rest, hqueue] at hsends
            by_contra hnone
            obtain ⟨rfl, rfl⟩ : done = [] ∧ done' = [] := by simpa using hnone
            exact hsends rfl
          refine ⟨{ s₂.drainAll order with transport := t₃, outQueue := rest' }, ?_, Or.inl hleft,
            hlast⟩
          rw [hflush, hsent]
          simp [flushSent, YamuxTransport.pollFlush, hwrite]
  · cases s.course hw order with
    | answered _ hopen | drained _ hopen => exact absurd (hopen.symm.trans hclose) Bool.noConfusion
    | @closing t done rest hsend _ hclosing =>
        have hround := hsend.first hw hp
        have hleft : rest ≠ [] := hround.rest ▸ hover.1
        obtain ⟨t₂, hwrite, hlast, hcloses⟩ :=
          hover.flush hsend.wf hround (hsend.run.refused hleft).2.1
        obtain ⟨result, t₂', hwrite', -, hspec⟩ := pollClosing_spec hsend.wf
        cases hwrite.symm.trans hwrite'
        have hpending : t₂.stream.pollClose.1 = .pending :=
          hcloses.trans ((pollClose_eq hsend.run.closes).trans hio)
        have hcalls' : t₂.stream.pollClose.2.calls = t₂.stream.calls := by
          simp only [Io.pollClose]
          split <;> rfl
        rw [hclosing, hspec]
        simp only [hpending, Poll.isReady_pending, Bool.false_eq_true, if_false]
        refine ⟨_, rfl, Or.inl hleft, ?_⟩
        show t₂.stream.pollClose.2.calls.getLast? ≠ some .pending
        rw [hcalls']
        exact hlast

end Call

/-- In every reachable state, whatever the I/O object answers: "if `poll_next`
answers `Pending` with something unsent, then its last `poll_write` was
answered `Pending`" holds exactly when the call is not stranded. -/
theorem pending_blocked_iff {isServer : Bool} {maxWriteBuffer : Nat} {s : YamuxSession}
    (h : (sessionMachine isServer maxWriteBuffer anything).Reachable s)
    (writes : List (Poll (Except IoError Nat))) (reads : List (Poll (Except IoError Bytes)))
    (closes : List (Poll (Except IoError Unit))) {order : List StreamID}
    (horder : IsOrder s order) :
    (∀ s', (s.behave writes reads closes).pollNext order = some (.pending, s') →
        s'.Unsent → s'.Blocked) ↔
      ¬ (s.behave writes reads closes).Stranded order := by
  have hw := (sessionMachine_reachable h).wf
  have hp := sessionMachine_packed h
  have hw' : (s.behave writes reads closes).Wf := ⟨hw.writer, hw.reader⟩
  constructor
  · intro hall hstranded
    obtain ⟨s', hpoll, hunsent, hnot⟩ := hstranded.not_blocked hw' hp horder.1 rfl
    exact hnot (hall s' hpoll hunsent)
  · intro hnot s' hpoll hunsent
    exact blocked_of_not_stranded hw' hp horder.1 hnot hpoll hunsent

/-- An I/O object that takes five bytes of the buffer, and then no more. -/
def takesPart : List (Poll (Except IoError Nat)) := [.ready (.ok 5), .pending]

/-- One that takes nothing at first, and then whatever there is. -/
def turnsReady : List (Poll (Except IoError Nat)) := [.pending, .pending, .ready (.ok 100)]

/-- A `SYN` lies in the write buffer, and a byte has been written to the stream:
of the two objects the one leaves the call blocked, and the other strands it. -/
theorem pending_blocked_iff_written :
    ∃ s, (sessionMachine false 20 anything).Reachable s ∧
      (∃ s', (s.behave takesPart [] []).pollNext [⟨1⟩] = some (.pending, s') ∧ s'.Unsent ∧
        s'.Blocked) ∧
      ∃ s', (s.behave turnsReady [] []).pollNext [⟨1⟩] = some (.pending, s') ∧ s'.Unsent ∧
        ¬ s'.Blocked := by
  have hrun : ((YamuxSession.new Io.new false 20).run
      [.openStream, .poll [] [] [] [⟨1⟩], .handle (.registered ⟨1⟩) (.write [7])]).map (fun s =>
        decide (IsOrder s [⟨1⟩] ∧ ¬ (s.behave takesPart [] []).Stranded [⟨1⟩] ∧
          (s.behave turnsReady [] []).Stranded [⟨1⟩]) &&
          ((s.behave takesPart [] []).pollNext [⟨1⟩]).any fun r =>
            decide (r.1 = .pending ∧ r.2.Unsent)) = some true := by decide +kernel
  obtain ⟨s, hreach, hs⟩ := exists_of_run false 20 _ hrun
  rw [Bool.and_eq_true, Option.any_eq_true, decide_eq_true_eq] at hs
  obtain ⟨⟨horder, hnot, hstranded⟩, ⟨answer, s'⟩, hpoll, hr⟩ := hs
  obtain ⟨rfl, hunsent⟩ : answer = .pending ∧ s'.Unsent := of_decide_eq_true hr
  refine ⟨s, hreach, ⟨s', hpoll, hunsent, ?_⟩, ?_⟩
  · exact (pending_blocked_iff hreach _ _ _ horder).mpr hnot s' hpoll hunsent
  · by_contra hnone
    simp only [not_exists, not_and, not_not] at hnone
    exact (pending_blocked_iff hreach _ _ _ horder).mp hnone hstranded

/-- A stream is opened and polled while the I/O object takes nothing; the
`SYN` stays in the write buffer. -/
def stalledOpen : List Move := [.openStream, .poll [] [] [] [⟨1⟩]]

/-- The next poll answers `Pending` without offering the buffered `SYN` again. -/
theorem pending_not_blocked :
    ¬ ∀ (isServer : Bool) (maxWriteBuffer : Nat) (s : YamuxSession),
      (sessionMachine isServer maxWriteBuffer anything).Reachable s →
      ∀ writes reads closes order, IsOrder s order →
      ∀ s', (s.behave writes reads closes).pollNext order = some (.pending, s') →
        s'.Unsent → s'.Blocked := by
  intro hall
  obtain ⟨s, s', hreach, horder, hpoll, hs'⟩ := exists_poll_of_run false 0 stalledOpen
    (fun s => s.behave [] [] []) [⟨1⟩] .pending
    (p := fun s' => decide s'.Unsent && !decide s'.Blocked) (by decide +kernel)
  obtain ⟨hunsent, hnot⟩ := Bool.and_eq_true _ _ ▸ hs'
  have hblocked := hall false 0 s hreach [] [] [] [⟨1⟩] horder s' hpoll
    (of_decide_eq_true hunsent)
  simp [hblocked] at hnot

end YamuxLowMem
