/-
YamuxLowMem/FinOrder.lean

What makes a head put out its `FIN`, and what comes after it.

The end of the stream is signalled on the channel from the handle in two ways:
by closing it, and by an empty chunk.  `poll_write` of an empty slice sends an
empty chunk too, and the loop of `poll_next` goes on after one.  So a head may
put out `FIN` although nobody has closed the handle, and data after its `FIN`.
The latter also happens when a `RST` has closed both halves with chunks still
waiting, and an `ACK` opens the remote half again.  Apart from these, a `FIN`
has its cause and is final.
-/
import YamuxLowMem.HeadGrammar
import YamuxLowMem.PairBytes

namespace YamuxLowMem

open Async Relation

/-! ### What the loop of `poll_next` puts out -/

namespace YamuxStreamHead

/-- The events the loop of `poll_next` puts out for the chunks waiting in `rx`. -/
def drained (h : YamuxStreamHead) (senderOpen : Bool) : List Bytes → List FrameStreamEvent
  | [] =>
      if defaultChunkCapacity ≤ h.window.send ∧ senderOpen = false ∧ h.state.localOpen then
        [finEvent]
      else []
  | chunk :: rest =>
      if defaultChunkCapacity ≤ h.window.send then
        if chunk.isEmpty then
          (if h.state.localOpen then [finEvent] else []) ++ h.tryCloseLocal.drained senderOpen rest
        else
          .data Flags.empty (UInt32.ofNat chunk.length) :: .dataChunk chunk ::
            (h.sendChunk chunk).drained senderOpen rest
      else []

theorem tryCloseLocal_outs (h : YamuxStreamHead) :
    h.tryCloseLocal.outs = h.outs ++ if h.state.localOpen then [finEvent] else [] := by
  rw [tryCloseLocal_eq]

@[simp] theorem tryCloseLocal_localOpen (h : YamuxStreamHead) :
    h.tryCloseLocal.state.localOpen = false := by
  rw [tryCloseLocal_eq]

@[simp] theorem tryCloseLocal_window (h : YamuxStreamHead) :
    h.tryCloseLocal.window = h.window := by
  rw [tryCloseLocal_eq]

theorem drainRx_outs (h : YamuxStreamHead) (senderOpen : Bool) (queue : List Bytes) :
    (h.drainRx senderOpen queue).1.outs = h.outs ++ h.drained senderOpen queue := by
  induction queue generalizing h with
  | nil =>
      simp only [drainRx, drained]
      by_cases hroom : defaultChunkCapacity ≤ h.window.send ∧ senderOpen = false
      · rw [if_pos hroom, tryCloseLocal_outs]
        cases hlocal : h.state.localOpen <;> simp [hroom.1, hroom.2]
      · rw [if_neg hroom, if_neg (fun hall => hroom ⟨hall.1, hall.2.1⟩), List.append_nil]
  | cons chunk rest ih =>
      simp only [drainRx, drained]
      by_cases hroom : defaultChunkCapacity ≤ h.window.send
      · rw [if_pos hroom, if_pos hroom]
        cases chunk with
        | nil =>
            simp only [List.isEmpty_nil, if_true]
            rw [ih, tryCloseLocal_outs, List.append_assoc]
        | cons b bs =>
            simp only [List.isEmpty_cons, Bool.false_eq_true, if_false]
            rw [ih, sendChunk, List.append_assoc]
            rfl
      · rw [if_neg hroom, if_neg hroom, List.append_nil]

end YamuxStreamHead

namespace StreamPair

/-- A poll of the head takes chunks only when nothing is queued and the stream
is not over. -/
def drains (p : StreamPair) : Bool := p.head.outs.isEmpty && !p.head.state.isClosed

theorem pollNext_history (p : StreamPair) :
    p.pollNext.2.history = p.history ++
      if p.drains then p.head.drained p.up.senderOpen p.up.queue else [] := by
  have hdrain := p.head.drainRx_outs p.up.senderOpen p.up.queue
  cases ho : p.head.outs with
  | cons e rest =>
      simp [pollNext, YamuxStreamHead.pollNext, history, drains, ho]
  | nil =>
      cases hc : p.head.state.isClosed with
      | true => simp [pollNext, YamuxStreamHead.pollNext, history, drains, ho, hc]
      | false =>
          rw [ho, List.nil_append] at hdrain
          simp only [pollNext, YamuxStreamHead.pollNext, history, drains, ho, hc]
          rw [← hdrain]
          generalize p.head.drainRx p.up.senderOpen p.up.queue = drained
          obtain ⟨h', queue'⟩ := drained
          cases ho' : h'.outs <;> simp [ho']

end StreamPair

/-! ### Data after `FIN` -/

/-- Does a sequence contain a data header? -/
def dataIn (es : List FrameStreamEvent) : Bool :=
  es.any fun
    | .data _ _ => true
    | _ => false

@[simp] theorem dataIn_append (es es' : List FrameStreamEvent) :
    dataIn (es ++ es') = (dataIn es || dataIn es') := List.any_append

/-- No data header comes after a `FIN`. -/
def Silent : List FrameStreamEvent → Prop
  | [] => True
  | e :: es => (e.carries Flags.fin = true → dataIn es = false) ∧ Silent es

theorem silent_append {es es' : List FrameStreamEvent} :
    Silent (es ++ es') ↔
      Silent es ∧ Silent es' ∧ (carried Flags.fin es = true → dataIn es' = false) := by
  induction es with
  | nil => simp [Silent]
  | cons e es ih =>
      simp only [List.cons_append, Silent, ih, dataIn_append, Bool.or_eq_false_iff,
        carried_cons, Bool.or_eq_true]
      constructor
      · rintro ⟨he, hes, hes', hfin⟩
        refine ⟨⟨fun h => (he h).1, hes⟩, hes', ?_⟩
        rintro (h | h)
        · exact (he h).2
        · exact hfin h
      · rintro ⟨⟨he, hes⟩, hes', hfin⟩
        exact ⟨fun h => ⟨he h, hfin (Or.inl h)⟩, hes, hes', fun h => hfin (Or.inr h)⟩

theorem silent_chunk {size : UInt32} {chunk : Bytes} {es : List FrameStreamEvent} :
    Silent (.data Flags.empty size :: .dataChunk chunk :: es) ↔ Silent es := by
  simp [Silent, FrameStreamEvent.carries, FrameStreamEvent.flags, Flags.empty]

/-! ### When the loop closes the local half in order -/

namespace YamuxStreamHead

variable {h : YamuxStreamHead}

/-- With the local half closed, the loop puts out data exactly when it finds
some and has room. -/
theorem drained_closed (senderOpen : Bool) (queue : List Bytes)
    (hlocal : h.state.localOpen = false) :
    carried Flags.fin (h.drained senderOpen queue) = false ∧ Silent (h.drained senderOpen queue) ∧
      (dataIn (h.drained senderOpen queue) = false ↔
        (defaultChunkCapacity ≤ h.window.send → queue.flatten = [])) := by
  induction queue generalizing h with
  | nil => simp [drained, hlocal, Silent, dataIn]
  | cons chunk rest ih =>
      by_cases hroom : defaultChunkCapacity ≤ h.window.send
      · cases chunk with
        | nil =>
            simpa [drained, hroom, hlocal] using ih h.tryCloseLocal_localOpen
        | cons b bs =>
            obtain ⟨hfin, hsilent, -⟩ := ih (h := h.sendChunk (b :: bs)) hlocal
            simp [drained, hroom, hfin, Silent, hsilent, FrameStreamEvent.carries,
              FrameStreamEvent.flags, Flags.empty, dataIn]
      · simp [drained, hroom, Silent, dataIn]

/-- With the local half open, an empty chunk in front closes it: the rest of
the loop then puts out nothing exactly when no data is left. -/
theorem drained_end {senderOpen caused : Bool} {rest : List Bytes}
    (hlocal : h.state.localOpen = true) (hroom : defaultChunkCapacity ≤ h.window.send) :
    ((carried Flags.fin (h.drained senderOpen ([] :: rest)) = true → caused = true) ∧
        Silent (h.drained senderOpen ([] :: rest))) ↔ caused = true ∧ rest.flatten = [] := by
  obtain ⟨-, hsilent, hdata⟩ := drained_closed senderOpen rest h.tryCloseLocal_localOpen
  rw [h.tryCloseLocal_window] at hdata
  have hd : h.drained senderOpen ([] :: rest) =
      finEvent :: h.tryCloseLocal.drained senderOpen rest := by
    simp [drained, hroom, hlocal]
  rw [hd]
  constructor
  · rintro ⟨hcaused, hfinal, -⟩
    exact ⟨hcaused rfl, hdata.mp (hfinal carries_finEvent) hroom⟩
  · rintro ⟨hcaused, hrest⟩
    exact ⟨fun _ => hcaused, fun _ => hdata.mpr fun _ => hrest, hsilent⟩

/-- With room for it, a chunk in front is put out. -/
theorem drained_chunk {senderOpen : Bool} {chunk : Bytes} {rest : List Bytes} (hne : chunk ≠ [])
    (hroom : defaultChunkCapacity ≤ h.window.send) :
    h.drained senderOpen (chunk :: rest) =
      .data Flags.empty (UInt32.ofNat chunk.length) :: .dataChunk chunk ::
        (h.sendChunk chunk).drained senderOpen rest := by
  cases chunk with
  | nil => exact absurd rfl hne
  | cons b bs => simp [drained, hroom]

/-- The empty chunks within reach behind a chunk are those within reach once it
has been taken. -/
theorem ends_behind {P : List Bytes → Prop} {chunk : Bytes} {rest : List Bytes} {send : Nat}
    (hne : chunk ≠ []) (hlen : chunk.length ≤ defaultChunkCapacity)
    (hroom : defaultChunkCapacity ≤ send) :
    (∀ a b, rest = a ++ [] :: b →
        defaultChunkCapacity + a.flatten.length ≤ send - chunk.length → P b) ↔
      ∀ a b, chunk :: rest = a ++ [] :: b →
        defaultChunkCapacity + a.flatten.length ≤ send → P b := by
  constructor
  · intro hall a b hab hreach
    cases a with
    | nil => exact absurd (List.cons.inj hab).1 hne
    | cons x a =>
        obtain ⟨rfl, hrest⟩ := List.cons.inj hab
        apply hall a b hrest
        rw [List.flatten_cons, List.length_append] at hreach
        omega
  · intro hall a b hab hreach
    apply hall (chunk :: a) b
    · rw [hab]
      rfl
    · rw [List.flatten_cons, List.length_append]
      omega

/-- With the local half open, the loop closes it for the cause `caused` and
puts out nothing but `FIN` then, exactly when every empty chunk within reach has
that cause and only empty chunks behind it. -/
theorem drained_open {senderOpen caused : Bool} (queue : List Bytes)
    (hsender : senderOpen = false → caused = true)
    (hqueue : ∀ c ∈ queue, c.length ≤ defaultChunkCapacity)
    (hlocal : h.state.localOpen = true) :
    ((carried Flags.fin (h.drained senderOpen queue) = true → caused = true) ∧
        Silent (h.drained senderOpen queue)) ↔
      ∀ a b, queue = a ++ [] :: b → defaultChunkCapacity + a.flatten.length ≤ h.window.send →
        caused = true ∧ b.flatten = [] := by
  induction queue generalizing h with
  | nil =>
      apply iff_of_true
      · simp only [drained]
        split
        · rename_i hgone
          exact ⟨fun _ => hsender hgone.2.1, fun _ => rfl, trivial⟩
        · exact ⟨fun hc => (by cases hc), trivial⟩
      · intro a b hab
        simp at hab
  | cons chunk rest ih =>
      by_cases hroom : defaultChunkCapacity ≤ h.window.send
      · cases chunk with
        | nil =>
            rw [drained_end hlocal hroom]
            constructor
            · rintro ⟨hcaused, hrest⟩ a b hab _
              refine ⟨hcaused, ?_⟩
              -- the empty chunk is the one in front, or lies behind it
              cases a with
              | nil =>
                  obtain rfl : rest = b := (List.cons.inj hab).2
                  exact hrest
              | cons x a =>
                  have htail : rest = a ++ [] :: b := (List.cons.inj hab).2
                  rw [htail, List.flatten_append, List.flatten_cons, List.append_eq_nil_iff,
                    List.append_eq_nil_iff] at hrest
                  exact hrest.2.2
            · intro hall
              exact hall [] rest rfl hroom
        | cons b bs =>
            have hne : b :: bs ≠ [] := List.cons_ne_nil b bs
            have hnext := ih (h := h.sendChunk (b :: bs))
              (fun c hc => hqueue c (List.mem_cons_of_mem _ hc)) hlocal
            rw [drained_chunk hne hroom, silent_chunk]
            exact hnext.trans (ends_behind hne (hqueue _ List.mem_cons_self) hroom)
      · apply iff_of_true
        · simp only [drained, if_neg hroom]
          exact ⟨fun hc => (by cases hc), trivial⟩
        · intro a b _ hreach
          omega

end YamuxStreamHead

/-! ### The rule -/

/-- `FIN` has its cause, comes once, and no data header comes after it. -/
structure FinRule (caused : Bool) (es : List FrameStreamEvent) : Prop where
  caused : carried Flags.fin es = true → caused = true
  once : finCount es ≤ 1
  silent : Silent es

theorem FinRule.left {caused : Bool} {es es' : List FrameStreamEvent}
    (h : FinRule caused (es ++ es')) : FinRule caused es := by
  refine ⟨?_, ?_, (silent_append.mp h.silent).1⟩
  · intro hfin
    apply h.caused
    rw [carried_append, hfin, Bool.true_or]
  · have honce := h.once
    rw [finCount_append] at honce
    omega

namespace StreamPair

/-- The handle has been closed or dropped, or a `RST` has arrived. -/
def closeCause (p : StreamPair) : Bool := !p.up.senderOpen || carried Flags.rst p.inputs

/-- A poll that takes chunks finds no data behind a closed local half, and
within reach no empty chunk but one with a cause and with no data behind it. -/
def EndsInOrder (p : StreamPair) : Prop :=
  p.drains = true → defaultChunkCapacity ≤ p.head.window.send →
    (p.head.state.localOpen = false → p.up.queue.flatten = []) ∧
      ∀ a b, p.up.queue = a ++ [] :: b →
        defaultChunkCapacity + a.flatten.length ≤ p.head.window.send →
        p.closeCause = true ∧ b.flatten = []

variable {p q : StreamPair}

theorem pollNext_closeCause : p.pollNext.2.closeCause = p.closeCause := by
  simp only [closeCause, pollNext_inputs]
  congr 2
  simp only [pollNext, YamuxStreamHead.pollNext]
  split
  · rfl
  · split
    · rfl
    · split <;> rfl

/-- The handle only ever closes the channel. -/
theorem handleOp_closeCause (op : HandleOp) (h : p.closeCause = true) :
    (p.handleOp op).closeCause = true := by
  rw [closeCause, (p.handleOp_frame op).2.2]
  by_cases hh : p.handleAlive
  · simp only [handleOp, if_pos hh]
    cases op with
    | write buf =>
        simp only [pollWrite, YamuxStream.pollWrite]
        split
        · exact h
        · exact h
        · simp only [Channel.startSend]
          split_ifs <;> exact h
    | close | drop => rfl
    | read bufLen => exact h
  · simp only [handleOp, if_neg hh]
    exact h

/-- What arrives puts out `FIN` only if it is a `RST`, and never data. -/
theorem answers_spec (p : StreamPair) (e : FrameStreamEvent) :
    dataIn (p.answers e) = false ∧ Silent (p.answers e) ∧
      (carried Flags.fin (p.answers e) = true → e.carries Flags.rst = true) := by
  cases e with
  | dataChunk bytes =>
      rw [answers]
      split
      · exact ⟨rfl, ⟨fun _ => rfl, trivial⟩, fun hc => (by cases hc)⟩
      · exact ⟨rfl, trivial, fun hc => (by cases hc)⟩
  | data flags size | windowUpdate flags delta =>
      refine ⟨?_, ?_, ?_⟩
      · rw [answers]
        split <;> rfl
      · rw [answers]
        split <;> simp [Silent, dataIn]
      · cases hrst : flags.rst <;>
          simp [answers, hrst, FrameStreamEvent.carries, FrameStreamEvent.flags]

/-- A poll that takes chunks with the local half closed. -/
theorem finRule_closed_iff {opened : Bool} {id : StreamID} (hreach : PairReachable opened id p)
    (hp : FinRule p.closeCause p.history) (hd : p.drains = true)
    (honce : finCount (p.history ++ p.head.drained p.up.senderOpen p.up.queue) ≤ 1)
    (hlocal : p.head.state.localOpen = false) :
    FinRule p.closeCause (p.history ++ p.head.drained p.up.senderOpen p.up.queue) ↔
      p.EndsInOrder := by
  obtain ⟨-, hsilent, hdata⟩ :=
    YamuxStreamHead.drained_closed p.up.senderOpen p.up.queue hlocal
  have hcarried : carried Flags.fin p.history = true := by
    rw [hreach.fin_history, hlocal]
    rfl
  have hcause := hp.caused hcarried
  constructor
  · intro hrule _ hroom
    -- `FIN` is out, so no data may follow
    have hflat := hdata.mp ((silent_append.mp hrule.silent).2.2 hcarried) hroom
    refine ⟨fun _ => hflat, ?_⟩
    intro a b hab _
    rw [hab, List.flatten_append, List.flatten_cons, List.append_eq_nil_iff,
      List.append_eq_nil_iff] at hflat
    exact ⟨hcause, hflat.2.2⟩
  · intro horder
    refine ⟨fun _ => hcause, honce, silent_append.mpr ⟨hp.silent, hsilent, ?_⟩⟩
    intro _
    exact hdata.mpr fun hroom => (horder hd hroom).1 hlocal

/-- A poll that takes chunks with the local half open. -/
theorem finRule_open_iff {opened : Bool} {id : StreamID} (hreach : PairReachable opened id p)
    (hp : FinRule p.closeCause p.history) (hd : p.drains = true)
    (honce : finCount (p.history ++ p.head.drained p.up.senderOpen p.up.queue) ≤ 1)
    (hlocal : p.head.state.localOpen = true) :
    FinRule p.closeCause (p.history ++ p.head.drained p.up.senderOpen p.up.queue) ↔
      p.EndsInOrder := by
  have hcarried : carried Flags.fin p.history = false := by
    rw [hreach.fin_history, hlocal]
    rfl
  have hsender : p.up.senderOpen = false → p.closeCause = true := by
    intro hs
    rw [closeCause, hs]
    rfl
  have hopen := YamuxStreamHead.drained_open p.up.queue hsender hreach.queue_bound.2 hlocal
  constructor
  · intro hrule _ hroom
    refine ⟨fun h => (by rw [hlocal] at h; cases h), hopen.mp ⟨?_, ?_⟩⟩
    · intro hc
      apply hrule.caused
      rw [carried_append, hc, Bool.or_true]
    · exact (silent_append.mp hrule.silent).2.1
  · intro horder
    obtain ⟨hcaused, hsilent⟩ := hopen.mpr fun a b hab hreach =>
      (horder hd (Nat.le_of_add_right_le hreach)).2 a b hab hreach
    -- no `FIN` was out before, so the events of this poll are all there is to see
    refine ⟨?_, honce, silent_append.mpr ⟨hp.silent, hsilent, ?_⟩⟩
    · rw [carried_append, hcarried, Bool.false_or]
      exact hcaused
    · intro hc
      rw [hcarried] at hc
      cases hc

/-- An accepted event keeps the rule. -/
theorem finRule_input (halive : p.headAlive) (hp : FinRule p.closeCause p.history)
    {e : FrameStreamEvent} (hin : p.onInput e = (.ok (), q)) (honce : finCount q.history ≤ 1) :
    FinRule q.closeCause q.history := by
  obtain ⟨hdata, hsilent, hrst⟩ := p.answers_spec e
  have hnew := (onInput_local hin).2
  have hinputs := (onInput_ok halive hin).2
  have hup : q.up = p.up := by
    have hup : (p.onInput e).2.up = p.up := rfl
    rwa [hin] at hup
  refine ⟨?_, honce, ?_⟩
  · rw [hnew, carried_append, Bool.or_eq_true]
    rintro (hc | hc)
    · -- an old `FIN` keeps its cause
      have hcause := hp.caused hc
      rw [closeCause, Bool.or_eq_true] at hcause ⊢
      rw [hup, hinputs, carried_append]
      exact hcause.imp_right fun h => by rw [h, Bool.true_or]
    · rw [closeCause, hinputs, carried_append, carried_cons, hrst hc, Bool.true_or, Bool.or_true,
        Bool.or_true]
  · rw [hnew]
    exact silent_append.mpr ⟨hp.silent, hsilent, fun _ => hdata⟩

/-- A step of a run keeps the rule unless it is a poll that takes chunks out of
order. -/
theorem finRule_step {opened : Bool} {id : StreamID} (hreach : PairReachable opened id p)
    (halive : p.headAlive) (hp : FinRule p.closeCause p.history) (op : PairOp) :
    FinRule (p.step op).closeCause (p.step op).history ↔ (op = .poll → p.EndsInOrder) := by
  have hreach' : PairReachable opened id (p.step op) := hreach.steps (step_steps halive op)
  have honce := hreach'.finCount_le
  cases op with
  | poll =>
      simp only [step, pollNext_closeCause, pollNext_history] at honce ⊢
      cases hd : p.drains with
      | false =>
          simp only [Bool.false_eq_true, if_false, List.append_nil]
          refine iff_of_true hp fun _ hdrains => ?_
          rw [hd] at hdrains
          cases hdrains
      | true =>
          rw [hd] at honce
          simp only [if_true, forall_const] at honce ⊢
          cases hlocal : p.head.state.localOpen with
          | false => exact finRule_closed_iff hreach hp hd honce hlocal
          | true => exact finRule_open_iff hreach hp hd honce hlocal
  | handle op =>
      obtain ⟨hhead, hemitted, -⟩ := p.handleOp_frame op
      have hhist : (p.handleOp op).history = p.history := by rw [history, hhead, hemitted]; rfl
      rw [step, hhist]
      refine iff_of_true ⟨?_, hp.once, hp.silent⟩ (fun h => by cases h)
      exact fun hc => handleOp_closeCause op (hp.caused hc)
  | input e =>
      refine iff_of_true ?_ (fun h => by cases h)
      cases hin : p.onInput e with
      | mk result q =>
          rw [step, hin] at honce ⊢
          cases result with
          | error err =>
              rw [onInput_error hin]
              exact hp
          | ok => exact finRule_input halive hp hin honce

end StreamPair

/-! ### Runs -/

/-- In every run of a head: what it puts out keeps the rule in every state
exactly when each poll that takes chunks finds them in order, and then what it
has yielded keeps the rule as well. -/
theorem fin_rule_iff (opened : Bool) (id : StreamID) (ops : List PairOp) :
    let p := fun pre => (StreamPair.create opened id).run pre
    ((∀ pre, pre <+: ops → FinRule (p pre).closeCause (p pre).history) ↔
        ∀ pre, pre ++ [.poll] <+: ops → (p pre).EndsInOrder) ∧
      ((∀ pre, pre ++ [.poll] <+: ops → (p pre).EndsInOrder) →
        ∀ pre, pre <+: ops → FinRule (p pre).closeCause (p pre).emitted) := by
  intro p
  have hinit : FinRule (StreamPair.create opened id).closeCause
      (StreamPair.create opened id).history := by
    cases opened <;> exact ⟨fun hc => (by cases hc), Nat.zero_le _, fun _ => rfl, trivial⟩
  have hruns := Run.throughout_iff StreamPair.step ops
    (P := fun p => FinRule p.closeCause p.history) (C := fun p op => op = .poll → p.EndsInOrder)
    hinit ?_
  · have hiff : (∀ pre, pre <+: ops → FinRule (p pre).closeCause (p pre).history) ↔
        ∀ pre, pre ++ [.poll] <+: ops → (p pre).EndsInOrder := by
      refine hruns.trans ⟨fun h pre hpre => h pre .poll hpre rfl, ?_⟩
      rintro h pre op hpre rfl
      exact h pre hpre
    exact ⟨hiff, fun horder pre hpre => (hiff.mpr horder pre hpre).left⟩
  · intro pre op _ hpre
    obtain ⟨hreach, halive⟩ := StreamPair.run_reachable opened id pre
    exact StreamPair.finRule_step hreach halive hpre op

/-- The application writes an empty slice, and the head yields `FIN`. -/
theorem fin_without_close :
    ¬ ∀ (opened : Bool) (id : StreamID) (ops : List PairOp),
      let p := (StreamPair.create opened id).run ops
      FinRule p.closeCause p.emitted := by
  intro h
  have hrule := h false ⟨1⟩ [.poll, .handle (.write []), .poll]
  exact absurd (hrule.caused (by decide)) (by decide)

end YamuxLowMem
