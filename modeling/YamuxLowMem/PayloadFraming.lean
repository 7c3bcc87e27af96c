/-
YamuxLowMem/PayloadFraming.lean

How a head frames the payload that comes in.

An event that is refused leaves the stream as it was, so a run goes on as if it
had not come.  From a data header on, what is still due and the chunks accepted
make up the size announced, until the next header; and what goes down to the
handle is these chunks, each once and in order, with nothing else between them
than the mark that a window update with `FIN` or `RST` makes.
-/
import YamuxLowMem.RemoteClosing

namespace YamuxLowMem

open Async Relation

/-! ### The chunks in the channel -/

/-- The chunks of a payload, as they come and as they are sent down: every one
goes down, and a window update may mark the end. -/
inductive Forwarded : List FrameStreamEvent → List Bytes → Prop where
  | nil : Forwarded [] []
  | chunk {es : List FrameStreamEvent} {items : List Bytes} (bytes : Bytes) :
      Forwarded es items → Forwarded (es ++ [.dataChunk bytes]) (items ++ [bytes])
  | update {es : List FrameStreamEvent} {items : List Bytes} (flags : Flags) (delta : UInt32) :
      Forwarded es items → Forwarded (es ++ [.windowUpdate flags delta]) items
  | mark {es : List FrameStreamEvent} {items : List Bytes} (flags : Flags) (delta : UInt32) :
      (flags.rst || flags.fin) = true → Forwarded es items →
      Forwarded (es ++ [.windowUpdate flags delta]) (items ++ [[]])

/-- No data header is among the events. -/
def NoHeader (es : List FrameStreamEvent) : Prop := ∀ flags size, .data flags size ∉ es

theorem noHeader_concat {es : List FrameStreamEvent} {e : FrameStreamEvent} :
    NoHeader (es ++ [e]) ↔ NoHeader es ∧ ∀ flags size, e ≠ .data flags size := by
  simp only [NoHeader, List.mem_append, List.mem_singleton, not_or, forall_and, ne_comm]

namespace StreamPair

variable {p q : StreamPair} {opened : Bool} {id : StreamID}

theorem forwarded_sentDown {es : List FrameStreamEvent} {items : List Bytes}
    {e : FrameStreamEvent} (h : Forwarded es items) (he : ∀ flags size, e ≠ .data flags size) :
    Forwarded (es ++ [e]) (items ++ p.sentDown e) := by
  cases e with
  | data flags size => exact absurd rfl (he flags size)
  | dataChunk bytes => exact .chunk bytes h
  | windowUpdate flags delta =>
      rw [sentDown]
      split
      · rename_i hends
        rw [YamuxStreamHead.endsRemote, Bool.and_eq_true] at hends
        exact .mark flags delta hends.2 h
      · rw [List.append_nil]
        exact .update flags delta h

/-! ### The payload that is due -/

/-- What is due after an event other than a header, with the payload of the event. -/
theorem onInput_due {e : FrameStreamEvent} (hin : p.onInput e = (.ok (), q))
    (he : ∀ flags size, e ≠ .data flags size) :
    q.head.recvState.getD 0 + e.payload.length = p.head.recvState.getD 0 := by
  cases e with
  | data flags size => exact absurd rfl (he flags size)
  | windowUpdate flags delta =>
      obtain rfl := onInput_window_ok hin
      rfl
  | dataChunk bytes =>
      obtain ⟨due, hr, hle, rfl⟩ := onInput_chunk_ok hin
      have hrest : (if due - bytes.length = 0 then none
          else some (due - bytes.length)).getD 0 = due - bytes.length := by
        split
        · exact Eq.symm (by assumption)
        · rfl
      rw [hr]
      show Option.getD _ 0 + bytes.length = due
      rw [hrest]
      exact Nat.sub_add_cancel hle

/-- A header is accepted exactly between payloads. -/
theorem accepts_header_iff {flags : Flags} {size : UInt32} :
    p.Accepts (.data flags size) ↔ p.head.recvState = none := by
  cases hr : p.head.recvState with
  | none => simp [Accepts, onInput_header hr]
  | some due => simp [Accepts, onInput, YamuxStreamHead.onInput, hr]

/-! ### From a header on -/

/-- The head has accepted the events `es` since `p`, where a payload of `n`
bytes had just been announced. -/
structure Framed (n : Nat) (p q : StreamPair) (es : List FrameStreamEvent) : Prop where
  inputs : q.inputs = p.inputs ++ es
  due : NoHeader es → q.head.recvState.getD 0 + (payloadOf es).length = n
  sent : NoHeader es → q.handleAlive = true →
    ∃ items, q.down.log = p.down.log ++ items ∧ Forwarded es items

namespace Framed

variable {n : Nat} {es : List FrameStreamEvent}

theorem start (h : p.head.recvState = some n) : Framed n p p [] := by
  refine ⟨(List.append_nil _).symm, fun _ => ?_, fun _ _ => ⟨[], (List.append_nil _).symm, .nil⟩⟩
  rw [h]
  rfl

/-- A move that takes nothing in. -/
theorem quiet {r : StreamPair} (h : Framed n p q es) (hinputs : r.inputs = q.inputs)
    (hrecv : r.head.recvState = q.head.recvState) (hlog : r.down.log = q.down.log)
    (hhandle : r.handleAlive = true → q.handleAlive = true) : Framed n p r es := by
  refine ⟨hinputs.trans h.inputs, ?_, ?_⟩
  · rw [hrecv]
    exact h.due
  · rw [hlog]
    exact fun hno hr => h.sent hno (hhandle hr)

/-- An event that is accepted. -/
theorem accept (hreach : PairReachable opened id q) (halive : q.headAlive)
    (h : Framed n p q es) {e : FrameStreamEvent} {r : StreamPair}
    (hin : q.onInput e = (.ok (), r)) : Framed n p r (es ++ [e]) := by
  obtain ⟨hstep, hinputs⟩ := onInput_ok halive hin
  refine ⟨?_, ?_, ?_⟩
  · rw [hinputs, h.inputs, List.append_assoc]
  · intro hno
    obtain ⟨hes, he⟩ := noHeader_concat.mp hno
    have hdue := onInput_due hin he
    have hbefore := h.due hes
    rw [payloadOf_append, payloadOf_cons, payloadOf_nil, List.append_nil, List.length_append]
    omega
  · intro hno hhandle
    obtain ⟨hes, he⟩ := noHeader_concat.mp hno
    have hhandle' := hstep.handleAlive hhandle
    obtain ⟨items, hlog, hitems⟩ := h.sent hes hhandle'
    refine ⟨items ++ q.sentDown e, ?_, forwarded_sentDown hitems he⟩
    rw [(onInput_remote hreach halive hin).2, if_pos hhandle', hlog, List.append_assoc]

/-- One step of a run. -/
theorem step (hreach : PairReachable opened id q) (halive : q.headAlive)
    (h : Framed n p q es) (op : PairOp) : ∃ es', Framed n p (q.step op) es' := by
  cases op with
  | poll => exact ⟨es, h.quiet pollNext_inputs pollNext_recvState rfl fun hh => hh⟩
  | handle op =>
      obtain ⟨hhead, -, hinputs⟩ := q.handleOp_frame op
      exact ⟨es, h.quiet hinputs (congrArg YamuxStreamHead.recvState hhead) (handleOp_downLog op)
        (step_handleAlive halive (.handle op))⟩
  | input e =>
      cases hin : q.onInput e with
      | mk result r =>
          cases result with
          | ok =>
              rw [StreamPair.step, hin]
              exact ⟨es ++ [e], h.accept hreach halive hin⟩
          | error err =>
              rw [(step_refused hin).1]
              exact ⟨es, h⟩

/-- The run from an accepted header on. -/
theorem run {pre : List PairOp} {flags : Flags} {size : UInt32}
    (haccepts : ((create opened id).run pre).Accepts (.data flags size)) (post : List PairOp) :
    let header : PairOp := .input (.data flags size)
    ∃ es, Framed size.toNat ((create opened id).run (pre ++ [header]))
      ((create opened id).run (pre ++ [header] ++ post)) es := by
  intro header
  induction post using List.reverseRecOn with
  | nil =>
      rw [List.append_nil]
      have hin := run_accepts haccepts
      rw [onInput_header (accepts_header_iff.mp haccepts)] at hin
      refine ⟨[], start ?_⟩
      rw [← (Prod.mk.inj hin).2]
  | append_singleton post op ih =>
      obtain ⟨es, hes⟩ := ih
      obtain ⟨hreach, halive⟩ := run_reachable opened id (pre ++ [header] ++ post)
      rw [← List.append_assoc, run_concat _ (pre ++ [header] ++ post)]
      exact hes.step hreach halive op

end Framed

/-! ### Refused events -/

/-- A refused event changes nothing. -/
theorem step_not_accepts {e : FrameStreamEvent} (h : ¬ p.Accepts e) : p.step (.input e) = p := by
  cases hin : p.onInput e with
  | mk result q =>
      cases result with
      | ok => exact absurd (by rw [Accepts, hin]) h
      | error err => exact (step_refused hin).1

theorem run_not_accepts {pre : List PairOp} {e : FrameStreamEvent} (h : ¬ (p.run pre).Accepts e)
    (post : List PairOp) : p.run (pre ++ .input e :: post) = p.run (pre ++ post) := by
  rw [run, List.foldl_append, List.foldl_cons, run, List.foldl_append]
  exact congrArg (post.foldl StreamPair.step) (step_not_accepts h)

end StreamPair

/-- In every run of a head, whatever is presented to it.  A refused event leaves
the head and the channels as they are, and the run goes on as if it had not
come.  After an accepted header, and before the next: window updates are
accepted; the chunks accepted are at most what was announced, and all of it when
another header is accepted; and while there is a handle they are what goes down
to it, in order, besides marks of the end. -/
theorem payload_framing (opened : Bool) (id : StreamID) (pre post : List PairOp) :
    let p := fun ops => (StreamPair.create opened id).run ops
    (∀ e, ¬ (p pre).Accepts e →
      ((p pre).onInput e).2 = p pre ∧ p (pre ++ .input e :: post) = p (pre ++ post)) ∧
    ∀ flags size, (p pre).Accepts (.data flags size) →
      let p₀ := p (pre ++ [.input (.data flags size)])
      let q := p (pre ++ [.input (.data flags size)] ++ post)
      ∃ es, q.inputs = p₀.inputs ++ es ∧ ((∀ flags' size', .data flags' size' ∉ es) →
        (∀ flags' delta, q.Accepts (.windowUpdate flags' delta)) ∧
        (payloadOf es).length ≤ size.toNat ∧
        (∀ flags' size', q.Accepts (.data flags' size') →
          (payloadOf es).length = size.toNat) ∧
        (q.handleAlive = true →
          ∃ items, q.down.log = p₀.down.log ++ items ∧ Forwarded es items)) := by
  intro p
  refine ⟨?_, ?_⟩
  · intro e he
    exact ⟨StreamPair.step_not_accepts he, StreamPair.run_not_accepts he post⟩
  · intro flags size haccepts p₀ q
    obtain ⟨es, hes⟩ := StreamPair.Framed.run haccepts post
    refine ⟨es, hes.inputs, fun hno => ⟨?_, ?_, ?_, hes.sent hno⟩⟩
    · intro flags' delta
      rw [StreamPair.Accepts, StreamPair.onInput_window]
    · exact (Nat.le_add_left _ _).trans_eq (hes.due hno)
    · intro flags' size' hheader
      have hdue := hes.due hno
      rw [StreamPair.accepts_header_iff.mp hheader] at hdue
      rw [← hdue]
      exact (Nat.zero_add _).symm

/-- A `FIN` between two chunks marks the end between them. -/
example : ((StreamPair.create false ⟨1⟩).run
    [.input (.data Flags.empty 3), .input (.dataChunk [1, 2]),
      .input (.windowUpdate Flags.onlyFin 0), .input (.dataChunk [3])]).down.log =
        [[1, 2], [], [3]] := by decide

end YamuxLowMem
