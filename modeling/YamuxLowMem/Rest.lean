/-
YamuxLowMem/Rest.lean

What a call of `poll_next` has done when it answers `Pending`.

It does answer where the I/O object comes to be pending: no call panics, and all
loops come to an end.  And it goes on reading until the I/O object is pending, and polls every head until the head is
pending, so it leaves nothing undone that it could do at once: what the reader
holds is not a frame yet, and a head takes no more from its handle because
there is nothing to take or the window has no room for a chunk.  Sending is
left out; when that goes wrong is said in `Stranded`.  With nothing left to
send the session is at rest: polled again while nothing comes in, it stays
exactly as it is.
-/
import YamuxLowMem.Tended
import YamuxLowMem.StreamIds
import YamuxLowMem.InboundTurns

namespace YamuxLowMem

open Async

/-! ### A call returns -/

/-- In every run of a session, whatever bytes the peer has sent, with any lists
of answers of the I/O object and in whatever order the streams come, every call
returns: no slice is out of range, no `expect` fails, no length goes below zero,
and every loop ends when the lists do.  An I/O object that never comes to an end
is outside the model, and so is a send window too wide for a `usize`. -/
theorem session_never_panics {isServer : Bool} {maxWriteBuffer : Nat} {s : YamuxSession}
    (h : (sessionMachine isServer maxWriteBuffer anything).Reachable s) (m : Move) :
    ∃ s', s.move m = some s' := by
  have hw := (sessionMachine_reachable h).wf
  cases m with
  | openStream | close code | handle ref op => exact ⟨_, rfl⟩
  | poll writes reads closes order =>
      have hw' : (s.behave writes reads closes).Wf := ⟨hw.writer, hw.reader⟩
      obtain ⟨answer, s', hpoll, -⟩ := YamuxSession.pollNext_steps hw' order
      exact ⟨s', by rw [YamuxSession.move, hpoll]; rfl⟩

/-- A server reads garbage. -/
theorem session_never_panics_garbage :
    ∃ s', (YamuxSession.new Io.new true 0).move
      (.poll [] [.ready (.ok (List.replicate 20 255))] [] []) = some s' :=
  session_never_panics (.init rfl) _

/-! ### A head at rest -/

namespace YamuxStreamHead

variable (h : YamuxStreamHead)

theorem tryCloseLocal_again : h.tryCloseLocal.tryCloseLocal = h.tryCloseLocal := by
  cases hl : h.state.localOpen <;> simp [tryCloseLocal, hl]

/-- What the loop leaves in `rx` it would leave there again. -/
theorem drainRx_again (senderOpen : Bool) (queue : List Bytes) :
    (h.drainRx senderOpen queue).1.drainRx senderOpen (h.drainRx senderOpen queue).2 =
      h.drainRx senderOpen queue := by
  induction queue generalizing h with
  | nil =>
      by_cases hend : defaultChunkCapacity ≤ h.window.send ∧ senderOpen = false
      · have hwindow : h.tryCloseLocal.window = h.window := by
          rw [tryCloseLocal_eq]
        rw [drainRx, if_pos hend, drainRx, hwindow, if_pos hend, tryCloseLocal_again]
      · rw [drainRx, if_neg hend, drainRx, if_neg hend]
  | cons chunk rest ih =>
      by_cases hroom : defaultChunkCapacity ≤ h.window.send
      · simp only [drainRx, if_pos hroom]
        split
        · exact ih _
        · exact ih _
      · simp only [drainRx, if_neg hroom]

/-- The loop only stops where it has nothing left to take, or no room. -/
theorem drainRx_left (senderOpen : Bool) (queue : List Bytes) :
    (h.drainRx senderOpen queue).2 = [] ∨
      (h.drainRx senderOpen queue).1.window.send < defaultChunkCapacity := by
  induction queue generalizing h with
  | nil =>
      left
      rw [drainRx]
      split <;> rfl
  | cons chunk rest ih =>
      by_cases hroom : defaultChunkCapacity ≤ h.window.send
      · simp only [drainRx, if_pos hroom]
        split
        · exact ih _
        · exact ih _
      · right
        simp only [drainRx, if_neg hroom]
        exact Nat.lt_of_not_le hroom

end YamuxStreamHead

namespace StreamPair

variable {p q : StreamPair}

/-- A poll finds nothing to yield, and leaves everything as it is. -/
def Idle (p : StreamPair) : Prop := p.pollNext = (.pending, p)

/-- How a poll comes to be pending. -/
theorem pollNext_pending (h : p.pollNext = (.pending, q)) :
    p.head.outs = [] ∧ p.head.state.isClosed = false ∧
      (p.head.drainRx p.up.senderOpen p.up.queue).1.outs = [] ∧
      q = { p with
        head := (p.head.drainRx p.up.senderOpen p.up.queue).1
        up := { p.up with queue := (p.head.drainRx p.up.senderOpen p.up.queue).2 } } := by
  cases houts : p.head.outs with
  | cons e rest => simp [pollNext, YamuxStreamHead.pollNext, houts] at h
  | nil =>
      cases hclosed : p.head.state.isClosed with
      | true => simp [pollNext, YamuxStreamHead.pollNext, houts, hclosed] at h
      | false =>
          cases houts' : (p.head.drainRx p.up.senderOpen p.up.queue).1.outs with
          | cons e rest =>
              simp [pollNext, YamuxStreamHead.pollNext, houts, hclosed, houts'] at h
          | nil =>
              refine ⟨rfl, rfl, rfl, ?_⟩
              simp only [pollNext, YamuxStreamHead.pollNext, houts, hclosed, Bool.false_eq_true,
                if_false, houts'] at h
              exact (Prod.mk.inj h).2.symm

/-- Whoever has nothing to yield after the loop over `rx` has not been closed by
it. -/
theorem drainRx_state (h : YamuxStreamHead) (senderOpen : Bool) (queue : List Bytes)
    (houts : (h.drainRx senderOpen queue).1.outs = []) :
    (h.drainRx senderOpen queue).1.state = h.state ∧ h.outs = [] := by
  have hclose : ∀ h : YamuxStreamHead, h.tryCloseLocal.outs = [] →
      h.tryCloseLocal.state = h.state ∧ h.outs = [] := by
    intro h
    rw [YamuxStreamHead.tryCloseLocal]
    cases hl : h.state.localOpen <;> simp
  induction queue generalizing h with
  | nil =>
      by_cases hend : defaultChunkCapacity ≤ h.window.send ∧ senderOpen = false
      · rw [YamuxStreamHead.drainRx, if_pos hend] at houts ⊢
        exact hclose h houts
      · rw [YamuxStreamHead.drainRx, if_neg hend] at houts ⊢
        exact ⟨rfl, houts⟩
  | cons chunk rest ih =>
      by_cases hroom : defaultChunkCapacity ≤ h.window.send
      · rw [YamuxStreamHead.drainRx, if_pos hroom] at houts ⊢
        by_cases hempty : chunk.isEmpty = true
        · rw [if_pos hempty] at houts ⊢
          obtain ⟨hstate, hnil⟩ := ih _ houts
          obtain ⟨hstate', hnil'⟩ := hclose h hnil
          exact ⟨hstate.trans hstate', hnil'⟩
        · -- a chunk that is taken is put out
          rw [if_neg hempty] at houts
          obtain ⟨-, hnil⟩ := ih _ houts
          simp [YamuxStreamHead.sendChunk] at hnil
      · rw [YamuxStreamHead.drainRx, if_neg hroom] at houts ⊢
        exact ⟨rfl, houts⟩

/-- After a poll that is pending the head is at rest. -/
theorem pollNext_idle (h : p.pollNext = (.pending, q)) : q.Idle := by
  obtain ⟨-, hclosed, houts, hq⟩ := pollNext_pending h
  have hstate := (drainRx_state p.head p.up.senderOpen p.up.queue houts).1
  have hagain := p.head.drainRx_again p.up.senderOpen p.up.queue
  subst hq
  have hclosed' : (p.head.drainRx p.up.senderOpen p.up.queue).1.state.isClosed = false := by
    rw [hstate]
    exact hclosed
  show pollNext _ = _
  simp only [pollNext, YamuxStreamHead.pollNext, houts, hclosed', Bool.false_eq_true, if_false,
    hagain]

namespace Idle

theorem outs (h : p.Idle) : p.head.outs = [] := (pollNext_pending h).1

theorem isClosed (h : p.Idle) : p.head.state.isClosed = false := (pollNext_pending h).2.1

theorem drainRx (h : p.Idle) :
    p.head.drainRx p.up.senderOpen p.up.queue = (p.head, p.up.queue) := by
  obtain ⟨-, -, -, hp⟩ := pollNext_pending h
  have hhead := congrArg StreamPair.head hp
  have hup := congrArg StreamPair.up hp
  exact Prod.ext hhead.symm (congrArg Channel.queue hup).symm

/-- All that was written has been taken, unless the window is used up. -/
theorem taken (h : p.Idle) (hroom : defaultChunkCapacity ≤ p.head.window.send) :
    p.up.queue = [] := by
  have hleft := p.head.drainRx_left p.up.senderOpen p.up.queue
  rw [h.drainRx] at hleft
  rcases hleft with hnil | hfull
  · exact hnil
  · exact absurd hroom (Nat.not_le_of_lt hfull)

/-- A handle that has been closed has been noticed, unless the window is used
up. -/
theorem noticed (h : p.Idle) (hroom : defaultChunkCapacity ≤ p.head.window.send)
    (hclosed : p.up.senderOpen = false) : p.head.state.localOpen = false := by
  have hrest := h.drainRx
  rw [h.taken hroom, YamuxStreamHead.drainRx, if_pos ⟨hroom, hclosed⟩] at hrest
  have hhead : p.head.tryCloseLocal = p.head := congrArg Prod.fst hrest
  have houts := congrArg YamuxStreamHead.outs hhead
  rw [YamuxStreamHead.tryCloseLocal] at houts
  cases hl : p.head.state.localOpen with
  | false => rfl
  | true => simp [hl] at houts

end Idle

end StreamPair

/-- A head that is drained without reporting the end is at rest. -/
theorem YamuxSession.drainHead_idle {fuel : Nat} {p : StreamPair} (hfuel : p.work < fuel)
    (hopen : (drainHead fuel p).2.1 = false) : (drainHead fuel p).2.2.Idle := by
  induction fuel generalizing p with
  | zero => exact absurd hfuel (Nat.not_lt_zero _)
  | succ fuel ih =>
      cases hpoll : p.pollNext with
      | mk result q =>
          rw [drainHead, hpoll] at hopen ⊢
          rcases result with - | - | e
          · exact StreamPair.pollNext_idle hpoll
          · cases hopen
          · exact ih (Nat.lt_of_lt_of_le (StreamPair.pollNext_work hpoll)
              (Nat.le_of_lt_succ hfuel)) hopen

/-- A head at rest yields nothing when it is drained, and does not change. -/
theorem StreamPair.Idle.drainHead {p : StreamPair} (h : p.Idle) (fuel : Nat) :
    YamuxSession.drainHead fuel p = ([], false, p) := by
  cases fuel with
  | zero => rfl
  | succ fuel => rw [YamuxSession.drainHead, h]

/-! ### A reader at rest -/

/-- What the reader holds is not a frame yet. -/
def FrameReader.Starved (r : FrameReader ChainedChunkBufferReader) : Prop :=
  r.nextFrame = some (.ok none, r)

/-- A reader that has found nothing is at rest. -/
theorem FrameReader.starved_of_none {r r' : FrameReader ChainedChunkBufferReader}
    (hw : r.buffer.Wf) (h : r.nextFrame = some (.ok none, r')) : r'.Starved ∧ r'.buffer.Wf := by
  obtain ⟨answer, r₁, hnext, hwr, hstep⟩ := nextFrame_spec (r := r) hw
  obtain ⟨rfl, rfl⟩ := Prod.mk.inj (Option.some.inj (hnext.symm.trans h))
  refine ⟨?_, hwr⟩
  obtain ⟨buffer, pending⟩ := r₁
  show FrameReader.nextFrame _ = _
  -- too few bytes for a header, or none where a payload is due
  generalize r.pending = pending₀, ByteSource.bytes r.buffer = bs₀ at hstep
  generalize hb : ByteSource.bytes buffer = bs at hstep
  cases hstep with
  | short hlt =>
      rw [← hb] at hlt
      simp [FrameReader.nextFrame, Frame.read_short hwr hlt]
  | @starved p => simp [FrameReader.nextFrame, ByteSource.nextChunk_nil p.remain hwr hb]

/-- All that a starved reader has been given has been decoded. -/
theorem FrameReader.Starved.decoded {r : FrameReader ChainedChunkBufferReader} (h : r.Starved)
    {delivered : Bytes} {tokens : List WireToken} (hr : ReaderInv r delivered tokens) :
    yamux.decode delivered = tokens := by
  obtain ⟨answer, r₁, hnext, -, hstep⟩ := nextFrame_spec (r := r) hr.wf
  obtain ⟨rfl, rfl⟩ := Prod.mk.inj (Option.some.inj (hnext.symm.trans h))
  exact hr.reads.complete hstep.stalled.2

/-! ### Reading until the I/O object is pending -/

/-- The answers before `rest` have been used up, and all of them were bytes. -/
def ReadBytes (reads rest : List (Poll (Except IoError Bytes))) : Prop :=
  ∃ used, reads = used ++ rest ∧ ∀ a ∈ used, ∃ bs, bs ≠ [] ∧ a = .ready (.ok bs)

/-- The same, and the answer that came then was `Pending`. -/
def ReadDry (reads rest : List (Poll (Except IoError Bytes))) : Prop :=
  ReadBytes reads (.pending :: rest) ∨ ReadBytes reads [] ∧ rest = []

namespace ReadBytes

variable {reads mid rest : List (Poll (Except IoError Bytes))} {bs : Bytes}

theorem refl (reads : List (Poll (Except IoError Bytes))) : ReadBytes reads reads :=
  ⟨[], rfl, fun _ ha => absurd ha List.not_mem_nil⟩

theorem cons (hne : bs ≠ []) (h : ReadBytes mid rest) :
    ReadBytes (.ready (.ok bs) :: mid) rest := by
  obtain ⟨used, rfl, hused⟩ := h
  refine ⟨.ready (.ok bs) :: used, rfl, ?_⟩
  intro a ha
  rcases List.mem_cons.mp ha with rfl | ha
  · exact ⟨bs, hne, rfl⟩
  · exact hused a ha

theorem trans (h : ReadBytes reads mid) (h' : ReadBytes mid rest) : ReadBytes reads rest := by
  obtain ⟨used, rfl, hused⟩ := h
  obtain ⟨used', rfl, hused'⟩ := h'
  refine ⟨used ++ used', (List.append_assoc _ _ _).symm, ?_⟩
  intro a ha
  rcases List.mem_append.mp ha with ha | ha
  · exact hused a ha
  · exact hused' a ha

theorem dry (h : ReadBytes reads mid) (h' : ReadDry mid rest) : ReadDry reads rest := by
  rcases h' with h' | ⟨h', hrest⟩
  · exact Or.inl (h.trans h')
  · exact Or.inr ⟨h.trans h', hrest⟩

end ReadBytes

/-- Where a call of the transport's `poll_next` leaves the reader and the I/O
object, if it is pending or yields a frame. -/
def Exhausts (event : Poll (Option (Except YamuxTransportError Frame)))
    (t t' : YamuxTransport) : Prop :=
  (event = .pending → t'.reader.Starved ∧ ReadDry t.stream.reads t'.stream.reads) ∧
    ∀ f, event = .ready (some (.ok f)) → ReadBytes t.stream.reads t'.stream.reads

namespace YamuxTransport

variable {t t' : YamuxTransport} {event : Poll (Option (Except YamuxTransportError Frame))}

theorem readLoop_exhausts {fuel : Nat} (hw : t.reader.buffer.Wf) (hstarved : t.reader.Starved)
    (h : readLoop fuel t = some (event, t')) : Exhausts event t t' := by
  induction fuel generalizing t with
  | zero => cases h
  | succ fuel ih =>
      rw [readLoop, Io.pollRead] at h
      rcases hreads : t.stream.reads with - | ⟨- | e | bs, rest⟩
      · rw [hreads] at h
        cases h
        refine ⟨fun _ => ⟨hstarved, ?_⟩, fun f hf => by cases hf⟩
        rw [hreads]
        exact Or.inr ⟨.refl [], rfl⟩
      · rw [hreads] at h
        cases h
        refine ⟨fun _ => ⟨hstarved, ?_⟩, fun f hf => by cases hf⟩
        rw [hreads]
        exact Or.inl (.refl _)
      · rw [hreads] at h
        cases h
        exact ⟨(fun he => by cases he), fun f hf => by cases hf⟩
      · rw [hreads] at h
        simp only at h
        by_cases hempty : (bs.take readBufferLen).isEmpty = true
        · rw [if_pos hempty] at h
          cases h
          exact ⟨(fun he => by cases he), fun f hf => by cases hf⟩
        · rw [if_neg hempty] at h
          have hne : bs.take readBufferLen ≠ [] := by
            rwa [List.isEmpty_iff] at hempty
          have hbs : bs ≠ [] := by
            rintro rfl
            exact hne rfl
          obtain ⟨r, hpushed, hwr, -⟩ := pushBack_arrived hw hne
          obtain ⟨answer, r₁, hnext, hwr₁, -⟩ := nextFrame_spec (r := r) hwr
          simp only [hpushed, hnext, Option.bind_eq_bind, Option.bind_some] at h
          rcases answer with e | - | f
          · cases h
            exact ⟨(fun he => by cases he), fun f hf => by cases hf⟩
          · obtain ⟨hstarved', hwr'⟩ := FrameReader.starved_of_none hwr hnext
            obtain ⟨hpending, hframe⟩ := ih hwr' hstarved' h
            have hused : ReadBytes t.stream.reads rest := by
              rw [hreads]
              exact .cons hbs (.refl _)
            refine ⟨fun he => ?_, fun f hf => ?_⟩
            · obtain ⟨hdry, hread⟩ := hpending he
              exact ⟨hdry, hused.dry hread⟩
            · exact hused.trans (hframe f hf)
          · cases h
            refine ⟨(fun he => by cases he), fun _ _ => ?_⟩
            rw [hreads]
            exact .cons hbs (.refl _)

theorem pollNext_exhausts (hw : t.reader.buffer.Wf) (h : t.pollNext = some (event, t')) :
    Exhausts event t t' := by
  obtain ⟨answer, r, hnext, hwr, -⟩ := nextFrame_spec (r := t.reader) hw
  rw [pollNext, hnext] at h
  rcases answer with e | - | f
  · cases h
    exact ⟨(fun he => by cases he), fun f hf => by cases hf⟩
  · obtain ⟨hstarved, hwr'⟩ := FrameReader.starved_of_none hw hnext
    exact readLoop_exhausts (t := { t with reader := r }) hwr' hstarved h
  · cases h
    exact ⟨(fun he => by cases he), fun _ _ => .refl _⟩

end YamuxTransport

/-! ### A session at rest -/

/-- As long as no stream is added or removed, an order remains one. -/
theorem IsOrder.of_mem_iff {s s' : YamuxSession} {order : List StreamID} (h : IsOrder s order)
    (hkeys : ∀ id, id ∈ s'.streams ↔ id ∈ s.streams) : IsOrder s' order := by
  refine ⟨h.1, h.2.trans ?_⟩
  ext id
  rw [Finmap.mem_keys, Finmap.mem_keys]
  exact (hkeys id).symm

namespace YamuxSession

variable {s s' : YamuxSession} {order : List StreamID}

/-- A frame that does not end the call registers no stream. -/
theorem onFrame_keys {frame : Frame} (h : s.onFrame frame = (none, s')) (id : StreamID) :
    id ∈ s'.streams ↔ id ∈ s.streams := by
  have hmem : id ∈ (s.onFrame frame).2.streams ↔ _ := mem_onFrame
  rw [h] at hmem
  exact hmem.trans (or_iff_left_of_imp (onFrame_registers (congrArg Prod.fst h)))

/-- A turn of the loop over inbound frames reads bytes, and registers no stream. -/
theorem inboundTurn_exhausts (hw : s.Wf) (h : InboundTurn s s') :
    ReadBytes s.transport.stream.reads s'.transport.stream.reads ∧
      ∀ id, id ∈ s'.streams ↔ id ∈ s.streams := by
  cases h with
  | @frame t f _ hnext hframe =>
      obtain ⟨-, hread⟩ := YamuxTransport.pollNext_exhausts hw.reader hnext
      have htransport := onFrame_transport (s := { s with transport := t }) f
      rw [hframe] at htransport
      have hkeys := onFrame_keys hframe
      refine ⟨?_, hkeys⟩
      rw [htransport]
      exact hread f rfl

/-- The loop goes on until nothing can be read, and registers no stream on its
way. -/
theorem inboundLoop_exhausts {fuel : Nat} (hw : s.Wf)
    (h : s.inboundLoop fuel = some (none, s')) :
    s'.transport.reader.Starved ∧
      ReadDry s.transport.stream.reads s'.transport.stream.reads ∧
      ∀ id, id ∈ s'.streams ↔ id ∈ s.streams := by
  obtain ⟨s₁, hturns, hend⟩ := inboundLoop_turns h
  obtain ⟨hw₁, hread, hkeys⟩ := InboundTurn.induct
    (P := fun a => ReadBytes s.transport.stream.reads a.transport.stream.reads ∧
      ∀ id, id ∈ a.streams ↔ id ∈ s.streams) hturns hw ⟨.refl _, fun _ => Iff.rfl⟩
    fun a b hwa hturn ⟨hread, hkeys⟩ => by
      obtain ⟨hread', hkeys'⟩ := inboundTurn_exhausts hwa hturn
      exact ⟨hread.trans hread', fun id => (hkeys' id).trans (hkeys id)⟩
  cases hend with
  | dry hnext =>
      obtain ⟨hpending, -⟩ := YamuxTransport.pollNext_exhausts hw₁.reader hnext
      obtain ⟨hstarved, hdry⟩ := hpending rfl
      exact ⟨hstarved, hread.dry hdry, hkeys⟩

/-- Every registered head has been polled until it was pending. -/
theorem drainAll_idle (horder : IsOrder s order) {id : StreamID}
    {p : StreamPair} (hp : (s.drainAll order).streams.lookup id = some p) : p.Idle := by
  obtain ⟨-, -, hlookup, -⟩ := drainAll_spec horder
  rw [hlookup] at hp
  split at hp
  · cases hp
  · rename_i hopen
    obtain ⟨old, hold, rfl⟩ := Option.map_eq_some_iff.mp hp
    have hmem : id ∈ order := by
      rw [← List.mem_toFinset, horder.2, Finmap.mem_keys]
      exact mem_of_lookup hold
    have hfound : (drainHead (drainWork old) old).2.1 = false := by
      rw [← Bool.not_eq_true]
      intro hclosed
      refine hopen (List.mem_filter.mpr ⟨hmem, ?_⟩)
      rw [foundClosed, hold]
      exact hclosed
    have hlocal : old.head.state.localOpen.toNat ≤ 1 := Bool.toNat_le _
    refine drainHead_idle ?_ hfound
    rw [StreamPair.work, drainWork]
    omega

/-- Nothing can be done for the session until something comes in, or the
application does something. -/
structure AtRest (s : YamuxSession) : Prop where
  outQueue : s.outQueue = []
  reader : s.transport.reader.Starved
  heads : ∀ id p, s.streams.lookup id = some p → p.Idle

namespace AtRest

theorem drainHeads (h : s.AtRest) (order : List StreamID) : s.drainHeads order = (s, []) := by
  induction order with
  | nil => rfl
  | cons id order ih =>
      rw [YamuxSession.drainHeads]
      cases hp : s.streams.lookup id with
      | none => exact ih
      | some p =>
          have hsame : s.streams.insert id p = s.streams := by
            apply Finmap.ext_lookup
            intro id'
            by_cases hid : id' = id
            · subst hid
              rw [Finmap.lookup_insert, hp]
            · exact Finmap.lookup_insert_of_ne _ hid
          have hdrain : s.drainStream id p = (s, false) := by
            rw [drainStream, (h.heads id p hp).drainHead]
            simp [setStream, hsame]
          simp only [hdrain, ih]
          rfl

/-- While nothing can be read, a session at rest stays as it is. -/
theorem pollNext (h : s.AtRest) (hclose : s.manualClose = false)
    (hreads : s.transport.stream.reads = []) (order : List StreamID) :
    s.pollNext order = some (.pending, s) := by
  have hread : s.transport.pollNext = some (.pending, s.transport) := by
    have hreader : s.transport.reader.nextFrame = _ := h.reader
    simp only [YamuxTransport.pollNext, hreader, Option.bind_eq_bind, Option.bind_some,
      YamuxTransport.readLoop, Io.pollRead, hreads]
    rfl
  have hloop : s.inboundLoop (s.inboundWork + 1) = some (none, s) := by
    rw [inboundLoop, hread]
    rfl
  have hdrain : s.drainAll order = s := by
    rw [drainAll, h.drainHeads]
    rfl
  have hsend := trySend_nil h.outQueue false
  rw [pollNext_drain hsend hclose hloop (by rw [hdrain]; exact hsend)]
  rfl

end AtRest

/-- The flush leaves the inbound side alone. -/
theorem flushSent_inbound {sent : Bool} {answer : Poll (Option YamuxStream)} (hw : s.Wf)
    (h : s.flushSent sent = some (answer, s')) :
    s'.manualClose = s.manualClose ∧ s'.transport.reader = s.transport.reader ∧
      s'.transport.stream.reads = s.transport.stream.reads := by
  cases sent with
  | false =>
      cases h
      exact ⟨rfl, rfl, rfl⟩
  | true =>
      obtain ⟨result, t, -, hflush, hspec⟩ := flushSent_spec hw
      rw [hspec] at h
      rcases result with - | e | u <;> cases h <;> exact ⟨rfl, hflush.reader, hflush.flushed.reads⟩

/-- What a call has done that answers `Pending`. -/
theorem pollNext_pending (hw : s.Wf) (hopen : s.manualClose = false) (horder : IsOrder s order)
    (hpoll : s.pollNext order = some (.pending, s')) :
    s'.manualClose = false ∧ ReadDry s.transport.stream.reads s'.transport.stream.reads ∧
      s'.transport.reader.Starved ∧ ∀ id p, s'.streams.lookup id = some p → p.Idle := by
  cases s.course hw order with
  | closing _ hclose _ =>
      rw [hopen] at hclose
      cases hclose
  | answered _ _ hread hanswer =>
      rw [hanswer] at hpoll
      obtain ⟨rfl, -⟩ := Prod.mk.inj (Option.some.inj hpoll)
      exact absurd rfl hread.ready
  | @drained t t' done rest done' rest' s₂ hsend _ hread hsend' hflush =>
      obtain ⟨hstarved, hdry, hkeys⟩ := inboundLoop_exhausts hsend.wf hread.loop
      obtain ⟨htransport, hclose, -⟩ := s₂.drainAll_frame order
      have horder₂ : IsOrder s₂ order := horder.of_mem_iff hkeys
      have hreader : t'.reader = s₂.transport.reader := by
        rw [hsend'.run.reader, htransport]
      have hreads : t'.stream.reads = s₂.transport.stream.reads := by
        rw [hsend'.run.reads, htransport]
      rw [hsend.run.reads] at hdry
      rw [hflush] at hpoll
      obtain ⟨hstreams, -⟩ := flushSent_streams hpoll
      obtain ⟨hclose', hreader', hreads'⟩ := flushSent_inbound hsend'.wf hpoll
      refine ⟨?_, ?_, ?_, ?_⟩
      · rw [hclose']
        exact hclose.trans (hread.inbound.manualClose.trans hopen)
      · rw [hreads']
        exact hreads ▸ hdry
      · rw [hreader']
        exact hreader ▸ hstarved
      · intro id p hp
        rw [hstreams] at hp
        exact drainAll_idle horder₂ hp

end YamuxSession

/-- In every reachable state, whatever the I/O object answers and the peer has
sent: when `poll_next` answers `Pending`, and `close` has not been called, all
that could be read has been read, up to an answer `Pending`, what the reader
holds is not a frame yet, and every head has been polled until it was pending.
If nothing is left queued, further calls answer `Pending` and change nothing
until something can be read. -/
theorem pending_leaves_rest {isServer : Bool} {maxWriteBuffer : Nat} {s s' : YamuxSession}
    (h : (sessionMachine isServer maxWriteBuffer anything).Reachable s)
    (hopen : s.manualClose = false) (writes : List (Poll (Except IoError Nat)))
    (reads : List (Poll (Except IoError Bytes))) (closes : List (Poll (Except IoError Unit)))
    {order : List StreamID} (horder : IsOrder s order)
    (hpoll : (s.behave writes reads closes).pollNext order = some (.pending, s')) :
    ReadDry reads s'.transport.stream.reads ∧ s'.transport.reader.Starved ∧
      (∀ id p, s'.streams.lookup id = some p → p.Idle) ∧
      (s'.outQueue = [] → ∀ writes closes order,
        (s'.behave writes [] closes).pollNext order =
          some (.pending, s'.behave writes [] closes)) := by
  have hw := (sessionMachine_reachable h).wf
  have hw' : (s.behave writes reads closes).Wf := ⟨hw.writer, hw.reader⟩
  obtain ⟨hclose, hdry, hstarved, hidle⟩ :=
    YamuxSession.pollNext_pending hw' hopen horder hpoll
  refine ⟨hdry, hstarved, hidle, ?_⟩
  intro hqueue writes closes order'
  have hrest : (s'.behave writes [] closes).AtRest := ⟨hqueue, hstarved, hidle⟩
  exact hrest.pollNext hclose rfl order'

/-- The I/O object takes all that is written, and has half a header. -/
def halfHeader (s : YamuxSession) : YamuxSession :=
  s.behave (List.replicate 4 (.ready (.ok 100))) [.ready (.ok [0, 1, 0]), .pending] []

/-- A client has opened a stream and written to it. -/
theorem pending_leaves_rest_opened :
    ∃ s s', (sessionMachine false 0 anything).Reachable s ∧
      (halfHeader s).pollNext [⟨1⟩] = some (.pending, s') ∧
      s'.transport.reader.Starved ∧ (∀ id p, s'.streams.lookup id = some p → p.Idle) ∧
      (s'.behave [] [] []).pollNext [⟨1⟩] = some (.pending, s'.behave [] [] []) := by
  have hrun : ((YamuxSession.new Io.new false 0).run
      [.openStream, .handle (.registered ⟨1⟩) (.write [7])]).map (fun s =>
        decide (s.manualClose = false ∧ IsOrder s [⟨1⟩]) &&
          ((halfHeader s).pollNext [⟨1⟩]).any fun r =>
            decide (r.1 = .pending ∧ r.2.outQueue = [])) = some true := by decide +kernel
  obtain ⟨s, hreach, hs⟩ := exists_of_run false 0 _ hrun
  rw [Bool.and_eq_true, Option.any_eq_true, decide_eq_true_eq] at hs
  obtain ⟨⟨hopen, horder⟩, ⟨answer, s'⟩, hpoll, hr⟩ := hs
  obtain ⟨rfl, hqueue⟩ : answer = .pending ∧ s'.outQueue = [] := of_decide_eq_true hr
  obtain ⟨-, hstarved, hidle, hagain⟩ := pending_leaves_rest hreach hopen _ _ _ horder hpoll
  exact ⟨s, s', hreach, hpoll, hstarved, hidle, hagain hqueue [] [] [⟨1⟩]⟩

end YamuxLowMem
