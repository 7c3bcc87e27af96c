/-
YamuxLowMem/Duplex.lean

A client and a server session, joined by two byte pipes.

All that is asked of the pipes is that the bytes handed to a session are, at
any time, the front of the bytes taken from its peer; how much is taken or
handed over in one call, and when a call is pending, is left to them.

Two things are left out of these runs.  No empty slice is written to a handle: it
would be sent as the end of the stream.  And each end opens fewer than
`2 ^ 31 - 1` streams: with one more the ids wrap, and name streams anew.

A step of `worldMachine` is one `SessionStep` of either session, so the calls
of the two sides may overlap.  `callMachine` makes one whole call at a time;
what it reaches, `worldMachine` reaches.
-/
import YamuxLowMem.Tracking
import Mathlib.Logic.Function.Basic

namespace YamuxLowMem

open Async Relation

/-! ### The two ends -/

inductive Role where
  | client
  | server
  deriving DecidableEq, Repr

namespace Role

def peer : Role → Role
  | client => server
  | server => client

def isServer : Role → Bool
  | client => false
  | server => true

@[simp] theorem peer_peer (r : Role) : r.peer.peer = r := by cases r <;> rfl

@[simp] theorem isServer_peer (r : Role) : r.peer.isServer = !r.isServer := by cases r <;> rfl

theorem peer_ne (r : Role) : r.peer ≠ r := by cases r <;> decide

theorem eq_or_eq_peer (r r' : Role) : r' = r ∨ r' = r.peer := by
  cases r <;> cases r' <;> decide

end Role

/-- One end: its session, and how many streams it has opened. -/
structure Side where
  session : YamuxSession
  opened : Nat

namespace Side

def new (isServer : Bool) (maxWriteBuffer : Nat) : Side :=
  { session := YamuxSession.new Io.new isServer maxWriteBuffer, opened := 0 }

/-- The bytes the pipe to the peer has taken. -/
def taken (a : Side) : Bytes := a.session.transport.stream.accepted

/-- The bytes the pipe from the peer has handed over. -/
def given (a : Side) : Bytes := a.session.transport.stream.delivered

/-- Fewer than `2 ^ 31 - 1` streams are opened, and no empty slice is written. -/
inductive Step : Side → Side → Prop where
  | openStream {a : Side} : a.opened + 1 < 2 ^ 31 - 1 →
      Step a { session := a.session.openStream, opened := a.opened + 1 }
  | other {a : Side} {s' : YamuxSession} : SessionStep plainMove a.session s' →
      Step a { a with session := s' }

end Side

/-- Both ends. -/
abbrev World := Role → Side

def World.new (maxWriteBuffer : Role → Nat) : World :=
  fun r => Side.new r.isServer (maxWriteBuffer r)

/-- One end makes a step, after which the bytes handed over to it are still
the front of those taken from its peer. -/
def worldMachine (maxWriteBuffer : Role → Nat) : Run.Machine World where
  init w := w = World.new maxWriteBuffer
  step w w' := ∃ r a, Side.Step (w r) a ∧ a.given <+: (w r.peer).taken ∧
    w' = Function.update w r a

/-! ### Whole calls -/

/-- How many streams a call opens. -/
def Move.opens : Move → Nat
  | .openStream => 1
  | _ => 0

namespace Side

/-- The same restrictions for whole calls. -/
def Allowed (a : Side) : Move → Prop
  | .openStream => a.opened + 1 < 2 ^ 31 - 1
  | .handle _ (.write buf) => buf ≠ []
  | .poll _ _ _ order => IsOrder a.session order
  | _ => True

instance (a : Side) (m : Move) : Decidable (a.Allowed m) :=
  match m with
  | .openStream => inferInstanceAs (Decidable (_ < _))
  | .handle _ (.write buf) => inferInstanceAs (Decidable (buf ≠ []))
  | .poll _ _ _ order => inferInstanceAs (Decidable (IsOrder a.session order))
  | .close _ => isTrue trivial
  | .handle _ .close => isTrue trivial
  | .handle _ .drop => isTrue trivial
  | .handle _ (.read _) => isTrue trivial

def move (a : Side) (m : Move) : Option Side :=
  (a.session.move m).map fun s => { session := s, opened := a.opened + m.opens }

end Side

/-- One end makes a call. -/
def callMachine (maxWriteBuffer : Role → Nat) : Run.Machine World where
  init w := w = World.new maxWriteBuffer
  step w w' := ∃ r m a, (w r).Allowed m ∧ (w r).move m = some a ∧
    a.given <+: (w r.peer).taken ∧ w' = Function.update w r a

namespace World

/-- One call, if it is possible. -/
def call (w : World) (r : Role) (m : Move) : Option World :=
  if (w r).Allowed m then
    ((w r).move m).bind fun a =>
      if a.given <+: (w r.peer).taken then some (Function.update w r a) else none
  else none

/-- A run, call by call. -/
def run (w : World) : List (Role × Move) → Option World
  | [] => some w
  | (r, m) :: calls => (w.call r m).bind (·.run calls)

end World

/-! ### What a step does to the wire -/

section Wire

variable {guard : Guard} {s s' : YamuxSession}

/-- Either the inbound side of the transport is left alone, or the transport
is asked for a frame. -/
theorem SessionStep.arrives (h : SessionStep guard s s') :
    (s'.transport.reader = s.transport.reader ∧ s'.transport.received = s.transport.received ∧
      s'.transport.stream.delivered = s.transport.stream.delivered) ∨
    ∃ event pushed, YamuxTransport.Receive event s.transport s'.transport pushed := by
  cases h with
  | openStream | close | behave => exact Or.inl ⟨rfl, rfl, rfl⟩
  | handle ref op =>
      left
      rw [handleOp_transport]
      exact ⟨rfl, rfl, rfl⟩
  | poll hpoll =>
      cases hpoll with
      | @flush t result hflush =>
          left
          exact ⟨hflush.reader, hflush.received, hflush.flushed.delivered⟩
      | @send t out rest hq hsend =>
          left
          obtain ⟨b, rfl⟩ := YamuxTransport.startSend_eq hsend
          exact ⟨rfl, rfl, rfl⟩
      | closeIo =>
          left
          refine ⟨rfl, rfl, ?_⟩
          show s.transport.stream.pollClose.2.delivered = _
          simp only [Io.pollClose]
          split <;> rfl
      | @receive t event pushed hreceive =>
          right
          -- what a frame does to the streams leaves the transport alone
          rw [YamuxSession.deliver_transport]
          exact ⟨event, pushed, hreceive⟩
      | drain | remove => exact Or.inl ⟨rfl, rfl, rfl⟩

theorem SessionStep.delivered (h : SessionStep guard s s') :
    s.transport.stream.delivered <+: s'.transport.stream.delivered := by
  rcases h.arrives with ⟨-, -, hsame⟩ | ⟨event, pushed, hreceive⟩
  · exact hsame ▸ List.prefix_rfl
  · rw [hreceive.delivered]
    exact List.prefix_append _ _

theorem SessionStep.accepted (h : SessionStep guard s s') :
    s.transport.stream.accepted <+: s'.transport.stream.accepted := by
  cases h with
  | openStream | close | behave => exact List.prefix_rfl
  | handle ref op =>
      rw [handleOp_transport]
  | poll hpoll =>
      cases hpoll with
      | flush hflush => exact hflush.flushed.accepted
      | @send t out rest hq hsend =>
          obtain ⟨b, rfl⟩ := YamuxTransport.startSend_eq hsend
          exact List.prefix_rfl
      | closeIo =>
          show _ <+: s.transport.stream.pollClose.2.accepted
          simp only [Io.pollClose]
          split <;> exact List.prefix_rfl
      | receive hreceive =>
          have hin := YamuxSession.receive_inbound hreceive
          exact hin.accepted ▸ List.prefix_rfl
      | drain | remove => exact List.prefix_rfl

theorem SessionStep.mono {guard' : Guard} (h : SessionStep guard s s')
    (hguard : ∀ m, guard s m → guard' s m) : SessionStep guard' s s' := by
  cases h with
  | openStream h => exact .openStream (hguard _ h)
  | close code h => exact .close code (hguard _ h)
  | handle ref op h => exact .handle ref op (hguard _ h)
  | behave writes reads closes order h => exact .behave writes reads closes order (hguard _ h)
  | poll hpoll => exact .poll hpoll

end Wire

namespace Side.Step

variable {a b : Side}

theorem wf (h : Side.Step a b) (ha : a.session.Wf) : b.session.Wf := by
  cases h with
  | openStream => exact ⟨ha.writer, ha.reader⟩
  | other hstep => exact hstep.wf ha

theorem taken (h : Side.Step a b) : a.taken <+: b.taken := by
  cases h with
  | openStream => exact List.prefix_rfl
  | other hstep => exact hstep.accepted

end Side.Step

/-! ### Calls are made of steps -/

section Calls

variable {maxWriteBuffer : Role → Nat} {w : World}

theorem World.wf (h : (worldMachine maxWriteBuffer).Reachable w) (r : Role) :
    (w r).session.Wf := by
  revert r
  refine h.invariant ?_ ?_
  · rintro w rfl r
    exact YamuxSession.wf_new _ _ _
  · rintro w w' hw ⟨r, a, hstep, -, rfl⟩ r'
    by_cases hr : r' = r
    · subst hr
      rw [Function.update_self]
      exact hstep.wf (hw r')
    · rw [Function.update_of_ne hr]
      exact hw r'

/-- Steps of one session are steps of the world, if the pipe can hand over
the bytes. -/
theorem World.steps (r : Role) {s : YamuxSession}
    (hsteps : ReflTransGen (SessionStep plainMove) (w r).session s)
    (hpipe : s.transport.stream.delivered <+: (w r.peer).taken) :
    (worldMachine maxWriteBuffer).Steps w (Function.update w r { w r with session := s }) := by
  induction hsteps with
  | refl => rw [Function.update_eq_self]
  | @tail t u _ hstep ih =>
      have hw := ih (hstep.delivered.trans hpipe)
      refine hw.tail ⟨r, { w r with session := u }, ?_, ?_, ?_⟩
      · rw [Function.update_self]
        exact .other hstep
      · rw [Function.update_of_ne r.peer_ne]
        exact hpipe
      · exact (Function.update_idem _ _ _).symm

/-- What is reached call by call is reached step by step. -/
theorem callMachine_reachable (h : (callMachine maxWriteBuffer).Reachable w) :
    (worldMachine maxWriteBuffer).Reachable w := by
  induction h with
  | init h => exact .init h
  | @step w w' _ hstep ih =>
      obtain ⟨r, m, a, hallowed, hmove, hpipe, rfl⟩ := hstep
      obtain ⟨s, hs, rfl⟩ := Option.map_eq_some_iff.mp hmove
      have hsteps : plainMove (w r).session m →
          ReflTransGen (SessionStep plainMove) (w r).session s := by
        intro hplain
        have hsteps : (stepMachine r.isServer (maxWriteBuffer r) plainMove).Steps (w r).session s :=
          YamuxSession.move_steps (World.wf ih r) hplain hs
        exact hsteps
      cases m with
      | openStream =>
          obtain rfl := Option.some.inj hs
          exact ih.step ⟨r, _, .openStream hallowed, hpipe, rfl⟩
      | close code =>
          exact ih.steps (World.steps r (hsteps ⟨nofun, nofun⟩) hpipe)
      | handle ref op =>
          refine ih.steps (World.steps r (hsteps ⟨nofun, ?_⟩) hpipe)
          rintro ref' buf hm
          obtain ⟨rfl, rfl⟩ := Move.handle.inj hm
          exact hallowed
      | poll writes reads closes order =>
          exact ih.steps (World.steps r (hsteps ⟨nofun, nofun⟩) hpipe)

end Calls

theorem World.reachable_of_run {maxWriteBuffer : Role → Nat} {w w' : World}
    {calls : List (Role × Move)} (hw : (callMachine maxWriteBuffer).Reachable w)
    (hrun : w.run calls = some w') : (callMachine maxWriteBuffer).Reachable w' := by
  induction calls generalizing w with
  | nil =>
      obtain rfl := Option.some.inj hrun
      exact hw
  | cons call calls ih =>
      obtain ⟨r, m⟩ := call
      rw [World.run, World.call] at hrun
      obtain ⟨w₁, hcall, hrest⟩ := Option.bind_eq_some_iff.mp hrun
      split at hcall
      · rename_i hallowed
        obtain ⟨a, hmove, hpipe⟩ := Option.bind_eq_some_iff.mp hcall
        split at hpipe
        · rename_i hprefix
          obtain rfl := Option.some.inj hpipe
          exact ih (hw.step ⟨r, m, a, hallowed, hmove, hprefix, rfl⟩) hrest
        · cases hpipe
      · cases hcall

/-! ### What is heard of the peer -/

/-- The frames a transport has yielded are what its reader has made of the
bytes, and each of them says something. -/
structure Reading (t : YamuxTransport) : Prop where
  reader : ReaderInv t.reader t.stream.delivered (t.received.flatMap Frame.tokens)
  nonempty : ∀ f ∈ t.received, f.tokens ≠ []
  due : ∀ p, t.reader.pending = some p → 0 < p.remain

/-- What a session has put on the wire is the front of all it has to send. -/
theorem Outbound.taken {s : YamuxSession} (h : Outbound s) :
    s.transport.stream.accepted <+: encoding s.outgoing := by
  rw [YamuxSession.outgoing, encoding_append, ← h.bytes]
  exact (List.prefix_append _ _).trans (List.prefix_append _ _)

/-- A reader of a well-formed stream has emitted the front of its tokens. -/
theorem ReaderInv.heard {r : FrameReader ChainedChunkBufferReader} {delivered : Bytes}
    {tokens : List WireToken} {fs : List Frame} (h : ReaderInv r delivered tokens)
    (hfs : FrameBlocks fs) (hpipe : delivered <+: encoding fs) :
    tokens <+: fs.flatMap Frame.tokens := by
  obtain ⟨more, hmore⟩ := hpipe
  have hprefix := h.reads.isPrefix more
  rwa [hmore, hfs.decode_encoding] at hprefix

/-- A transport that reads a well-formed stream finds no header of unknown
type. -/
theorem YamuxTransport.Receive.reader {t t' : YamuxTransport} {event} {pushed : Bytes}
    {fs : List Frame} (h : Receive event t t' pushed) (ht : Reading t) (hfs : FrameBlocks fs)
    (hpipe : t'.stream.delivered <+: encoding fs) :
    ReaderInv t'.reader t'.stream.delivered (t'.received.flatMap Frame.tokens) := by
  have hreader := h.reads _ _ ht.reader
  rw [← h.delivered] at hreader
  have htokens : eventTokens event = (eventFrames event).flatMap Frame.tokens := by
    match event with
    | .pending | .ready none => rfl
    | .ready (some (.ok frame)) => simp [eventTokens, eventFrames]
    | .ready (some (.error (.io e))) => rfl
    | .ready (some (.error (.parserError e))) =>
        -- such a token is not among those of the stream
        have hmem : Framing.Token.head (.error e) ∈ fs.flatMap Frame.tokens :=
          (hreader.heard hfs hpipe).subset (by simp [eventTokens])
        obtain ⟨f, -, hf⟩ := List.mem_flatMap.mp hmem
        exact absurd hf (f.noUnknown_tokens e)
  rwa [htokens, ← List.flatMap_append, ← h.received] at hreader

theorem Arrival.tokens_ne {pending pending' : Option PendingPayload} {f : Frame}
    (h : Arrival pending (.ready (some (.ok f))) pending')
    (hdue : ∀ p, pending = some p → 0 < p.remain) : f.tokens ≠ [] := by
  cases h with
  | frame htokens =>
      rw [htokens]
      exact List.cons_ne_nil _ _
  | @chunk p c _ hne =>
      have hc := hne (hdue p rfl)
      simpa [Frame.tokens] using hc
  | nothing hnot => exact absurd rfl (hnot _)

/-- A payload that is due has been announced, and something of it is left. -/
theorem Arrival.due {pending pending' : Option PendingPayload}
    {event : Poll (Option (Except YamuxTransportError Frame))} (h : Arrival pending event pending')
    (hdue : ∀ p, pending = some p → 0 < p.remain)
    (hsizes : ∀ id flags size, .stream id (.data flags size) ∈ eventFrames event →
      0 < size.toNat) : ∀ p, pending' = some p → 0 < p.remain := by
  intro p hp
  cases h with
  | @frame f _ =>
      match f with
      | .stream id (.data flags size) =>
          obtain rfl := Option.some.inj hp
          exact hsizes id flags size (List.mem_singleton.mpr rfl)
      | .session e => cases hp
      | .stream id (.dataChunk c) | .stream id (.windowUpdate flags delta) => cases hp
  | @chunk q c _ _ =>
      simp only [PendingPayload.advance] at hp
      split at hp
      · cases hp
      · rename_i hne
        obtain rfl := Option.some.inj hp
        exact Nat.pos_of_ne_zero hne
  | nothing => exact hdue p hp

/-! ### What a stream sends -/

theorem Later.carries_eq {e : FrameStreamEvent} (h : Later e) :
    e.carries Flags.syn = false ∧ e.carries Flags.rst = false := by
  cases e with
  | windowUpdate flags delta => rcases h with rfl | ⟨rfl, -⟩ <;> exact ⟨rfl, rfl⟩
  | data flags size =>
      obtain rfl : flags = Flags.empty := h
      exact ⟨rfl, rfl⟩
  | dataChunk chunk => exact ⟨rfl, rfl⟩

theorem Blocks.size_pos {es : List FrameStreamEvent} (h : Blocks es) {flags : Flags}
    {size : UInt32} (hmem : .data flags size ∈ es) : 0 < size.toNat := by
  induction h with
  | nil => cases hmem
  | control flags' delta _ ih =>
      rcases List.mem_cons.mp hmem with heq | hmem
      · cases heq
      · exact ih hmem
  | @payload chunk es hne hlen _ ih =>
      rcases List.mem_cons.mp hmem with heq | hmem
      · cases heq
        rw [UInt32.toNat_ofNat_of_lt' (Nat.lt_of_le_of_lt hlen (by decide))]
        exact List.length_pos_iff.mpr hne
      · rcases List.mem_cons.mp hmem with heq | hmem
        · cases heq
        · exact ih hmem

namespace Tracks

variable {own : Bool} {next : Nat} {incoming outgoing : List FrameStreamEvent} {id : StreamID}
  {p : StreamPair}

/-- What goes out begins with `SYN` or `ACK`, and has neither `SYN` nor `RST`
after that. -/
theorem sent (h : Tracks own next incoming outgoing id p) (hne : outgoing ≠ []) :
    ∃ rest, outgoing = firstEvent own :: rest ∧ carried Flags.syn rest = false ∧
      carried Flags.rst rest = false := by
  obtain ⟨all, hall, -, hlater⟩ := h.reach.outgoing
  rw [StreamPair.history, h.emitted] at hall
  obtain ⟨e, rest, rfl⟩ := List.exists_cons_of_ne_nil hne
  obtain ⟨rfl, rfl⟩ := List.cons.inj hall
  have hnone : ∀ flag : Flags → Bool, (∀ e, Later e → e.carries flag = false) →
      carried flag rest = false := by
    intro flag hflag
    rw [carried, List.any_eq_false]
    intro e he
    simp [hflag e (hlater e (List.mem_append_left _ he))]
  exact ⟨rest, rfl, hnone _ fun _ he => he.carries_eq.1, hnone _ fun _ he => he.carries_eq.2⟩

theorem noReset (h : Tracks own next incoming outgoing id p) :
    carried Flags.rst outgoing = false := by
  by_cases hne : outgoing = []
  · rw [hne]
    rfl
  · obtain ⟨rest, heq, -, hrest⟩ := h.sent hne
    rw [heq, carried_cons, hrest]
    cases own <;> rfl

theorem sizes (h : Tracks own next incoming outgoing id p) {flags : Flags} {size : UInt32}
    (hmem : .data flags size ∈ outgoing) : 0 < size.toNat := by
  rw [← h.emitted] at hmem
  exact h.reach.outgoing.blocks.size_pos (List.mem_append_left _ hmem)

end Tracks

/-! ### Both ends -/

/-- What holds of one end, as long as its peer does as it should. -/
structure Sound (isServer : Bool) (a : Side) : Prop where
  wf : a.session.Wf
  pairs : PairsOk a.session
  outbound : Outbound a.session
  inStep : InStep a.session
  tracking : Tracking isServer a.opened a.session
  reading : Reading a.session.transport

namespace Sound

variable {isServer : Bool} {a b o : Side}

theorem new (isServer : Bool) (maxWriteBuffer : Nat) :
    Sound isServer (Side.new isServer maxWriteBuffer) := by
  have hreach : SessionReachable isServer maxWriteBuffer notAddressed
      (Side.new isServer maxWriteBuffer).session := .init rfl
  refine ⟨hreach.wf, hreach.pairsOk, hreach.outbound, hreach.inStep, ?_, ?_⟩
  · refine ⟨?_, ?_, fun id h => absurd rfl h, fun id h => absurd rfl h, ?_⟩
    · intro id p hp
      cases hp
    · intro p hp
      cases hp
    · cases isServer <;> rfl
  · refine ⟨ReaderInv.new, ?_, ?_⟩
    · intro f hf
      cases hf
    · intro p hp
      cases hp

/-- What has arrived on a stream. -/
theorem arrived (ha : Sound isServer a) (ho : Outbound o.session) (hpipe : a.given <+: o.taken)
    (id : StreamID) :
    Arrived id (eventsOn id a.session.transport.received) (eventsOn id o.session.outgoing) :=
  arrived_of_tokens (ha.reading.reader.heard ho.wellFormed (hpipe.trans ho.taken)) id

end Sound

/-- Frames that say something give tokens. -/
theorem streamTokens_ne_nil {id : StreamID} {fs : List Frame} (hfs : ∀ f ∈ fs, f.tokens ≠ [])
    (hne : eventsOn id fs ≠ []) : streamTokens id (eventsOn id fs) ≠ [] := by
  obtain ⟨e, es, hes⟩ := List.exists_cons_of_ne_nil hne
  have hmem : Frame.stream id e ∈ fs := (mem_eventsOn id fs).mp (by rw [hes]; simp)
  rw [hes, streamTokens_cons]
  exact List.append_ne_nil_of_left_ne_nil (hfs _ hmem) _

/-- A peer whose streams account for their traffic keeps the ids apart. -/
theorem Tracking.polite {isServer : Bool} {opened opened' : Nat} {s o : YamuxSession}
    {incoming : List Frame} (ho : Tracking (!isServer) opened' o) (hs : Tracking isServer opened s)
    (hone : ∀ f ∈ o.transport.received, f.tokens ≠ [])
    (hback : ∀ id, Arrived id (eventsOn id o.transport.received) (eventsOn id s.outgoing))
    (hne : ∀ f ∈ incoming, f.tokens ≠ [])
    (hforth : ∀ id, Arrived id (eventsOn id incoming) (eventsOn id o.outgoing)) :
    Polite isServer s incoming := by
  -- what arrives comes from a stream of the peer
  have hsender : ∀ id, eventsOn id incoming ≠ [] → ∃ p, o.Tracks (!isServer) id p ∧
      eventsOn id o.outgoing ≠ [] := by
    intro id hincoming
    have hout := (hforth id).ne_nil (streamTokens_ne_nil hne hincoming)
    obtain ⟨p, hp⟩ := ho.outgoing id hout
    exact ⟨p, ho.holds hp, hout⟩
  refine ⟨?_, ?_⟩
  · intro id hown e es hes
    obtain ⟨p, hp, hout⟩ := hsender id (by rw [hes]; exact List.cons_ne_nil _ _)
    rw [YamuxSession.Tracks, ownId_not, hown] at hp
    obtain ⟨rest, hrest, hsyn, -⟩ := hp.sent hout
    have harrived := hforth id
    rw [hes, hrest] at harrived
    have hfirst : (Frame.stream id e).tokens ≠ [] :=
      hne _ ((mem_eventsOn id incoming).mp (by rw [hes]; exact List.mem_cons_self))
    obtain ⟨rfl, htail⟩ := harrived.cons hfirst rfl
    exact ⟨rfl, htail.carries_not hsyn⟩
  · intro id hown hincoming
    obtain ⟨p, hp, hout⟩ := hsender id hincoming
    rw [YamuxSession.Tracks, ownId_not, hown] at hp
    refine ⟨?_, ?_⟩
    · -- the peer accepted the stream on a frame of ours
      apply hs.outgoing id
      exact (hback id).ne_nil (streamTokens_ne_nil hone (hp.announced rfl))
    · obtain ⟨rest, hrest, hsyn, -⟩ := hp.sent hout
      apply (hforth id).carries_not
      rw [hrest, carried_cons, hsyn]
      rfl

namespace Sound

variable {isServer : Bool} {a b o : Side}

/-- What a step leaves of the inbound side, and that the peer has kept the ids
apart so far. -/
theorem heard (ha : Sound isServer a) (ho : Sound (!isServer) o) (hback : o.given <+: a.taken)
    {guard : Guard} {s' : YamuxSession} (hstep : SessionStep guard a.session s')
    (hpipe : s'.transport.stream.delivered <+: o.taken) :
    Reading s'.transport ∧ Polite isServer a.session s'.transport.received := by
  have hfs : s'.transport.stream.delivered <+: encoding o.session.outgoing :=
    hpipe.trans ho.outbound.taken
  have hpolite : ReaderInv s'.transport.reader s'.transport.stream.delivered
        (s'.transport.received.flatMap Frame.tokens) →
      (∀ f ∈ s'.transport.received, f.tokens ≠ []) →
      Polite isServer a.session s'.transport.received := by
    intro hreader hne
    apply ho.tracking.polite ha.tracking ho.reading.nonempty (ho.arrived ha.outbound hback) hne
    exact arrived_of_tokens (hreader.heard ho.outbound.wellFormed hfs)
  rcases hstep.arrives with ⟨hreader, hreceived, hdelivered⟩ | ⟨event, pushed, hreceive⟩
  · have hreading : Reading s'.transport := by
      refine ⟨?_, ?_, ?_⟩
      · rw [hreader, hreceived, hdelivered]
        exact ha.reading.reader
      · rw [hreceived]
        exact ha.reading.nonempty
      · rw [hreader]
        exact ha.reading.due
    exact ⟨hreading, hpolite hreading.reader hreading.nonempty⟩
  · have hreader := hreceive.reader ha.reading ho.outbound.wellFormed hfs
    have hreceived := hreceive.received
    have hne : ∀ f ∈ s'.transport.received, f.tokens ≠ [] := by
      intro f hf
      rw [hreceived] at hf
      rcases List.mem_append.mp hf with hf | hf
      · exact ha.reading.nonempty f hf
      · match event, hf with
        | .ready (some (.ok frame)), hf =>
            obtain rfl := List.mem_singleton.mp hf
            exact hreceive.arrival.tokens_ne ha.reading.due
    refine ⟨⟨hreader, hne, ?_⟩, hpolite hreader hne⟩
    apply hreceive.arrival.due ha.reading.due
    -- the header was sent by a stream of the peer
    intro id flags size hmem
    have hon : .data flags size ∈ eventsOn id s'.transport.received := by
      rw [mem_eventsOn, hreceived]
      exact List.mem_append_right _ hmem
    have hsent := (arrived_of_tokens (hreader.heard ho.outbound.wellFormed hfs) id).mem hon rfl
    obtain ⟨p, hp⟩ := ho.tracking.outgoing id (List.ne_nil_of_mem hsent)
    exact (ho.tracking.holds hp).sizes hsent

theorem step (ha : Sound isServer a) (ho : Sound (!isServer) o) (hstep : Side.Step a b)
    (hpipe : b.given <+: o.taken) (hback : o.given <+: a.taken) : Sound isServer b := by
  cases hstep with
  | openStream hroom =>
      have htracking := ha.tracking.openStream hroom
      -- the id is new, so nothing has come for it
      have hnot : notAddressed a.session .openStream := by
        intro _ event hmem
        have hne := List.ne_nil_of_mem ((mem_eventsOn _ _).mpr hmem)
        obtain ⟨p, hp⟩ := ha.tracking.incoming _ hne
        have hlt := (ha.tracking.holds hp).allocated ha.tracking.ownId_next
        exact Nat.lt_irrefl _ hlt
      have hs : SessionStep notAddressed a.session a.session.openStream := .openStream hnot
      exact ⟨hs.wf ha.wf, hs.pairsOk ha.pairs, hs.outbound ha.wf ha.pairs ha.outbound,
        hs.inStep ha.pairs ha.inStep, htracking, (ha.heard ho hback hs hpipe).1⟩
  | @other s' hs =>
      obtain ⟨hreading, hpolite⟩ := ha.heard ho hback hs hpipe
      have hin : SessionStep notAddressed a.session s' :=
        hs.mono fun m hm hopen => absurd hopen hm.1
      exact ⟨hs.wf ha.wf, hs.pairsOk ha.pairs, hs.outbound ha.wf ha.pairs ha.outbound,
        hin.inStep ha.pairs ha.inStep,
        hs.tracking ha.pairs ha.inStep ha.tracking hpolite, hreading⟩

end Sound

/-- Both ends are sound, in every run. -/
theorem World.sound {maxWriteBuffer : Role → Nat} {w : World}
    (h : (worldMachine maxWriteBuffer).Reachable w) (r : Role) :
    Sound r.isServer (w r) ∧ (w r).given <+: (w r.peer).taken := by
  revert r
  refine h.invariant ?_ ?_
  · rintro w rfl r
    exact ⟨.new _ _, List.nil_prefix⟩
  · rintro w w' hw ⟨r, a, hstep, hpipe, rfl⟩ r'
    have hback := (hw r.peer).2
    rw [Role.peer_peer] at hback
    rcases r.eq_or_eq_peer r' with rfl | rfl
    · rw [Function.update_self, Function.update_of_ne r'.peer_ne]
      have ho := (hw r'.peer).1
      rw [Role.isServer_peer] at ho
      exact ⟨(hw r').1.step ho hstep hpipe hback, hpipe⟩
    · rw [Role.peer_peer, Function.update_self, Function.update_of_ne r.peer_ne]
      exact ⟨(hw r.peer).1, hback.trans hstep.taken⟩

end YamuxLowMem
