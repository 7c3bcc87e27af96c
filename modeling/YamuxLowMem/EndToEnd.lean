/-
YamuxLowMem/EndToEnd.lean

What is read at one end is what was written at the other.

Between a handle that writes and the handle of the same id that reads, the
bytes are in the channel to the head, among the events the head has put out,
among the frames of the session, on the wire, in the reader of the peer, and in
the channel from the head to the handle.  Each of these places holds the front
of the one before it, so what has been read is the front of what was written.

When a read reports the end, the `FIN` has come all this way; and a head puts
it out once everything written has been put out, and will not put out any more.
-/
import YamuxLowMem.Duplex

namespace YamuxLowMem

open Async

theorem payloadOf_mono {es es' : List FrameStreamEvent} (h : es <+: es') :
    payloadOf es <+: payloadOf es' := by
  obtain ⟨rest, rfl⟩ := h
  rw [payloadOf_append]
  exact List.prefix_append _ _

namespace Tracks

variable {own : Bool} {next : Nat} {incoming outgoing : List FrameStreamEvent} {id : StreamID}
  {p q : StreamPair}

/-- What goes out is the front of what was written. -/
theorem out_written (h : Tracks own next incoming outgoing id p) :
    payloadOf outgoing <+: p.handle.written := by
  rw [← h.emitted]
  exact (payloadOf_mono (List.prefix_append _ _)).trans h.reach.writtenInv.isPrefix

/-- What was read is the front of what has come in. -/
theorem read_in (h : Tracks own next incoming outgoing id q) :
    q.handle.read <+: payloadOf incoming := by
  have hread := h.reach.readInv
  exact (hread.isPrefix.trans hread.log).trans (payloadOf_mono h.inputs)

theorem inputs_noReset (h : Tracks own next incoming outgoing id p)
    (hreset : carried Flags.rst incoming = false) : carried Flags.rst p.inputs = false := by
  obtain ⟨rest, hrest⟩ := h.inputs
  rw [← hrest, carried_append, Bool.or_eq_false_iff] at hreset
  exact hreset.1

/-- Nothing goes out after the `FIN`. -/
theorem final (h : Tracks own next incoming outgoing id p)
    (hreset : carried Flags.rst incoming = false) : Final outgoing := by
  have hfinal := h.reach.finInv.final (h.inputs_noReset hreset) h.written
  rw [StreamPair.history, h.emitted] at hfinal
  exact (final_append.mp hfinal).1

/-- With the `FIN` everything written has gone out, and the handle has been
closed or dropped. -/
theorem finished (h : Tracks own next incoming outgoing id p)
    (hreset : carried Flags.rst incoming = false) (hfin : carried Flags.fin outgoing = true) :
    p.up.senderOpen = false ∧ payloadOf outgoing = p.handle.written := by
  have hinputs := h.inputs_noReset hreset
  have hhistory : p.history = outgoing ++ p.head.outs := by rw [StreamPair.history, h.emitted]
  have hlocal : p.head.state.localOpen = false := by
    have hcarried := h.reach.fin_history
    rw [hhistory, carried_append, hfin, Bool.true_or] at hcarried
    simpa using hcarried.symm
  obtain ⟨hsender, -, hall⟩ := h.reach.finInv.closed hinputs h.written hlocal
  refine ⟨hsender, ?_⟩
  -- the head has no payload left to yield
  have hfinal := h.reach.finInv.final hinputs h.written
  rw [hhistory, final_append] at hfinal
  rw [← hall, hhistory, payloadOf_append, hfinal.2.2 hfin, List.append_nil]

/-- After the end has been reported, all that has come in has been read, and
the `FIN` is part of it. -/
theorem ended (h : Tracks own next incoming outgoing id q) (hfair : Fair incoming)
    (heof : q.eof = true) :
    carried Flags.fin incoming = true ∧ q.handle.read = payloadOf incoming := by
  obtain ⟨rest, hrest⟩ := h.inputs
  have hinputs : Fair q.inputs := by
    rw [← hrest] at hfair
    exact hfair.left
  obtain ⟨hfin, hread⟩ := h.reach.eofInv.eof hinputs heof
  have hfinal := hfair.final
  rw [← hrest, final_append] at hfinal
  rw [← hrest, carried_append, payloadOf_append, hfin, hfinal.2.2 hfin, hread]
  exact ⟨Bool.true_or _, (List.append_nil _).symm⟩

end Tracks

/-! ### One direction of one stream -/

namespace Sound

variable {isServer : Bool} {a o : Side} {id : StreamID} {p q : StreamPair}

/-- The peer plays fair. -/
theorem fair (ha : Sound isServer a) (ho : Sound (!isServer) o) (hpipe : a.given <+: o.taken)
    (hback : o.given <+: a.taken) (hq : a.session.Holds id q) (hp : o.session.Holds id p) :
    carried Flags.rst (eventsOn id o.session.transport.received) = false ∧
      Fair (eventsOn id a.session.transport.received) := by
  have hforth := ha.arrived ho.outbound hpipe id
  have hnone : carried Flags.rst (eventsOn id o.session.transport.received) = false :=
    (ho.arrived ha.outbound hback id).carries_not (ha.tracking.holds hq).noReset
  have htracks := ho.tracking.holds hp
  refine ⟨hnone, hforth.carries_not htracks.noReset, ?_, hforth.final (htracks.final hnone)⟩
  intro hmem
  exact ha.reading.nonempty _ ((mem_eventsOn _ _).mp hmem) rfl

theorem read_prefix (ha : Sound isServer a) (ho : Sound (!isServer) o) (hpipe : a.given <+: o.taken)
    (hq : a.session.Holds id q) (hp : o.session.Holds id p) :
    q.handle.read <+: p.handle.written := by
  have hin := (ha.tracking.holds hq).read_in
  have hwire := (ha.arrived ho.outbound hpipe id).payload
  exact (hin.trans hwire).trans (ho.tracking.holds hp).out_written

theorem read_all (ha : Sound isServer a) (ho : Sound (!isServer) o) (hpipe : a.given <+: o.taken)
    (hback : o.given <+: a.taken) (hq : a.session.Holds id q) (hp : o.session.Holds id p)
    (heof : q.eof = true) : p.up.senderOpen = false ∧ q.handle.read = p.handle.written := by
  obtain ⟨hreset, hfair⟩ := ha.fair ho hpipe hback hq hp
  have hforth := ha.arrived ho.outbound hpipe id
  have htracks := ho.tracking.holds hp
  obtain ⟨hfin, hread⟩ := (ha.tracking.holds hq).ended hfair heof
  obtain ⟨hsender, hall⟩ := htracks.finished hreset (hforth.carries hfin)
  refine ⟨hsender, ?_⟩
  rw [hread, hforth.complete (htracks.final hreset) hfin, hall]

/-- Whatever comes in on a stream was sent by a stream of the peer. -/
theorem sender (ha : Sound isServer a) (ho : Sound (!isServer) o) (hpipe : a.given <+: o.taken)
    (hne : eventsOn id a.session.transport.received ≠ []) : ∃ p, o.session.Holds id p := by
  apply ho.tracking.outgoing id
  exact (ha.arrived ho.outbound hpipe id).ne_nil (streamTokens_ne_nil ha.reading.nonempty hne)

/-- A read that has returned something, if only the end, has got it from
somewhere. -/
theorem heard_of_read (ha : Sound isServer a) (hq : a.session.Holds id q)
    (hread : q.handle.read ≠ [] ∨ q.eof = true) :
    eventsOn id a.session.transport.received ≠ [] := by
  have htracks := ha.tracking.holds hq
  intro hnil
  rw [YamuxSession.Tracks, hnil] at htracks
  rcases hread with hread | heof
  · exact hread (List.prefix_nil.mp htracks.read_in)
  · have hfair : Fair [] := ⟨rfl, List.not_mem_nil, trivial⟩
    cases (htracks.ended hfair heof).1

end Sound

/-! ### Both directions of all streams -/

/-- In every run of a client and a server joined by two byte pipes, without empty
writes and with fewer than `2 ^ 31 - 1` calls of `open_stream` at each end, for every
stream `q` of either end: what its handle has read is the front of what the
handle of the same id at the other end has written, and once a read has
reported the end, that handle has been closed or dropped and the two byte
strings are equal.  There is such a handle if anything has been read, or the
end reported. -/
theorem end_to_end {maxWriteBuffer : Role → Nat} {w : World}
    (h : (worldMachine maxWriteBuffer).Reachable w) (r : Role) {id : StreamID} {q : StreamPair}
    (hq : (w r).session.Holds id q) :
    (∀ p, (w r.peer).session.Holds id p →
      q.handle.read <+: p.handle.written ∧
      (q.eof = true → p.up.senderOpen = false ∧ q.handle.read = p.handle.written)) ∧
    (q.handle.read ≠ [] ∨ q.eof = true → ∃ p, (w r.peer).session.Holds id p) := by
  obtain ⟨ha, hpipe⟩ := World.sound h r
  obtain ⟨ho, hback⟩ := World.sound h r.peer
  rw [Role.isServer_peer] at ho
  rw [Role.peer_peer] at hback
  refine ⟨?_, ?_⟩
  · intro p hp
    exact ⟨ha.read_prefix ho hpipe hq hp, ha.read_all ho hpipe hback hq hp⟩
  · intro hread
    exact ha.sender ho hpipe (ha.heard_of_read hq hread)

/-- The client opens a stream, writes two bytes and closes; the server reads
them, and then the end. -/
def exchange : List (Role × Move) :=
  [(.client, .openStream),
    (.client, .handle (.registered ⟨1⟩) (.write [7, 8])),
    (.client, .handle (.registered ⟨1⟩) .close),
    (.client, .poll (List.replicate 4 (.ready (.ok 100))) [] [] [⟨1⟩]),
    -- the frames come in two parts, cut inside the data header
    (.server, .poll [] [.ready (.ok [0, 1, 0, 1, 0, 0, 0, 1, 0, 4, 0, 0, 0, 0, 0])] [] []),
    (.server, .poll []
      [.ready (.ok [0, 0, 0, 0, 1, 0, 0, 0, 2, 7, 8, 0, 1, 0, 4, 0, 0, 0, 1, 0, 0, 0, 0])] []
      [⟨1⟩]),
    (.server, .handle (.registered ⟨1⟩) (.read 16)),
    (.server, .handle (.registered ⟨1⟩) (.read 16))]

theorem end_to_end_exchange :
    ∃ w q p, (World.new fun _ => 0).run exchange = some w ∧
      (w .server).session.Holds ⟨1⟩ q ∧ (w .client).session.Holds ⟨1⟩ p ∧
      q.handle.read = [7, 8] ∧ p.up.senderOpen = false ∧ q.handle.read = p.handle.written := by
  obtain ⟨w, hrun, hw⟩ := Option.map_eq_some_iff.mp (by decide +kernel :
    ((World.new fun _ => 0).run exchange).map (fun w =>
      (((w .server).session.streams.lookup ⟨1⟩).map fun q => (q.handle.read, q.eof),
        (w .client).session.dropped.map fun p => p.handle.id)) =
      some (some ([7, 8], true), [⟨1⟩]))
  obtain ⟨hserver, hclient⟩ := Prod.mk.inj hw
  obtain ⟨q, hq, hread⟩ := Option.map_eq_some_iff.mp hserver
  obtain ⟨hbytes, heof⟩ := Prod.mk.inj hread
  -- the client has forgotten the head, but the application has the handle
  obtain ⟨p, hp, hid⟩ := List.mem_map.mp (hclient ▸ List.mem_singleton.mpr rfl)
  have hreach := callMachine_reachable (World.reachable_of_run (.init rfl) hrun)
  have hboth := (end_to_end hreach .server (Or.inl hq)).1 p (Or.inr ⟨hp, hid⟩)
  obtain ⟨hsender, hall⟩ := hboth.2 heof
  exact ⟨w, q, p, hrun, Or.inl hq, Or.inr ⟨hp, hid⟩, hbytes, hsender, hall⟩

end YamuxLowMem
