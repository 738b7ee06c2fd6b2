import Tjost.Library.Transition
import Tjost.Host.HandOvers
import Tjost.Pipe.Copies
import Tjost.Uplink.Replies

/-!
# The way of a query and of its reply

A query goes through four queues: the queue of an uplink, `pipe_uplink_tx`,
`pipe_uplink_rx` and the host queue. Two threads take it along, and the address it is
to be answered to is the `module` of the event: the `process_out` of the uplink writes
itself there, the callback that answers reads it, and the main loop goes by it.

`Routing.machine` has the audio thread in the order of `_process`, the uv loop, and
JACK's notification thread, which take their steps in any order. A push into
`pipe_uplink_rx`, from the building of its packet on, is one step: two of them do not
overlap (`UplinkRx.Apart` says what happens if they do). So is a `tjost_pipe_produce` into
`pipe_uplink_tx`, which has one producer and one consumer (`Channel`). What the consumers
copy is not cut to the size of their buffers, which is the subject of `CopyState`.

`Routing.routing`: along every run

* every query that a transmit ring with room has taken was answered, once and in
  order, or is still on its way to the callbacks;
* every packet that the receive ring had room for becomes one event of the host queue,
  in order, or is still in the ring;
* such an event is queued and not handed over at all, or it was handed over as a whole,
  once: the reply to the children and the responder of the uplink that its query left
  through, the notification to those of every uplink.

A cycle that has ended leaves none of them queued, and has taken along every packet that
was in the ring when it began.
-/

open Transition ByteMemory

namespace Tjost

variable {ρ σ : Type}

/-! ### Pipes of whole records -/

/-- The pipe carries these records. -/
def Carries (R : ByteRing ρ ringbufSize) (pipe : ρ) (rs : List Record) : Prop :=
  R.contents pipe = rs.flatMap Record.bytes ∧ ∀ r ∈ rs, r.Sized

namespace Carries

variable {R : ByteRing ρ ringbufSize} {pipe : ρ} {rs : List Record}

theorem of_empty (h : R.contents pipe = []) : Carries R pipe [] :=
  ⟨h, fun _ hr => absurd hr List.not_mem_nil⟩

theorem produce (h : Carries R pipe rs) (r : Record)
    (hfit : sizeofEvent + r.buf.length ≤ R.writeSpace pipe) :
    Carries R (pipeProduce R r.stale pipe r.module r.time r.buf).1 (rs ++ [r]) := by
  obtain ⟨hcontents, hsized⟩ := h
  constructor
  · rw [(pipeProduce_of_fits r.stale r.module r.time hfit).2, hcontents, List.flatMap_append,
      List.flatMap_singleton]
    rfl
  · intro x hx
    rcases List.mem_append.mp hx with hx | hx
    · exact hsized x hx
    · have hspace := R.writeSpace_eq pipe
      have hring : ringbufSize < 2 ^ 64 := by decide
      rw [List.mem_singleton.mp hx]
      unfold Record.Sized
      omega

theorem consume_nil (h : Carries R pipe []) : pipeConsume R pipe = (pipe, none) := by
  have hspace : R.readSpace pipe < sizeofEvent := by
    rw [R.readSpace_eq, h.1]
    decide
  unfold pipeConsume
  rw [if_pos hspace]

theorem consume_cons {r : Record} (h : Carries R pipe (r :: rs)) :
    (pipeConsume R pipe).2 = some (r.header, r.buf) ∧ Carries R (pipeConsume R pipe).1 rs := by
  obtain ⟨hcontents, hsized⟩ := h
  obtain ⟨hread, hrest⟩ := pipeConsume_record (hsized r List.mem_cons_self)
    (hcontents.trans List.flatMap_cons)
  exact ⟨hread, hrest, fun x hx => hsized x (List.mem_cons_of_mem _ hx)⟩

end Carries

/-! ### The state -/

/-- Where a `_process` is. -/
inductive CyclePc
  | idle
  /-- In `tjost_uplink_rx_drain`. -/
  | drain (last nframes : NFrames)
  /-- At the inputs, in front of the main loop. -/
  | inputs (last nframes : NFrames)
  /-- In the loops over the outputs and the uplinks, with the modules that are left. -/
  | sending (last nframes : NFrames) (modules : List ModulePtr)
  deriving DecidableEq, Repr

/-- An event that the `process_out` of an uplink pushes, and whether the transmit ring
had room for it. -/
structure Departure where
  uplink : ModulePtr
  buf : List UInt8
  room : Bool
  deriving DecidableEq, Repr

/-- A packet that was to be pushed into the receive ring, the bytes that were built, or
`none` for `NULL`, and whether the ring had room for them. -/
structure Posting where
  packet : Uplink.Packet
  bytes : Option (List UInt8)
  room : Bool
  deriving DecidableEq, Repr

/-- The host, the receive pipe of its uplinks, and the threads at work on them. -/
structure Routing (ρ σ : Type) where
  host : Host ρ σ
  pipeUplinkRx : ρ
  bufRx : ByteMemory.Memory
  cycle : CyclePc
  /-- The `module` of the event that the uv loop dispatches. -/
  replyTo : ModulePtr
  /-- The messages of that event that are left. -/
  todo : List OscMessage
  /-- Ghost: what left through the uplinks. -/
  departed : List Departure
  /-- Ghost: what was to be pushed into the receive ring. -/
  posted : List Posting
  /-- Ghost: the events that `tjost_uplink_rx_drain` scheduled. -/
  drained : List Event
  /-- Ghost: how much the receive ring had accepted when the last cycle began. -/
  begun : ℕ

inductive RoutingLabel
  /-- JACK starts a cycle. -/
  | begin (last nframes : NFrames)
  /-- An input schedules on the host queue. -/
  | schedule (c : SchedCall)
  /-- The next step of the cycle. -/
  | cycle
  /-- The uv loop takes the next record out of the transmit pipe. -/
  | wake
  /-- The uv loop runs the callback of the next message. JACK gives that answer, if it
  is asked. -/
  | message (answer : Option (List (List Char)))
  /-- JACK announces a change. -/
  | notify (n : Uplink.Notification)

namespace Routing

variable (P : Platform ρ σ) {O : LibOsc} (G : OscGetters O)

/-- The packets that the receive ring had room for. -/
def accepted (s : Routing ρ σ) : List Posting := s.posted.filter Posting.room

variable (O) in
/-- Build a packet and push it, if it is not `NULL`. -/
def post (s : Routing ρ σ) (p : Uplink.Packet) : Routing ρ σ :=
  match p.build O s.bufRx with
  | (bufRx, none) => { s with bufRx, posted := s.posted ++ [⟨p, none, false⟩] }
  | (bufRx, some len) =>
    let packet := read bufRx 0 len
    { s with
      bufRx
      pipeUplinkRx := (pipeProduce P.ring (P.stale ⟨0, p.module, 0, packet⟩) s.pipeUplinkRx
        p.module 0 packet).1
      posted := s.posted ++
        [⟨p, some packet, decide (sizeofEvent + packet.length ≤ P.ring.writeSpace s.pipeUplinkRx)⟩] }

/-- The callback of a message. What `jack_connect` and `jack_disconnect` do is not part
of the state. -/
def callback (s : Routing ρ σ) (msg : OscMessage) (answer : Option (List (List Char))) :
    Routing ρ σ :=
  match Uplink.query G msg with
  | some q => s.post P O (.reply s.replyTo q answer)
  | none => s

/-- The `process_out` of an uplink, one iteration of its loop. At its end the next
module has its turn. -/
def uplinkStep (s : Routing ρ σ) (last nframes : NFrames) (m : ModulePtr)
    (modules : List ModulePtr) : Routing ρ σ :=
  match (s.host.module m).queue with
  | [] => { s with cycle := .sending last nframes modules }
  | tev :: _ =>
    if last + nframes ≤ tev.time then { s with cycle := .sending last nframes modules }
    else
      { s with
        host := sendOne P last nframes m tev s.host
        departed := s.departed ++
          [⟨m, tev.buf, decide (sizeofEvent + tev.size ≤ P.ring.writeSpace s.host.pipeUplinkTx)⟩] }

/-- The next step of `_process`. -/
def cycleStep (s : Routing ρ σ) : Option (Routing ρ σ) :=
  match s.cycle with
  | .idle => none
  | .drain last nframes =>
    match pipeConsume P.ring s.pipeUplinkRx with
    | (pipe, some (tev, buf)) =>
      some { s with
        pipeUplinkRx := pipe
        host := hostScheduleInline P tev.module tev.time buf s.host
        drained := s.drained ++ [⟨s.host.seq, tev.module, tev.time, buf⟩] }
    | (_, none) =>
      some { s with host := { s.host with pipeUplinkTxCount := 0 }, cycle := .inputs last nframes }
  | .inputs last nframes =>
    let h := mainLoop P last nframes s.host
    some { s with
      host := h
      cycle := .sending last nframes
        (h.modules.filter (fun m => isOutput (h.module m).type) ++ h.uplinks) }
  | .sending last nframes (m :: modules) =>
    match (s.host.module m).dat with
    | .uplink => some (s.uplinkStep P last nframes m modules)
    | _ =>
      some { s with
        host := processOut P last nframes m s.host
        cycle := .sending last nframes modules }
  | .sending _ _ [] =>
    some { s with
      host :=
        if s.host.pipeUplinkTxCount > 0 ∧ P.asyncSendError.isSome then
          s.host.messagePush ["tjost_pipe_flush failed"]
        else s.host
      cycle := .idle }

def step (s : Routing ρ σ) : RoutingLabel → Option (Routing ρ σ)
  | .begin last nframes =>
    if s.cycle = .idle then
      some { s with cycle := .drain last nframes, begun := s.accepted.length }
    else none
  | .schedule c =>
    match s.cycle with
    | .inputs _ _ => some { s with host := c.run P s.host }
    | _ => none
  | .cycle => s.cycleStep P
  | .wake =>
    if s.todo = [] then
      match pipeConsume P.ring s.host.pipeUplinkTx with
      | (pipe, some (tev, buf)) =>
        some { s with
          host := { s.host with pipeUplinkTx := pipe }
          replyTo := tev.module
          todo := P.osc.messages buf }
      | (_, none) => some s
    else none
  | .message answer =>
    match s.todo with
    | [] => none
    | msg :: todo => some ({ s with todo }.callback P G msg answer)
  | .notify n => some (s.post P O (.notification n))

/-- The host is fresh, the pipes are empty and the threads are idle. What the queues of
the modules hold is open. -/
structure Init (s : Routing ρ σ) : Prop where
  fresh : s.host.Fresh
  delivered : s.host.delivered = []
  addressed : ∀ m ∈ s.host.modules ++ s.host.uplinks, m ≠ moduleBroadcast
  tx : P.ring.contents s.host.pipeUplinkTx = []
  rx : P.ring.contents s.pipeUplinkRx = []
  cycle : s.cycle = .idle
  todo : s.todo = []
  departed : s.departed = []
  posted : s.posted = []
  drained : s.drained = []
  begun : s.begun = 0

def machine : Machine (Routing ρ σ) RoutingLabel where
  init := Init P
  step := step P G

/-- The periods of the cycles are not empty, and they do not wrap. -/
def Periods (_ : Routing ρ σ) : RoutingLabel → Prop
  | .begin last nframes => 0 < nframes ∧ NoWrap last nframes
  | _ => True

instance (s : Routing ρ σ) : ∀ l, Decidable (Periods s l)
  | .begin _ _ => inferInstanceAs (Decidable (_ ∧ _))
  | .schedule _ | .cycle | .wake | .message _ | .notify _ => isTrue trivial

/-! ### What is conserved -/

/-- The queries among messages, and the uplink they left through. -/
def asked (uplink : ModulePtr) (msgs : List OscMessage) : List (ModulePtr × Uplink.Query) :=
  msgs.filterMap fun msg => (Uplink.query G msg).map (uplink, ·)

/-- The queries that left, where the transmit ring had room. -/
def left (s : Routing ρ σ) : List (ModulePtr × Uplink.Query) :=
  (s.departed.filter Departure.room).flatMap fun d => asked G d.uplink (P.osc.messages d.buf)

/-- The queries that were answered. -/
def answered (s : Routing ρ σ) : List (ModulePtr × Uplink.Query) :=
  s.posted.filterMap fun p => p.packet.query?

/-- The uplinks that a packet is for. -/
def receivers (h : Host ρ σ) : Uplink.Packet → List ModulePtr
  | .reply uplink _ _ => [uplink]
  | .notification _ => h.uplinks

/-- The packet is the event, which is queued and of which nothing was handed over, or
which was handed over to everyone that its uplinks have, once. -/
structure Arrived (h₀ h : Host ρ σ) (p : Posting) (e : Event) : Prop where
  module : e.module = p.packet.module
  bytes : p.bytes = some e.buf
  handedOver : e ∈ h.queue ∧ h.handedOver e.seq = [] ∨
    e ∉ h.queue ∧ ∃ time, h.handedOver e.seq =
      (receivers h₀ p.packet).flatMap fun u => deliveriesOf h₀ u e.seq time e.buf

/-- The packet is the record. -/
structure Waits (p : Posting) (r : Record) : Prop where
  module : r.module = p.packet.module
  time : r.time = 0
  bytes : p.bytes = some r.buf

end Routing

/-! ### The host along a cycle -/

section Host

variable (P : Platform ρ σ)

/-- The host dispatches as it should, over the modules of `h₀`, and records what it hands
over. -/
structure Recorded (h₀ h : Host ρ σ) : Prop where
  inv : HostInv h
  graph : SameGraph h₀ h
  handOvers : h.delivered = h.dispatched.flatMap (handOvers h₀)

namespace Recorded

variable {h₀ h h' : Host ρ σ}

/-- The record does not read the pipes, the messages and the module queues. -/
theorem of_eq (a : Recorded h₀ h) (g : SameGraph h h') (hseq : h'.seq = h.seq)
    (hqueue : h'.queue = h.queue) (hsched : h'.scheduled = h.scheduled)
    (hdisp : h'.dispatched = h.dispatched) (hdel : h'.delivered = h.delivered) :
    Recorded h₀ h' where
  inv := a.inv.of_eq (le_of_eq hseq.symm) hqueue hsched hdisp
  graph := a.graph.trans g
  handOvers := by rw [hdel, hdisp]; exact a.handOvers

theorem schedule (a : Recorded h₀ h) (m : ModulePtr) (time : NFrames) (buf : List UInt8) :
    Recorded h₀ (hostSchedule P m time buf h) :=
  ⟨a.inv.schedule P m time buf,
    a.graph.trans ⟨rfl, rfl, fun _ => rfl, fun _ => rfl, fun _ => rfl⟩, a.handOvers⟩

theorem schedCall (a : Recorded h₀ h) (c : SchedCall) : Recorded h₀ (c.run P h) := by
  unfold SchedCall.run
  split
  · exact a.schedule P c.module c.time c.buf
  · exact a.schedule P c.module c.time c.buf

theorem mainLoop (a : Recorded h₀ h) (last nframes : NFrames) :
    Recorded h₀ (mainLoop P last nframes h) where
  inv := a.inv.mainLoop P last nframes
  graph := a.graph.trans (mainLoop_graph P a.inv.ordered)
  handOvers := a.inv.mainLoop_handOvers P a.graph a.handOvers last nframes

theorem processOut (a : Recorded h₀ h) (last nframes : NFrames) (m : ModulePtr) :
    Recorded h₀ (processOut P last nframes m h) where
  inv := a.inv.processOut P last nframes m
  graph := a.graph.trans (processOut_graph P last nframes m h)
  handOvers :=
    processOut_invariant P last nframes
      (I := fun h' => h'.delivered = h'.dispatched.flatMap (Tjost.handOvers h₀))
      (fun _ _ _ _ hd => hd) (fun _ _ _ hd => hd) (fun _ _ _ _ hd => hd) a.handOvers m

end Recorded

theorem processOut_scheduled (last nframes : NFrames) (m : ModulePtr) (h : Host ρ σ) :
    h.scheduled <+: (processOut P last nframes m h).scheduled ∧
      (processOut P last nframes m h).dispatched = h.dispatched := by
  refine processOut_invariant P last nframes
    (I := fun h' => h.scheduled <+: h'.scheduled ∧ h'.dispatched = h.dispatched)
    (fun _ _ _ _ hd => hd) (fun _ _ _ hd => hd) ?_ ⟨List.prefix_rfl, rfl⟩ m
  intro h' m time buf hd
  exact ⟨hd.1.trans (List.prefix_append _ _), hd.2⟩

/-- Only an uplink moves the transmit pipe of the uplinks. -/
theorem processOut_pipeUplinkTx (last nframes : NFrames) {m : ModulePtr} {h : Host ρ σ}
    (hm : (h.module m).dat ≠ .uplink) :
    (processOut P last nframes m h).pipeUplinkTx = h.pipeUplinkTx := by
  unfold processOut
  cases hdat : (h.module m).dat <;> simp only [hdat]
  case uplink => exact absurd hdat hm
  case loopback =>
    exact DrainLoop.run_dat_invariant (L := Loopback.loop P last nframes m)
      (I := fun d => d.pipeUplinkTx = h.pipeUplinkTx) (fun _ _ hd => hd) rfl
  all_goals rfl

/-- The main loop leaves the transmit pipe alone. -/
theorem mainLoop_pipeUplinkTx (last nframes : NFrames) (h : Host ρ σ) :
    (mainLoop P last nframes h).pipeUplinkTx = h.pipeUplinkTx := by
  refine dueLoop_invariant (I := fun h' => h'.pipeUplinkTx = h.pipeUplinkTx) h.queue ?_ h rfl
  intro tev _ h' htx
  exact dispatchEvent_invariant P (I := fun h' : Host ρ σ => h'.pipeUplinkTx = h.pipeUplinkTx)
    (C := fun _ => True) (fun _ _ _ _ _ => trivial) (fun _ _ _ ht => ht)
    (fun _ _ _ _ ht => ht) (fun _ _ _ _ ht => ht) htx

/-- An iteration in an uplink produces the event into the transmit pipe, with the uplink
as its module. -/
theorem sendOne_uplink (last nframes : NFrames) {m : ModulePtr} {h : Host ρ σ}
    (hm : (h.module m).dat = .uplink) (tev : Event) :
    let h' := sendOne P last nframes m tev h
    (∃ stale time, h'.pipeUplinkTx =
        (pipeProduce P.ring stale h.pipeUplinkTx m time tev.buf).1) ∧
      SameGraph h h' ∧ h'.seq = h.seq ∧ h'.queue = h.queue ∧ h'.scheduled = h.scheduled ∧
        h'.dispatched = h.dispatched ∧ h'.delivered = h.delivered := by
  unfold sendOne
  simp only [hm]
  have g := SameGraph.setModule h m (x := { h.module m with
    queue := unlink tev (h.module m).queue, dat := .uplink }) rfl rfl rfl
  refine ⟨⟨_, clamp last last tev.time, rfl⟩, ?_, rfl, rfl, rfl, rfl, rfl⟩
  exact ⟨g.modules, g.uplinks, g.type, g.children, g.hasLuaCallback⟩

/-- The state of the `process_out` of an uplink, put back into the host. -/
def Host.putUplink (h : Host ρ σ) (m : ModulePtr) (s : OutState (ρ × ℕ)) : Host ρ σ :=
  { h.putBack m (h.module m) s .uplink with
    pipeUplinkTx := s.dat.1, pipeUplinkTxCount := s.dat.2 }

theorem Host.putUplink_outState {m : ModulePtr} {h : Host ρ σ}
    (hm : (h.module m).dat = .uplink) :
    h.putUplink m (h.outState (h.module m) (h.pipeUplinkTx, h.pipeUplinkTxCount)) = h := by
  have hsame : Function.update h.module m { h.module m with dat := ModuleDat.uplink } =
      h.module := by
    rw [← hm]
    exact Function.update_eq_self m h.module
  show { h with
    module := Function.update h.module m { h.module m with dat := ModuleDat.uplink }
    drained := h.drained ++ [] } = h
  rw [hsame, List.append_nil]

theorem foldl_sendOne_uplink (last nframes : NFrames) {m : ModulePtr} {h : Host ρ σ}
    (hm : (h.module m).dat = .uplink) (l : List Event) :
    l.foldl (fun h tev => sendOne P last nframes m tev h) h =
      h.putUplink m (l.foldl (fun s tev => (Uplink.loop P last m).body last tev s)
        (h.outState (h.module m) (h.pipeUplinkTx, h.pipeUplinkTxCount))) := by
  induction l using List.reverseRecOn with
  | nil => exact (Host.putUplink_outState hm).symm
  | append_singleton l tev ih =>
    rw [List.foldl_append, List.foldl_append, ih]
    set s := l.foldl (fun s tev => (Uplink.loop P last m).body last tev s)
      (h.outState (h.module m) (h.pipeUplinkTx, h.pipeUplinkTxCount)) with hs
    show sendOne P last nframes m tev (h.putUplink m s) =
      h.putUplink m ((Uplink.loop P last m).body last tev s)
    have hmod : (h.putUplink m s).module m =
        { h.module m with queue := s.queue, dat := .uplink } := Function.update_self _ _ _
    unfold sendOne
    simp only [hmod]
    unfold Host.putUplink Host.putBack Host.setModule
    simp only [Function.update_idem, DrainLoop.body, Host.outState, List.map_append,
      List.append_assoc, List.nil_append]

/-- **The iterations are the `process_out`** of the uplink, if nobody interferes. -/
theorem processOut_uplink (last nframes : NFrames) {m : ModulePtr} {h : Host ρ σ}
    (hm : (h.module m).dat = .uplink) (hq : Ordered (h.module m).queue) :
    processOut P last nframes m h =
      (dueEvents last nframes (h.module m).queue).foldl
        (fun h tev => sendOne P last nframes m tev h) h := by
  set s := h.outState (h.module m) (h.pipeUplinkTx, h.pipeUplinkTxCount) with hs
  have hrun : Uplink.processOut P last nframes m s =
      (dueEvents last nframes (h.module m).queue).foldl
        (fun s tev => (Uplink.loop P last m).body last tev s) s := dueLoop_eq_foldl hq s
  rw [foldl_sendOne_uplink P last nframes hm, ← hs, ← hrun]
  unfold processOut
  simp only [hm]
  rfl

end Host

namespace Routing

variable {P : Platform ρ σ} {O : LibOsc} {G : OscGetters O} {h₀ : Host ρ σ}
  {s s' : Routing ρ σ}

/-! ### A push into the receive ring -/

/-- What a push does: it adds a record if there is room, and leaves the rest alone. -/
structure Posts (P : Platform ρ σ) (O : LibOsc) (p : Uplink.Packet) (x : Posting)
    (s s' : Routing ρ σ) : Prop where
  posted : s'.posted = s.posted ++ [x]
  packet : x.packet = p
  whole : (p.bytes O).length ≤ bufSize → x.bytes = some (p.bytes O)
  room : x.room = true → ∃ r, Waits x r ∧ ∀ rs, Carries P.ring s.pipeUplinkRx rs →
    Carries P.ring s'.pipeUplinkRx (rs ++ [r])
  full : x.room = false → ∀ rs, Carries P.ring s.pipeUplinkRx rs →
    Carries P.ring s'.pipeUplinkRx rs

theorem post_posts (s : Routing ρ σ) (p : Uplink.Packet) :
    ∃ x, Posts P O p x s (s.post P O p) := by
  unfold post
  split
  · next bufRx hbuild =>
    -- the packet does not fit into the buffer, and nothing is produced
    refine ⟨⟨p, none, false⟩, rfl, rfl, ?_, ?_, fun _ _ hrx => hrx⟩
    · intro hfit
      rw [Uplink.Packet.build_of_fits hfit] at hbuild
      exact nomatch (Prod.mk.inj hbuild).2
    · intro hroom
      exact nomatch hroom
  · next bufRx len hbuild =>
    set packet := read bufRx 0 len with hpacket
    refine ⟨⟨p, some packet, decide (sizeofEvent + packet.length ≤
      P.ring.writeSpace s.pipeUplinkRx)⟩, rfl, rfl, ?_, ?_, ?_⟩
    · intro hfit
      rw [Uplink.Packet.build_of_fits hfit] at hbuild
      obtain ⟨hbufRx, hlen⟩ := Prod.mk.inj hbuild
      rw [hpacket, ← hbufRx, ← Option.some.inj hlen]
      exact congrArg some (read_write s.bufRx 0 (p.bytes O))
    · intro hroom
      set r : Record := ⟨P.stale ⟨0, p.module, 0, packet⟩, p.module, 0, packet⟩ with hr
      refine ⟨r, ⟨rfl, rfl, rfl⟩, fun rs hrx => ?_⟩
      have hfit : sizeofEvent + r.buf.length ≤ P.ring.writeSpace s.pipeUplinkRx :=
        of_decide_eq_true hroom
      exact hrx.produce r hfit
    · intro hroom rs hrx
      show Carries P.ring (pipeProduce P.ring _ s.pipeUplinkRx p.module 0 packet).1 rs
      rw [pipeProduce_of_full (Nat.lt_of_not_le (of_decide_eq_false hroom))]
      exact hrx

/-- A push leaves the host, the cycle and the uv loop alone. -/
theorem post_keeps (s : Routing ρ σ) (p : Uplink.Packet) :
    let s' := s.post P O p
    s'.host = s.host ∧ s'.cycle = s.cycle ∧ s'.replyTo = s.replyTo ∧ s'.todo = s.todo ∧
      s'.departed = s.departed ∧ s'.drained = s.drained ∧ s'.begun = s.begun := by
  unfold post
  split
  · exact ⟨rfl, rfl, rfl, rfl, rfl, rfl, rfl⟩
  · exact ⟨rfl, rfl, rfl, rfl, rfl, rfl, rfl⟩

/-! ### The invariant -/

end Routing

/-- The main loop of the cycle is over. -/
def CyclePc.dispatched : CyclePc → Bool
  | .idle | .sending _ _ _ => true
  | .drain _ _ | .inputs _ _ => false

/-- The drain of the cycle is over. -/
def CyclePc.drained : CyclePc → Bool
  | .drain _ _ => false
  | _ => true

/-- The period of the cycle is not empty, and the modules that it sends on have an
address. -/
def CyclePc.Valid : CyclePc → Prop
  | .idle => True
  | .drain last nframes | .inputs last nframes => 0 < last + nframes
  | .sending _ _ modules => ∀ m ∈ modules, m ≠ moduleBroadcast

namespace Routing

/-- The audio thread. What it drained is immediate, and is dispatched by the main loop of
the same cycle. -/
structure HostSide (h₀ : Host ρ σ) (s : Routing ρ σ) : Prop where
  recorded : Recorded h₀ s.host
  valid : s.cycle.Valid
  scheduled : ∀ e ∈ s.drained, e ∈ s.host.scheduled
  numbered : s.drained.Pairwise fun a b => a.seq < b.seq
  immediate : ∀ e ∈ s.drained, e.time = 0
  dispatched : s.cycle.dispatched = true → ∀ e ∈ s.drained, ∃ d ∈ s.host.dispatched, d.ev = e

/-- The transmit ring. Every query that it took is answered, or with the uv loop, or in
the ring. -/
structure TxSide (P : Platform ρ σ) {O : LibOsc} (G : OscGetters O) (s : Routing ρ σ) :
    Prop where
  addressed : ∀ d ∈ s.departed, d.uplink ≠ moduleBroadcast
  queries : ∃ tx, Carries P.ring s.host.pipeUplinkTx tx ∧
    s.left P G = s.answered ++ asked G s.replyTo s.todo ++
      tx.flatMap fun r => asked G r.module (P.osc.messages r.buf)

/-- The receive ring. Every packet that it took became an event, or is in the ring. -/
structure RxSide (P : Platform ρ σ) (O : LibOsc) (s : Routing ρ σ) : Prop where
  whole : ∀ x ∈ s.posted, (x.packet.bytes O).length ≤ bufSize →
    x.bytes = some (x.packet.bytes O)
  packets : ∃ arrived waiting rx, Carries P.ring s.pipeUplinkRx rx ∧
    s.accepted = arrived ++ waiting ∧
    List.Forall₂ (fun (x : Posting) (e : Event) =>
      e.module = x.packet.module ∧ x.bytes = some e.buf) arrived s.drained ∧
    List.Forall₂ Waits waiting rx
  begun : s.begun ≤ s.accepted.length
  taken : s.cycle.drained = true → s.begun ≤ s.drained.length

/-- The invariant of a run. -/
structure Inv (P : Platform ρ σ) {O : LibOsc} (G : OscGetters O) (h₀ : Host ρ σ)
    (s : Routing ρ σ) : Prop where
  host : HostSide h₀ s
  tx : TxSide P G s
  rx : RxSide P O s

variable {P : Platform ρ σ} {O : LibOsc} {G : OscGetters O} {h₀ : Host ρ σ}
  {s s' : Routing ρ σ}

theorem Init.inv (h : Init P s) : Inv P G s.host s where
  host := {
    recorded := {
      inv := h.fresh.runInv.inv
      graph := SameGraph.refl _
      handOvers := by rw [h.delivered, h.fresh.dispatched]; rfl }
    valid := by rw [h.cycle]; trivial
    scheduled := by rw [h.drained]; exact fun _ he => absurd he List.not_mem_nil
    numbered := by rw [h.drained]; exact List.Pairwise.nil
    immediate := by rw [h.drained]; exact fun _ he => absurd he List.not_mem_nil
    dispatched := by rw [h.drained]; exact fun _ _ he => absurd he List.not_mem_nil }
  tx := {
    addressed := by rw [h.departed]; exact fun _ hd => absurd hd List.not_mem_nil
    queries := by
      refine ⟨[], Carries.of_empty h.tx, ?_⟩
      unfold left answered
      rw [h.departed, h.posted, h.todo]
      rfl }
  rx := {
    whole := by rw [h.posted]; exact fun _ hx => absurd hx List.not_mem_nil
    packets := by
      refine ⟨[], [], [], Carries.of_empty h.rx, ?_, ?_, List.Forall₂.nil⟩
      · unfold accepted
        rw [h.posted]
        rfl
      · rw [h.drained]
        exact List.Forall₂.nil
    begun := by rw [h.begun]; exact Nat.zero_le _
    taken := by rw [h.begun]; exact fun _ => Nat.zero_le _ }

/-! ### The uv loop and the notifications -/

/-- A push keeps the receive side. -/
theorem RxSide.post (i : RxSide P O s) (p : Uplink.Packet) : RxSide P O (s.post P O p) := by
  obtain ⟨x, hx⟩ := post_posts (P := P) (O := O) s p
  obtain ⟨-, hcycle, -, -, -, hdrained, hbegun⟩ := post_keeps (P := P) (O := O) s p
  obtain ⟨arrived, waiting, rx, hrx, haccepted, harrived, hwaiting⟩ := i.packets
  -- `begun` counts accepted packets, and there can only be more of them
  have hle : s.accepted.length ≤ (s.post P O p).accepted.length := by
    unfold accepted
    rw [hx.posted, List.filter_append, List.length_append]
    exact Nat.le_add_right _ _
  refine ⟨?_, ?_, hbegun ▸ i.begun.trans hle, ?_⟩
  · rw [hx.posted]
    intro y hy
    rcases List.mem_append.mp hy with hy | hy
    · exact i.whole y hy
    · rw [List.mem_singleton.mp hy, hx.packet]
      exact hx.whole
  · rw [hdrained]
    cases hroom : x.room with
    | true =>
      obtain ⟨r, hwaits, hcarries⟩ := hx.room hroom
      refine ⟨arrived, waiting ++ [x], rx ++ [r], hcarries rx hrx, ?_, harrived, ?_⟩
      · unfold accepted at haccepted ⊢
        rw [hx.posted, List.filter_append, haccepted, List.append_assoc,
          List.filter_cons_of_pos hroom]
        rfl
      · exact List.rel_append hwaiting (List.Forall₂.cons hwaits List.Forall₂.nil)
    | false =>
      refine ⟨arrived, waiting, rx, hx.full hroom rx hrx, ?_, harrived, hwaiting⟩
      unfold accepted at haccepted ⊢
      rw [hx.posted, List.filter_append, haccepted, List.filter_cons_of_neg (by simp [hroom])]
      exact List.append_nil _
  · rw [hcycle, hdrained, hbegun]
    exact i.taken

theorem post_answered (s : Routing ρ σ) (p : Uplink.Packet) :
    (s.post P O p).answered = s.answered ++ p.query?.toList := by
  obtain ⟨x, hx⟩ := post_posts (P := P) (O := O) s p
  unfold answered
  rw [hx.posted, List.filterMap_append, ← hx.packet]
  congr 1

/-- A push leaves what is on its way to the callbacks. -/
theorem TxSide.post {p : Uplink.Packet}
    (haddressed : ∀ d ∈ s.departed, d.uplink ≠ moduleBroadcast)
    (hqueries : ∃ tx, Carries P.ring s.host.pipeUplinkTx tx ∧
      s.left P G = s.answered ++ p.query?.toList ++ asked G s.replyTo s.todo ++
        tx.flatMap fun r => asked G r.module (P.osc.messages r.buf)) :
    TxSide P G (s.post P O p) := by
  obtain ⟨hhost, -, hreplyTo, htodo, hdeparted, -, -⟩ := post_keeps (P := P) (O := O) s p
  constructor
  · rw [hdeparted]
    exact haddressed
  · unfold left at hqueries ⊢
    rw [post_answered, hhost, hreplyTo, htodo, hdeparted]
    exact hqueries

theorem HostSide.post (i : HostSide h₀ s) (p : Uplink.Packet) :
    HostSide h₀ (s.post P O p) := by
  obtain ⟨hhost, hcycle, -, -, -, hdrained, -⟩ := post_keeps (P := P) (O := O) s p
  constructor
  · exact hhost ▸ i.recorded
  · exact hcycle ▸ i.valid
  · rw [hhost, hdrained]
    exact i.scheduled
  · exact hdrained ▸ i.numbered
  · exact hdrained ▸ i.immediate
  · rw [hhost, hcycle, hdrained]
    exact i.dispatched

/-- A notification is pushed. -/
theorem Inv.notify (i : Inv P G h₀ s) (n : Uplink.Notification) :
    Inv P G h₀ (s.post P O (.notification n)) where
  host := i.host.post _
  tx := by
    refine TxSide.post i.tx.addressed ?_
    obtain ⟨tx, htx, hqueries⟩ := i.tx.queries
    refine ⟨tx, htx, hqueries.trans ?_⟩
    rw [show (Uplink.Packet.notification n).query?.toList = [] from rfl, List.append_nil]
  rx := i.rx.post _

/-- **A callback** answers its query, if the message is one. -/
theorem Inv.callback (i : Inv P G h₀ s) {msg : OscMessage} {todo : List OscMessage}
    (htodo : s.todo = msg :: todo) (answer : Option (List (List Char))) :
    Inv P G h₀ ({ s with todo }.callback P G msg answer) := by
  set s₁ : Routing ρ σ := { s with todo } with hs₁
  have hhost : HostSide h₀ s₁ := ⟨i.host.recorded, i.host.valid, i.host.scheduled,
    i.host.numbered, i.host.immediate, i.host.dispatched⟩
  have hrx : RxSide P O s₁ := ⟨i.rx.whole, i.rx.packets, i.rx.begun, i.rx.taken⟩
  obtain ⟨tx, htx, hqueries⟩ := i.tx.queries
  rw [htodo] at hqueries
  unfold Routing.callback
  split
  · next q hq =>
    have hasked : asked G s.replyTo (msg :: todo) =
        (s.replyTo, q) :: asked G s.replyTo todo :=
      List.filterMap_cons_some (by rw [hq]; rfl)
    rw [hasked] at hqueries
    refine ⟨hhost.post _, TxSide.post i.tx.addressed ?_, hrx.post _⟩
    refine ⟨tx, htx, hqueries.trans ?_⟩
    show s.answered ++ (s.replyTo, q) :: asked G s.replyTo todo ++ _ =
      s.answered ++ [(s.replyTo, q)] ++ asked G s.replyTo todo ++ _
    simp only [List.append_assoc, List.cons_append, List.nil_append]
  · next hq =>
    have hasked : asked G s.replyTo (msg :: todo) = asked G s.replyTo todo :=
      List.filterMap_cons_none (by rw [hq]; rfl)
    rw [hasked] at hqueries
    exact ⟨hhost, ⟨i.tx.addressed, tx, htx, hqueries⟩, hrx⟩

/-- **The uv loop takes a record** out of the transmit ring, with its messages. -/
theorem Inv.wake (i : Inv P G h₀ s) (htodo : s.todo = [])
    {pipe : ρ} {tev : EventHeader} {buf : List UInt8}
    (hconsume : pipeConsume P.ring s.host.pipeUplinkTx = (pipe, some (tev, buf))) :
    Inv P G h₀ { s with
      host := { s.host with pipeUplinkTx := pipe }
      replyTo := tev.module
      todo := P.osc.messages buf } where
  host := {
    recorded := i.host.recorded.of_eq ⟨rfl, rfl, fun _ => rfl, fun _ => rfl, fun _ => rfl⟩
      rfl rfl rfl rfl rfl
    valid := i.host.valid
    scheduled := i.host.scheduled
    numbered := i.host.numbered
    immediate := i.host.immediate
    dispatched := i.host.dispatched }
  tx := by
    obtain ⟨tx, htx, hqueries⟩ := i.tx.queries
    refine ⟨i.tx.addressed, ?_⟩
    cases tx with
    | nil =>
      rw [htx.consume_nil] at hconsume
      exact nomatch (Prod.mk.inj hconsume).2
    | cons r tx =>
      obtain ⟨hread, hrest⟩ := htx.consume_cons
      rw [hconsume] at hread hrest
      obtain ⟨rfl, rfl⟩ := Prod.mk.inj (Option.some.inj hread)
      -- the messages of the record stand between what is answered and what is in the ring
      refine ⟨tx, hrest, hqueries.trans ?_⟩
      rw [htodo, List.flatMap_cons, ← List.append_assoc]
      show s.answered ++ [] ++ _ ++ _ = _
      rw [List.append_nil]
      rfl
  rx := ⟨i.rx.whole, i.rx.packets, i.rx.begun, i.rx.taken⟩

/-! ### The cycle -/

theorem Inv.begin (i : Inv P G h₀ s) {last nframes : NFrames} (hpos : 0 < last + nframes) :
    Inv P G h₀ { s with cycle := .drain last nframes, begun := s.accepted.length } where
  host := ⟨i.host.recorded, hpos, i.host.scheduled, i.host.numbered, i.host.immediate,
    fun hnot => nomatch hnot⟩
  tx := ⟨i.tx.addressed, i.tx.queries⟩
  rx := ⟨i.rx.whole, i.rx.packets, le_refl _, fun hnot => nomatch hnot⟩

/-- **The drain takes a record**: it becomes an event of the host queue, for the same
module and at time `0`. -/
theorem Inv.drain (i : Inv P G h₀ s) {last nframes : NFrames}
    (hcycle : s.cycle = .drain last nframes) {pipe : ρ} {tev : EventHeader} {buf : List UInt8}
    (hconsume : pipeConsume P.ring s.pipeUplinkRx = (pipe, some (tev, buf))) :
    Inv P G h₀ { s with
      pipeUplinkRx := pipe
      host := hostScheduleInline P tev.module tev.time buf s.host
      drained := s.drained ++ [⟨s.host.seq, tev.module, tev.time, buf⟩] } := by
  obtain ⟨arrived, waiting, rx, hrx, haccepted, harrived, hwaiting⟩ := i.rx.packets
  cases hwaiting with
  | nil =>
    rw [hrx.consume_nil] at hconsume
    exact nomatch (Prod.mk.inj hconsume).2
  | @cons x r waiting rx hwaits hwaiting =>
    obtain ⟨hread, hrest⟩ := hrx.consume_cons
    rw [hconsume] at hread hrest
    obtain ⟨rfl, rfl⟩ := Prod.mk.inj (Option.some.inj hread)
    have htime : r.header.time = 0 := hwaits.time
    have hdraining : s.cycle.drained = false ∧ s.cycle.dispatched = false := by
      rw [hcycle]
      exact ⟨rfl, rfl⟩
    refine ⟨⟨i.host.recorded.schedule P r.module r.time r.buf, i.host.valid, ?_, ?_, ?_, ?_⟩,
      ⟨i.tx.addressed, i.tx.queries⟩, ⟨i.rx.whole, ?_, i.rx.begun, ?_⟩⟩
    · intro e he
      rcases List.mem_append.mp he with he | he
      · exact List.mem_append_left _ (i.host.scheduled e he)
      · exact List.mem_append_right _ he
    · -- the event gets the next number
      refine List.pairwise_append.mpr ⟨i.host.numbered, List.pairwise_singleton _ _, ?_⟩
      intro e he e' he'
      rw [List.mem_singleton.mp he']
      exact i.host.recorded.inv.fresh e (i.host.scheduled e he)
    · intro e he
      rcases List.mem_append.mp he with he | he
      · exact i.host.immediate e he
      · rw [List.mem_singleton.mp he]
        exact htime
    · intro hnot
      exact nomatch hnot.symm.trans hdraining.2
    · -- the first packet that waited has arrived
      refine ⟨arrived ++ [x], waiting, rx, hrest, ?_, ?_, hwaiting⟩
      · rw [List.append_assoc]
        exact haccepted
      · exact List.rel_append harrived
          (List.Forall₂.cons ⟨hwaits.module, hwaits.bytes⟩ List.Forall₂.nil)
    · intro hnot
      exact nomatch hnot.symm.trans hdraining.1

/-- **The drain ends** when the ring is empty. -/
theorem Inv.drained (i : Inv P G h₀ s) {last nframes : NFrames}
    (hcycle : s.cycle = .drain last nframes) {pipe : ρ}
    (hconsume : pipeConsume P.ring s.pipeUplinkRx = (pipe, none)) :
    Inv P G h₀ { s with
      host := { s.host with pipeUplinkTxCount := 0 }, cycle := .inputs last nframes } := by
  have hvalid : (CyclePc.inputs last nframes).Valid := by
    have hv := i.host.valid
    rw [hcycle] at hv
    exact hv
  obtain ⟨arrived, waiting, rx, hrx, haccepted, harrived, hwaiting⟩ := i.rx.packets
  refine ⟨⟨i.host.recorded.of_eq ⟨rfl, rfl, fun _ => rfl, fun _ => rfl, fun _ => rfl⟩ rfl rfl rfl
    rfl rfl, hvalid, i.host.scheduled, i.host.numbered, i.host.immediate, fun hnot => nomatch hnot⟩,
    ⟨i.tx.addressed, i.tx.queries⟩, ⟨i.rx.whole, i.rx.packets, i.rx.begun, fun _ => ?_⟩⟩
  cases hwaiting with
  | nil =>
    rw [List.append_nil] at haccepted
    show s.begun ≤ s.drained.length
    rw [← harrived.length_eq, ← haccepted]
    exact i.rx.begun
  | cons hwaits hwaiting =>
    have hread := hrx.consume_cons.1
    rw [hconsume] at hread
    exact nomatch hread

theorem Inv.schedule (i : Inv P G h₀ s) {last nframes : NFrames}
    (hcycle : s.cycle = .inputs last nframes) (c : SchedCall) :
    Inv P G h₀ { s with host := c.run P s.host } := by
  have hkeeps : s.host.scheduled <+: (c.run P s.host).scheduled ∧
      (c.run P s.host).pipeUplinkTx = s.host.pipeUplinkTx := by
    unfold SchedCall.run
    split <;> exact ⟨List.prefix_append _ _, rfl⟩
  refine ⟨⟨i.host.recorded.schedCall P c, i.host.valid, ?_, i.host.numbered, i.host.immediate, ?_⟩,
    ⟨i.tx.addressed, ?_⟩, ⟨i.rx.whole, i.rx.packets, i.rx.begun, i.rx.taken⟩⟩
  · intro e he
    exact hkeeps.1.subset (i.host.scheduled e he)
  · intro hnot
    simp only [hcycle] at hnot
    exact nomatch hnot
  · show ∃ tx, Carries P.ring (c.run P s.host).pipeUplinkTx tx ∧ _
    rw [hkeeps.2]
    exact i.tx.queries

/-- **The main loop dispatches what was drained**: it is due, as its time is `0`. -/
theorem Inv.mainLoop (i : Inv P G h₀ s) {last nframes : NFrames}
    (hcycle : s.cycle = .inputs last nframes)
    (haddressed : ∀ m ∈ h₀.modules ++ h₀.uplinks, m ≠ moduleBroadcast) :
    let h := mainLoop P last nframes s.host
    Inv P G h₀ { s with
      host := h
      cycle := .sending last nframes
        (h.modules.filter (fun m => isOutput (h.module m).type) ++ h.uplinks) } := by
  intro h
  have hinv := i.host.recorded.inv
  have hpos : 0 < last + nframes := by
    have hvalid := i.host.valid
    rw [hcycle] at hvalid
    exact hvalid
  have hrecorded : Recorded h₀ h := i.host.recorded.mainLoop P last nframes
  have hdispatched : h.dispatched =
      s.host.dispatched ++ (dueEvents last nframes s.host.queue).map (Drained.of last last) :=
    mainLoop_dispatched P hinv.ordered
  refine ⟨⟨hrecorded, ?_, ?_, i.host.numbered, i.host.immediate, ?_⟩, ⟨i.tx.addressed, ?_⟩,
    ⟨i.rx.whole, i.rx.packets, i.rx.begun, fun _ => ?_⟩⟩
  · intro m hm
    refine haddressed m ?_
    rw [hrecorded.graph.modules, hrecorded.graph.uplinks] at hm
    rcases List.mem_append.mp hm with hm | hm
    · exact List.mem_append_left _ (List.mem_filter.mp hm).1
    · exact List.mem_append_right _ hm
  · intro e he
    rw [show h.scheduled = s.host.scheduled from mainLoop_scheduled P hinv.ordered]
    exact i.host.scheduled e he
  · -- a drained event has been dispatched before, or it is queued and due now
    intro _ e he
    show ∃ d ∈ h.dispatched, d.ev = e
    rw [hdispatched]
    rcases List.mem_append.mp (hinv.perm.symm.subset (i.host.scheduled e he)) with hd | hq
    · obtain ⟨d, hd, hev⟩ := List.mem_map.mp hd
      exact ⟨d, List.mem_append_left _ hd, hev⟩
    · have hdue : due last nframes e = true := by
        unfold due
        rw [i.host.immediate e he]
        exact decide_eq_true hpos
      refine ⟨Drained.of last last e, List.mem_append_right _ ?_, rfl⟩
      exact List.mem_map_of_mem (List.mem_filter.mpr ⟨hq, hdue⟩)
  · show ∃ tx, Carries P.ring h.pipeUplinkTx tx ∧ _
    rw [show h.pipeUplinkTx = s.host.pipeUplinkTx from mainLoop_pipeUplinkTx P last nframes s.host]
    exact i.tx.queries
  · refine i.rx.taken ?_
    rw [hcycle]
    rfl

/-- The host moves on while the cycle sends. What was dispatched stays so, and the pipes
and what is in them stay. -/
theorem Inv.sending (i : Inv P G h₀ s) {last nframes : NFrames} {modules : List ModulePtr}
    (hcycle : s.cycle = .sending last nframes modules) {h : Host ρ σ} (hrecorded : Recorded h₀ h)
    (hsched : s.host.scheduled <+: h.scheduled) (hdisp : h.dispatched = s.host.dispatched)
    (htx : h.pipeUplinkTx = s.host.pipeUplinkTx) {cycle : CyclePc} (hvalid : cycle.Valid) :
    Inv P G h₀ { s with host := h, cycle } := by
  refine ⟨⟨hrecorded, hvalid, ?_, i.host.numbered, i.host.immediate, ?_⟩, ⟨i.tx.addressed, ?_⟩,
    ⟨i.rx.whole, i.rx.packets, i.rx.begun, fun _ => ?_⟩⟩
  · intro e he
    exact hsched.subset (i.host.scheduled e he)
  · intro _
    show ∀ e ∈ s.drained, ∃ d ∈ h.dispatched, d.ev = e
    rw [hdisp]
    refine i.host.dispatched ?_
    rw [hcycle]
    rfl
  · show ∃ tx, Carries P.ring h.pipeUplinkTx tx ∧ _
    rw [htx]
    exact i.tx.queries
  · refine i.rx.taken ?_
    rw [hcycle]
    rfl

/-- The modules behind the first one have an address, too. -/
theorem HostSide.valid_tail (i : HostSide h₀ s) {last nframes : NFrames} {m : ModulePtr}
    {modules : List ModulePtr} (hcycle : s.cycle = .sending last nframes (m :: modules)) :
    m ≠ moduleBroadcast ∧ (CyclePc.sending last nframes modules).Valid := by
  have hvalid := i.valid
  rw [hcycle] at hvalid
  exact ⟨hvalid m List.mem_cons_self, fun n hn => hvalid n (List.mem_cons_of_mem _ hn)⟩

/-- **An uplink sends.** The event gets the uplink as its module, and with it into the
transmit ring, if that has room. -/
theorem Inv.uplinkStep (i : Inv P G h₀ s) {last nframes : NFrames} {m : ModulePtr}
    {modules : List ModulePtr} (hcycle : s.cycle = .sending last nframes (m :: modules))
    (hm : (s.host.module m).dat = .uplink) :
    Inv P G h₀ (s.uplinkStep P last nframes m modules) := by
  obtain ⟨hne, hvalid⟩ := i.host.valid_tail hcycle
  have hskip : Inv P G h₀ { s with cycle := .sending last nframes modules } :=
    i.sending hcycle i.host.recorded List.prefix_rfl rfl rfl hvalid
  unfold Routing.uplinkStep
  split
  · exact hskip
  · next tev _ _ =>
    split
    · exact hskip
    · obtain ⟨⟨stale, time, hproduce⟩, g, hseq, hqueue, hsched, hdisp, hdel⟩ :=
        sendOne_uplink P last nframes hm tev
      set h := sendOne P last nframes m tev s.host with hh
      have hrecorded : Recorded h₀ h := i.host.recorded.of_eq g hseq hqueue hsched hdisp hdel
      obtain ⟨tx, htx, hqueries⟩ := i.tx.queries
      refine ⟨⟨hrecorded, i.host.valid, ?_, i.host.numbered, i.host.immediate, ?_⟩, ⟨?_, ?_⟩,
        ⟨i.rx.whole, i.rx.packets, i.rx.begun, i.rx.taken⟩⟩
      · show ∀ e ∈ s.drained, e ∈ h.scheduled
        rw [hsched]
        exact i.host.scheduled
      · show _ → ∀ e ∈ s.drained, ∃ d ∈ h.dispatched, d.ev = e
        rw [hdisp]
        exact i.host.dispatched
      · intro d hd
        rcases List.mem_append.mp hd with hd | hd
        · exact i.tx.addressed d hd
        · rw [List.mem_singleton.mp hd]
          exact hne
      · show ∃ tx, Carries P.ring h.pipeUplinkTx tx ∧ _
        rw [hproduce]
        unfold left at hqueries ⊢
        -- without room the event is lost, and its queries with it
        by_cases hroom : sizeofEvent + tev.size ≤ P.ring.writeSpace s.host.pipeUplinkTx
        · refine ⟨tx ++ [⟨stale, m, time, tev.buf⟩], htx.produce ⟨stale, m, time, tev.buf⟩ hroom, ?_⟩
          have hkept : [(⟨m, tev.buf, decide (sizeofEvent + tev.size ≤
              P.ring.writeSpace s.host.pipeUplinkTx)⟩ : Departure)].filter Departure.room = [_] :=
            List.filter_cons_of_pos (decide_eq_true hroom)
          rw [List.filter_append, List.flatMap_append, hqueries, List.flatMap_append, hkept,
            List.append_assoc]
          rfl
        · have hlost : [(⟨m, tev.buf, decide (sizeofEvent + tev.size ≤
              P.ring.writeSpace s.host.pipeUplinkTx)⟩ : Departure)].filter Departure.room = [] :=
            List.filter_cons_of_neg (by simpa using hroom)
          refine ⟨tx, ?_, ?_⟩
          · rw [pipeProduce_of_full (Nat.lt_of_not_le hroom)]
            exact htx
          · rw [List.filter_append, hlost, List.append_nil]
            exact hqueries

/-- **A step of the cycle.** -/
theorem Inv.cycleStep (i : Inv P G h₀ s)
    (haddressed : ∀ m ∈ h₀.modules ++ h₀.uplinks, m ≠ moduleBroadcast)
    (h : s.cycleStep P = some s') : Inv P G h₀ s' := by
  unfold Routing.cycleStep at h
  split at h
  · exact nomatch h
  · next last nframes hcycle =>
    split at h
    · next pipe tev buf hconsume =>
      obtain rfl := Option.some.inj h
      exact i.drain hcycle hconsume
    · next pipe hconsume =>
      obtain rfl := Option.some.inj h
      exact i.drained hcycle hconsume
  · next last nframes hcycle =>
    obtain rfl := Option.some.inj h
    exact i.mainLoop hcycle haddressed
  · next last nframes m modules hcycle =>
    split at h
    · next hm =>
      obtain rfl := Option.some.inj h
      exact i.uplinkStep hcycle hm
    · next hm =>
      -- an output sends into its own ring or port
      obtain rfl := Option.some.inj h
      obtain ⟨hsched, hdisp⟩ := processOut_scheduled P last nframes m s.host
      exact i.sending hcycle (i.host.recorded.processOut P last nframes m) hsched hdisp
        (processOut_pipeUplinkTx P last nframes hm) (i.host.valid_tail hcycle).2
  · next last nframes hcycle =>
    obtain rfl := Option.some.inj h
    split
    · have hrecorded : Recorded h₀ (s.host.messagePush ["tjost_pipe_flush failed"]) :=
        i.host.recorded.of_eq ⟨rfl, rfl, fun _ => rfl, fun _ => rfl, fun _ => rfl⟩
          rfl rfl rfl rfl rfl
      exact i.sending hcycle hrecorded List.prefix_rfl rfl rfl trivial
    · exact i.sending hcycle i.host.recorded List.prefix_rfl rfl rfl trivial

/-- **A step of any thread.** -/
theorem Inv.step (i : Inv P G h₀ s)
    (haddressed : ∀ m ∈ h₀.modules ++ h₀.uplinks, m ≠ moduleBroadcast) {l : RoutingLabel}
    (hl : Periods s l) (h : (machine P G).step s l = some s') : Inv P G h₀ s' := by
  cases l with
  | begin last nframes =>
    simp only [machine, Routing.step] at h
    split at h
    · obtain rfl := Option.some.inj h
      refine i.begin ?_
      rw [UInt32.lt_iff_toNat_lt, hl.2.toNat_add]
      exact Nat.add_pos_right _ (UInt32.lt_iff_toNat_lt.mp hl.1)
    · exact nomatch h
  | schedule c =>
    simp only [machine, Routing.step] at h
    split at h
    · next last nframes hcycle =>
      obtain rfl := Option.some.inj h
      exact i.schedule hcycle c
    · exact nomatch h
  | cycle => exact i.cycleStep haddressed h
  | wake =>
    simp only [machine, Routing.step] at h
    split at h
    · next htodo =>
      split at h
      · next pipe tev buf hconsume =>
        obtain rfl := Option.some.inj h
        exact i.wake htodo hconsume
      · obtain rfl := Option.some.inj h
        exact i
    · exact nomatch h
  | message answer =>
    simp only [machine, Routing.step] at h
    split at h
    · exact nomatch h
    · next msg todo htodo =>
      obtain rfl := Option.some.inj h
      exact i.callback htodo answer
  | notify n =>
    obtain rfl := Option.some.inj h
    exact i.notify n

/-! ### The runs -/

/-- A reply has the address of the uplink that its query left through. -/
theorem Inv.reply_addressed (i : Inv P G h₀ s) {x : Posting} (hx : x ∈ s.posted)
    {uplink : ModulePtr} {q : Uplink.Query} {answer : Option (List (List Char))}
    (hpacket : x.packet = .reply uplink q answer) : uplink ≠ moduleBroadcast := by
  obtain ⟨tx, -, hqueries⟩ := i.tx.queries
  -- the reply answers a query that has left, in a packet with the address of its uplink
  have hanswered : (uplink, q) ∈ s.answered :=
    List.mem_filterMap.mpr ⟨x, hx, by rw [hpacket]; rfl⟩
  have hleft : (uplink, q) ∈ s.left P G := by
    rw [hqueries]
    exact List.mem_append_left _ (List.mem_append_left _ hanswered)
  obtain ⟨d, hd, hasked⟩ := List.mem_flatMap.mp hleft
  obtain ⟨msg, -, hmsg⟩ := List.mem_filterMap.mp hasked
  obtain ⟨q', -, hpair⟩ := Option.map_eq_some_iff.mp hmsg
  rw [← (Prod.mk.inj hpair).1]
  exact i.tx.addressed d (List.mem_filter.mp hd).1

/-- The main loop goes by the module of the event, which says whom the packet is for. -/
theorem Inv.receivers_eq (i : Inv P G h₀ s) {x : Posting} (hx : x ∈ s.posted) :
    h₀.receivers x.packet.module = receivers h₀ x.packet := by
  unfold Host.receivers
  cases hpacket : x.packet with
  | reply uplink q answer => exact if_neg (i.reply_addressed hx hpacket)
  | notification n => exact if_pos rfl

/-- **A drained event** is queued, or was handed over once and to everyone. -/
theorem Inv.arrived (i : Inv P G h₀ s) {x : Posting} (hx : x ∈ s.posted) {e : Event}
    (he : e ∈ s.drained) (hmodule : e.module = x.packet.module) (hbytes : x.bytes = some e.buf) :
    Arrived h₀ s.host x e := by
  have hinv := i.host.recorded.inv
  refine ⟨hmodule, hbytes, ?_⟩
  rcases List.mem_append.mp (hinv.perm.symm.subset (i.host.scheduled e he)) with hmap | hq
  · obtain ⟨d, hd, rfl⟩ := List.mem_map.mp hmap
    refine Or.inr ⟨?_, d.time, ?_⟩
    · intro hq
      exact (List.pairwise_append.mp hinv.pairwise_seq).2.2 _ (List.mem_map_of_mem hd) _ hq rfl
    · rw [hinv.handedOver_of_dispatched i.host.recorded.handOvers hd, handOvers, hmodule,
        i.receivers_eq hx]
  · exact Or.inl ⟨hq, hinv.handedOver_of_queued i.host.recorded.handOvers hq⟩

/-- **Routing of replies and notifications.** -/
theorem routing {s₀ : Routing ρ σ} {ls : List RoutingLabel} (h₀ : (machine P G).init s₀)
    (hls : (machine P G).Meets Periods s₀ ls) (hrun : (machine P G).exec s₀ ls = some s) :
    ∃ (arrived waiting : List Posting) (tx rx : List Record),
      Carries P.ring s.host.pipeUplinkTx tx ∧ Carries P.ring s.pipeUplinkRx rx ∧
      s.left P G = s.answered ++ asked G s.replyTo s.todo ++
        tx.flatMap (fun r => asked G r.module (P.osc.messages r.buf)) ∧
      (∀ x ∈ s.posted, (x.packet.bytes O).length ≤ bufSize →
        x.bytes = some (x.packet.bytes O)) ∧
      s.accepted = arrived ++ waiting ∧
      List.Forall₂ (Arrived s₀.host s.host) arrived s.drained ∧
      List.Forall₂ Waits waiting rx ∧
      s.drained.Pairwise (fun a b => a.seq ≠ b.seq) ∧
      (s.cycle = .idle →
        (∀ e ∈ s.drained, e ∉ s.host.queue) ∧ s.begun ≤ arrived.length) := by
  have i : Inv P G s₀.host s := by
    refine Machine.exec_invariant (fun _ _ _ i hl hstep => i.step ?_ hl hstep) (Init.inv h₀) hls hrun
    exact h₀.addressed
  obtain ⟨tx, htx, hqueries⟩ := i.tx.queries
  obtain ⟨arrived, waiting, rx, hrx, haccepted, harrived, hwaiting⟩ := i.rx.packets
  -- the pipes and the records in them are the invariant; what became of the drained events
  -- is read off the host
  refine ⟨arrived, waiting, tx, rx, htx, hrx, hqueries, i.rx.whole, haccepted, ?_, hwaiting,
    i.host.numbered.imp fun hlt => Nat.ne_of_lt hlt, ?_⟩
  · have hposted : ∀ x ∈ arrived, x ∈ s.posted := by
      intro x hx
      have hmem : x ∈ s.accepted := haccepted ▸ List.mem_append_left _ hx
      exact (List.mem_filter.mp hmem).1
    refine List.forall₂_iff_get.mpr ⟨harrived.length_eq, ?_⟩
    intro k hk hk'
    obtain ⟨hmodule, hbytes⟩ := (List.forall₂_iff_get.mp harrived).2 k hk hk'
    exact i.arrived (hposted _ (List.get_mem _ _)) (List.get_mem _ _) hmodule hbytes
  · intro hidle
    have hdone : s.cycle.dispatched = true ∧ s.cycle.drained = true := by
      rw [hidle]
      exact ⟨rfl, rfl⟩
    refine ⟨?_, harrived.length_eq ▸ i.rx.taken hdone.2⟩
    intro e he hq
    obtain ⟨d, hd, rfl⟩ := i.host.dispatched hdone.1 e he
    have hpairwise := List.pairwise_append.mp i.host.recorded.inv.pairwise_seq
    exact hpairwise.2.2 _ (List.mem_map_of_mem hd) _ hq rfl

/-! ### A small host -/

/-- An input whose child is the first of two uplinks. -/
def uplinks : Routing (ByteRing.Fifo ringbufSize) Unit where
  host := Host.start () [1, 4] [2, 3]
    (fun m =>
      if m = 1 then Module.start moduleInput [2] false .input
      else if m = 4 then Module.start moduleOutput [] false (.oscOut [])
      else Module.start moduleUplink [4] true .uplink)
    (ByteRing.Fifo.empty ringbufSize ringbufSize_pos)
  pipeUplinkRx := ByteRing.Fifo.empty ringbufSize ringbufSize_pos
  bufRx _ := 0
  cycle := .idle
  replyTo := 0
  todo := []
  departed := []
  posted := []
  drained := []
  begun := 0

/-- A query for the ports leaves through the first uplink. It is answered while the graph
changes, and a second cycle delivers the reply and the notification. -/
def uplinksRun : List RoutingLabel :=
  [.begin 4 8, .cycle, .schedule ⟨false, 1, 0, oscPad "/jack/ports".toList ++ [44, 0, 0, 0]⟩,
    .cycle, .cycle, .cycle, .cycle, .cycle, .cycle, .wake, .message (some ["a".toList]),
    .notify .graphOrder, .begin 12 8, .cycle, .cycle, .cycle, .cycle, .cycle, .cycle, .cycle,
    .cycle]

theorem uplinks_init : Init CopyState.silent uplinks where
  fresh := ⟨rfl, rfl, rfl⟩
  delivered := rfl
  addressed m hm := by
    rintro rfl
    exact absurd hm (by decide)
  tx := rfl
  rx := rfl
  cycle := rfl
  todo := rfl
  departed := rfl
  posted := rfl
  drained := rfl
  begun := rfl

theorem routing_uplinks :
    ∃ s, (machine CopyState.silent OscGetters.plain).exec uplinks uplinksRun = some s ∧
      s.answered = [(2, .ports)] ∧ s.drained.map Event.module = [2, 0] ∧
      s.host.delivered.map (fun d => (d.seq, d.target)) =
        [(0, .child 2), (2, .child 4), (2, .lua 2),
          (3, .child 4), (3, .lua 2), (3, .child 4), (3, .lua 3)] ∧
      ∃ arrived waiting, s.accepted = arrived ++ waiting ∧
        List.Forall₂ (Arrived uplinks.host s.host) arrived s.drained ∧
        ∀ e ∈ s.drained, e ∉ s.host.queue := by
  have hrun : ((machine CopyState.silent OscGetters.plain).exec uplinks uplinksRun).map
      (fun s => decide (s.cycle = .idle ∧ s.answered = [(2, .ports)] ∧
        s.drained.map Event.module = [2, 0] ∧
        s.host.delivered.map (fun d => (d.seq, d.target)) =
          [(0, .child 2), (2, .child 4), (2, .lua 2),
            (3, .child 4), (3, .lua 2), (3, .child 4), (3, .lua 3)])) = some true := by
    decide +kernel
  have hls : (machine CopyState.silent OscGetters.plain).Meets Periods uplinks uplinksRun := by
    decide +kernel
  obtain ⟨s, hs, hobserved⟩ := Option.map_eq_some_iff.mp hrun
  obtain ⟨hidle, hanswered, hdrained, hdelivered⟩ := of_decide_eq_true hobserved
  obtain ⟨arrived, waiting, -, -, -, -, -, -, haccepted, harrived, -, -, hdone⟩ :=
    routing uplinks_init hls hs
  exact ⟨s, hs, hanswered, hdrained, hdelivered, arrived, waiting, haccepted, harrived,
    (hdone hidle).1⟩

end Routing

end Tjost
