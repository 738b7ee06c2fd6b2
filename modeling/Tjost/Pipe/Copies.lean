import Tjost.Library.Transition
import Tjost.Host.SameCycle
import Tjost.Lua.Serialize
import Tjost.Pipe.Channel

/-!
# Copies out of pipes

The consumers of six kinds of pipes read every event into a buffer of
`TJOST_BUF_SIZE` bytes, without a look at its size: `alloc_cb` answers the same
buffer for all of them. `tjost_pipe_produce` only asks for room in the ring, and a
ring has room for more than such a buffer. So a copy stays inside if no event that is
too large gets as far as such a pipe.

`copies_bounded`: no copy is too large in a run in which every event that is scheduled
on the host queue is of a size that is harmless (`SafeSize`: it fits into the buffer,
or never into a ring), or cannot get to such a pipe (`Host.Feeds`). An event keeps its
size on its way, through the host queue, the queues of the children, the `loopback`
modules and the pipes (`Flow`), and what the Lua scripts schedule is bounded by the
serialiser. `copied_of_unsafe` says that `SafeSize` cannot be weakened.

The machine of this file takes the iterations of the loops one by one, those of the
main loop, of the `process_out` and of the consumers, in any order: all that the
threads can do is among its runs.
-/

open Transition

namespace Tjost

variable {ρ σ : Type}

/-! ### The pipes -/

/-- The pipe of a module, if its consumer copies into a buffer of `TJOST_BUF_SIZE`
bytes. -/
def ModuleDat.pipe : ModuleDat ρ → Option ρ
  | .seqOut pipe | .rtmidiOut pipe | .dump pipe | .write pipe _ | .serial pipe => some pipe
  | _ => none

/-- Replace that pipe. -/
def ModuleDat.setPipe (pipe : ρ) : ModuleDat ρ → ModuleDat ρ
  | .seqOut _ => .seqOut pipe
  | .rtmidiOut _ => .rtmidiOut pipe
  | .dump _ => .dump pipe
  | .write _ offset => .write pipe offset
  | .serial _ => .serial pipe
  | dat => dat

/-- The events of the module are copied. The uplinks share a pipe of the host. -/
def ModuleDat.copies : ModuleDat ρ → Bool
  | .uplink => true
  | dat => dat.pipe.isSome

theorem ModuleDat.copies_of_pipe {dat : ModuleDat ρ} {pipe : ρ} (h : dat.pipe = some pipe) :
    dat.copies = true := by
  unfold ModuleDat.copies
  split
  · rfl
  · rw [h]
    rfl

/-- The module schedules its events again. -/
def ModuleDat.loops : ModuleDat ρ → Bool
  | .loopback => true
  | _ => false

section Consume

variable (R : ByteRing ρ ringbufSize)

/-- One iteration of `tjost_pipe_consume`: the event and the bytes that are read into
the buffer, if there is a whole record. -/
def pipeConsume (pipe : ρ) : ρ × Option (EventHeader × List UInt8) :=
  if R.readSpace pipe < sizeofEvent then (pipe, none)
  else
    let tev := EventHeader.decode (R.peek pipe sizeofEvent)
    if R.readSpace pipe < (UInt64.ofNat sizeofEvent + tev.size).toNat then (pipe, none)
    else
      let (pipe, buffer) := R.read (R.readAdvance pipe sizeofEvent) tev.size.toNat
      (pipe, some (tev, buffer))

/-- The pipe holds whole records of at most `TJOST_BUF_SIZE` bytes. -/
def BoundedPipe (pipe : ρ) : Prop :=
  ∃ rs : List Record, R.contents pipe = rs.flatMap Record.bytes ∧
    ∀ r ∈ rs, r.buf.length ≤ bufSize

variable {R} {pipe : ρ}

theorem BoundedPipe.of_empty (h : R.contents pipe = []) : BoundedPipe R pipe :=
  ⟨[], h, fun _ hr => absurd hr List.not_mem_nil⟩

/-- Reading a pipe that starts with a record. -/
theorem pipeConsume_record {r : Record} {rest : List UInt8} (hsized : r.Sized)
    (h : R.contents pipe = r.bytes ++ rest) :
    (pipeConsume R pipe).2 = some (r.header, r.buf) ∧
      R.contents (pipeConsume R pipe).1 = rest := by
  have hcontents : R.contents pipe = r.header.encode ++ (r.buf ++ rest) := by
    rw [h, Record.bytes, List.append_assoc]
  have hspace : R.readSpace pipe = sizeofEvent + (r.buf.length + rest.length) := by
    rw [R.readSpace_eq, hcontents, List.length_append, r.length_header, List.length_append]
  have hpeek : EventHeader.decode (R.peek pipe sizeofEvent) = r.header := by
    have hbytes := R.peek_append hcontents
    rw [r.length_header] at hbytes
    rw [hbytes, EventHeader.decode_encode]
  have hadvance : R.contents (R.readAdvance pipe sizeofEvent) = r.buf ++ rest := by
    have hbehind := R.readAdvance_append hcontents
    rwa [r.length_header] at hbehind
  obtain ⟨hrest, hbuf⟩ := R.read_append hadvance
  unfold pipeConsume
  rw [if_neg (by omega)]
  simp only [hpeek]
  rw [hsized.recordSize, if_neg (by omega), hsized.size]
  exact ⟨congrArg (fun buf => some (r.header, buf)) hbuf, hrest⟩

/-- **A copy from a bounded pipe** is bounded, and the pipe stays so. -/
theorem BoundedPipe.consume (h : BoundedPipe R pipe) :
    BoundedPipe R (pipeConsume R pipe).1 ∧
      ∀ x ∈ (pipeConsume R pipe).2, x.1.size.toNat ≤ bufSize := by
  obtain ⟨rs, hcontents, hall⟩ := h
  cases rs with
  | nil =>
    have hspace : R.readSpace pipe < sizeofEvent := by
      rw [R.readSpace_eq, hcontents]
      decide
    have hnone : pipeConsume R pipe = (pipe, none) := by
      unfold pipeConsume
      rw [if_pos hspace]
    rw [hnone]
    exact ⟨⟨[], hcontents, hall⟩, fun _ hx => nomatch hx⟩
  | cons r rs =>
    have hle : r.buf.length ≤ bufSize := hall r List.mem_cons_self
    have hsized : r.Sized := by
      have hbuf : sizeofEvent + bufSize < 2 ^ 64 := by decide
      unfold Record.Sized
      omega
    obtain ⟨hread, hrest⟩ := pipeConsume_record hsized (hcontents.trans List.flatMap_cons)
    refine ⟨⟨rs, hrest, fun x hx => hall x (List.mem_cons_of_mem _ hx)⟩, ?_⟩
    intro x hx
    rw [hread] at hx
    rw [← Option.mem_some.mp hx]
    exact hsized.size.trans_le hle

end Consume

/-! ### Sizes -/

/-- An event of that size fits into the buffer, or into no ring. -/
def SafeSize (n : ℕ) : Prop := n ≤ bufSize ∨ ringbufSize ≤ sizeofEvent + n

instance (n : ℕ) : Decidable (SafeSize n) := inferInstanceAs (Decidable (_ ∨ _))

/-- What is accepted of a safe size fits into the buffer. -/
theorem SafeSize.le_of_fits {R : ByteRing ρ ringbufSize} {pipe : ρ} {n : ℕ} (h : SafeSize n)
    (hfit : sizeofEvent + n ≤ R.writeSpace pipe) : n ≤ bufSize := by
  have hsize : 0 < ringbufSize := ringbufSize_pos
  rw [R.writeSpace_eq] at hfit
  unfold SafeSize at h
  omega

/-- **Producing an event of a safe size** keeps a pipe bounded. -/
theorem BoundedPipe.produce {R : ByteRing ρ ringbufSize} {pipe : ρ} (h : BoundedPipe R pipe)
    (stale : Stale) (module : ModulePtr) (time : NFrames) {buf : List UInt8}
    (hsafe : SafeSize buf.length) :
    BoundedPipe R (pipeProduce R stale pipe module time buf).1 := by
  by_cases hfit : sizeofEvent + buf.length ≤ R.writeSpace pipe
  · obtain ⟨rs, hcontents, hall⟩ := h
    refine ⟨rs ++ [⟨stale, module, time, buf⟩], ?_, ?_⟩
    · rw [(pipeProduce_of_fits stale module time hfit).2, hcontents, List.flatMap_append,
        List.flatMap_singleton]
      rfl
    · intro r hr
      rcases List.mem_append.mp hr with hr | hr
      · exact hall r hr
      · rw [List.mem_singleton.mp hr]
        exact hsafe.le_of_fits hfit
  · rw [pipeProduce_of_full (Nat.lt_of_not_le hfit)]
    exact h

/-- The events of a module can get to a buffer: they are copied themselves, or they
are scheduled again for children whose events can. -/
inductive Host.Feeds (h : Host ρ σ) : ModulePtr → Prop
  | copies {m : ModulePtr} (hm : (h.module m).dat.copies = true) : Host.Feeds h m
  | loops {m child : ModulePtr} (hm : (h.module m).dat.loops = true)
      (hchild : child ∈ (h.module m).children) (hfeeds : Host.Feeds h child) : Host.Feeds h m

/-- An event of that module and size gets to a buffer only if the size is safe. -/
def Host.Admits (h : Host ρ σ) (module : ModulePtr) (size : ℕ) : Prop :=
  ∀ u ∈ h.receivers module, ∀ child ∈ (h.module u).children, h.Feeds child → SafeSize size

/-! ### The iterations -/

variable (P : Platform ρ σ)

/-- One iteration of a loop of a `process_out` on the data `dat` of the module. -/
def Host.one {δ : Type} (h : Host ρ σ) (m : ModulePtr) (L : DrainLoop δ) (last : NFrames)
    (tev : Event) (dat : δ) (wrap : δ → ModuleDat ρ) : Host ρ σ :=
  let s := L.body last tev (h.outState (h.module m) dat)
  h.putBack m (h.module m) s (wrap s.dat)

/-- One iteration of the loop of the `process_out` of a module. -/
def sendOne (last nframes : NFrames) (m : ModulePtr) (tev : Event) (h : Host ρ σ) : Host ρ σ :=
  match (h.module m).dat with
  | .oscOut port => h.one m (OscOut.loop P last nframes) last tev port .oscOut
  | .midiOut port => h.one m (MidiOut.loop P last nframes) last tev port .midiOut
  | .cvOut dat => h.one m (CvOut.loop P last) last tev dat .cvOut
  | .seqOut pipe => h.one m (SeqOut.loop P last m) last tev pipe .seqOut
  | .rtmidiOut pipe => h.one m (RtmidiOut.loop P last m) last tev pipe .rtmidiOut
  | .dump pipe => h.one m (Dump.loop P last m) last tev pipe .dump
  | .write pipe offset =>
    h.one m (Write.loop P last m) last tev (pipe, offset) fun dat => .write dat.1 dat.2
  | .serial pipeTx => h.one m (Serial.loop P last m) last tev pipeTx .serial
  | .net rbTx => h.one m (Net.loop P last) last tev rbTx .net
  | .uplink =>
    let s := (Uplink.loop P last m).body last tev
      (h.outState (h.module m) (h.pipeUplinkTx, h.pipeUplinkTxCount))
    { h.putBack m (h.module m) s .uplink with
      pipeUplinkTx := s.dat.1, pipeUplinkTxCount := s.dat.2 }
  | .loopback =>
    let s := (Loopback.loop P last nframes m).body last tev (h.outState (h.module m) h)
    s.dat.putBack m (h.module m) s .loopback
  | .input => h

/-- A host and the consumers of its pipes. -/
structure CopyState (ρ σ : Type) where
  host : Host ρ σ
  /-- Ghost: the sizes of the reads into the buffers. -/
  copied : List ℕ

inductive CopyLabel
  /-- An input, or `tjost_uplink_rx_drain`, schedules on the host queue. -/
  | schedule (c : SchedCall)
  /-- An iteration of the main loop. -/
  | dispatch (last : NFrames) (tev : Event)
  /-- An iteration of the loop of a `process_out`. -/
  | send (last nframes : NFrames) (m : ModulePtr) (tev : Event)
  /-- An iteration of `tjost_pipe_consume` on the pipe of a module. -/
  | consume (m : ModulePtr)
  /-- The same on the pipe of the uplinks. -/
  | consumeUplink

namespace CopyState

/-- A module has an address, and an iteration is on an event of the queue. -/
def Enabled (s : CopyState ρ σ) : CopyLabel → Prop
  | .schedule _ => True
  | .dispatch _ tev => tev ∈ s.host.queue
  | .send _ _ m tev => m ≠ moduleBroadcast ∧ tev ∈ (s.host.module m).queue
  | .consume m => (s.host.module m).dat.pipe.isSome = true
  | .consumeUplink => True

instance (s : CopyState ρ σ) : ∀ l, Decidable (s.Enabled l)
  | .schedule _ | .consumeUplink => isTrue trivial
  | .dispatch _ _ => inferInstanceAs (Decidable (_ ∈ _))
  | .send _ _ _ _ => inferInstanceAs (Decidable (_ ∧ _))
  | .consume _ => inferInstanceAs (Decidable (_ = _))

/-- The sizes of a copy. -/
def sizes (x : Option (EventHeader × List UInt8)) : List ℕ :=
  x.toList.map fun x => x.1.size.toNat

/-- What an enabled step does. -/
def next (s : CopyState ρ σ) : CopyLabel → CopyState ρ σ
  | .schedule c => { s with host := c.run P s.host }
  | .dispatch last tev => { s with host := mainBody P last tev s.host }
  | .send last nframes m tev => { s with host := sendOne P last nframes m tev s.host }
  | .consume m =>
    let x := s.host.module m
    match x.dat.pipe with
    | none => s
    | some pipe =>
      let (pipe, copy) := pipeConsume P.ring pipe
      { host := s.host.setModule m { x with dat := x.dat.setPipe pipe }
        copied := s.copied ++ sizes copy }
  | .consumeUplink =>
    let (pipe, copy) := pipeConsume P.ring s.host.pipeUplinkTx
    { host := { s.host with pipeUplinkTx := pipe }
      copied := s.copied ++ sizes copy }

/-- Nothing is queued, and the pipes are empty. -/
structure Init (s : CopyState ρ σ) : Prop where
  queue : s.host.queue = []
  module : ∀ m, (s.host.module m).queue = []
  pipes : ∀ m, ∀ pipe ∈ (s.host.module m).dat.pipe, P.ring.contents pipe = []
  uplinkTx : P.ring.contents s.host.pipeUplinkTx = []
  copied : s.copied = []

def machine : Machine (CopyState ρ σ) CopyLabel where
  init := Init P
  step s l := if s.Enabled l then some (s.next P l) else none

/-- **The condition on what is scheduled.** -/
def Scheduled (s : CopyState ρ σ) : CopyLabel → Prop
  | .schedule c => s.host.Admits c.module c.buf.length
  | _ => True

end CopyState

/-! ### The flow of the events -/

/-- What is on its way in `h`. Where it can get to is read off the modules of `h₀`,
which stay. -/
structure Flow (h₀ h : Host ρ σ) : Prop where
  queues : QueueInv h
  graph : SameGraph h₀ h
  copies : ∀ m, (h.module m).dat.copies = (h₀.module m).dat.copies
  loops : ∀ m, (h.module m).dat.loops = (h₀.module m).dat.loops
  host : ∀ e ∈ h.queue, h₀.Admits e.module e.size
  module : ∀ m, h₀.Feeds m → ∀ e ∈ (h.module m).queue, SafeSize e.size
  pipes : ∀ m, ∀ pipe ∈ (h.module m).dat.pipe, BoundedPipe P.ring pipe
  uplinkTx : BoundedPipe P.ring h.pipeUplinkTx

namespace Flow

variable {P} {h₀ h h' : Host ρ σ}

/-- What the flow does not depend on may change. -/
theorem of_eq (f : Flow P h₀ h) (hseq : h'.seq = h.seq) (hqueue : h'.queue.Sublist h.queue)
    (hmodule : h'.module = h.module) (hmodules : h'.modules = h.modules)
    (huplinks : h'.uplinks = h.uplinks) (htx : h'.pipeUplinkTx = h.pipeUplinkTx) :
    Flow P h₀ h' where
  queues := f.queues.of_eq (le_of_eq hseq.symm) hqueue hmodule
  graph := by
    refine f.graph.trans ⟨hmodules, huplinks, ?_, ?_, ?_⟩ <;> intro m <;> rw [hmodule]
  copies m := by rw [hmodule]; exact f.copies m
  loops m := by rw [hmodule]; exact f.loops m
  host e he := f.host e (hqueue.subset he)
  module m := by rw [hmodule]; exact f.module m
  pipes m := by rw [hmodule]; exact f.pipes m
  uplinkTx := htx ▸ f.uplinkTx

theorem hostSchedule (f : Flow P h₀ h) (m : ModulePtr) (time : NFrames) {buf : List UInt8}
    (hbuf : h₀.Admits m buf.length) : Flow P h₀ (hostSchedule P m time buf h) where
  queues := f.queues.hostSchedule m time buf
  graph := f.graph.trans ⟨rfl, rfl, fun _ => rfl, fun _ => rfl, fun _ => rfl⟩
  copies := f.copies
  loops := f.loops
  host e he := by
    rcases (mem_sortedInsert P.eina f.queues.host.ordered).mp he with rfl | he
    · exact hbuf
    · exact f.host e he
  module := f.module
  pipes := f.pipes
  uplinkTx := f.uplinkTx

theorem schedCall (f : Flow P h₀ h) {c : SchedCall} (hc : h₀.Admits c.module c.buf.length) :
    Flow P h₀ (c.run P h) := by
  unfold SchedCall.run
  split
  · exact f.hostSchedule c.module c.time hc
  · exact f.hostSchedule c.module c.time hc

theorem moduleSchedule (f : Flow P h₀ h) (m : ModulePtr) (time : NFrames) {buf : List UInt8}
    (hbuf : h₀.Feeds m → SafeSize buf.length) : Flow P h₀ (moduleSchedule P m time buf h) := by
  have hsame : ∀ n, (Tjost.moduleSchedule P m time buf h).module n =
      { h.module n with
        queue := if n = m then P.eina.sortedInsert (h.module m).queue ⟨h.seq, 0, time, buf⟩
          scheduleSort else (h.module n).queue } := by
    intro n
    rw [moduleSchedule_module]
    split
    · next hn => rw [hn]
    · rfl
  refine ⟨f.queues.moduleSchedule m time buf,
    f.graph.trans (moduleSchedule_dispatches P m time buf h).graph, ?_, ?_, f.host, ?_, ?_,
    f.uplinkTx⟩
  · intro n
    rw [hsame]
    exact f.copies n
  · intro n
    rw [hsame]
    exact f.loops n
  · intro n hn e he
    rw [hsame] at he
    simp only at he
    split at he
    · next hnm =>
      subst hnm
      rcases (mem_sortedInsert P.eina (f.queues.module n).ordered).mp he with rfl | he
      · exact hbuf hn
      · exact f.module n hn e he
    · exact f.module n hn e he
  · intro n
    rw [hsame]
    exact f.pipes n

/-- **The main loop** hands an event of the host queue on to modules that admit its
size. -/
theorem mainBody (f : Flow P h₀ h)
    (hlua : ∀ st m time buf, ∀ c ∈ (P.lua.respond st m time buf).calls, c.buf.length ≤ bufSize)
    (last : NFrames) {tev : Event} (htev : tev ∈ h.queue) :
    Flow P h₀ (mainBody P last tev h) := by
  have hadmits := f.host tev htev
  set h₁ := h.messagePush (lateReport "main loop" last tev.time) with hh₁
  have f₁ : Flow P h₀ h₁ := f.of_eq rfl (List.Sublist.refl _) rfl rfl rfl rfl
  -- the loop goes by the graph as it is, which is that of the beginning
  have hreceivers : h₁.receivers tev.module = h₀.receivers tev.module := by
    unfold Host.receivers
    rw [f₁.graph.uplinks]
  have hdispatch : Flow P h₀
      (dispatchEvent P { tev with time := clamp last last tev.time } h₁) := by
    refine dispatchEvent_rule P (I := Flow P h₀) ?_ ?_ ?_ f₁
    · intro st m time buf c hc h₂ f₂
      exact f₂.moduleSchedule c.module c.time fun _ => Or.inl (hlua st m time buf c hc)
    · intro h₂ lua messages delivered f₂
      exact f₂.of_eq rfl (List.Sublist.refl _) rfl rfl rfl rfl
    · intro u hu child hchild h₂ _ f₂
      rw [f₁.graph.children] at hchild
      have hu' : u ∈ h₀.receivers tev.module := hreceivers ▸ hu
      have f₃ := f₂.moduleSchedule child (clamp last last tev.time) (hadmits u hu' child hchild)
      exact f₃.of_eq rfl (List.Sublist.refl _) rfl rfl rfl rfl
  exact hdispatch.of_eq rfl List.eraseP_sublist rfl rfl rfl rfl

/-- A `process_out` puts its module back, with less in its queue. -/
theorem putBack {δ : Type} (f : Flow P h₀ h) {m : ModulePtr} {s : OutState δ}
    {dat : ModuleDat ρ} (hqueue : s.queue.Sublist (h.module m).queue)
    (hcopies : dat.copies = (h.module m).dat.copies) (hloops : dat.loops = (h.module m).dat.loops)
    (hpipe : ∀ pipe ∈ dat.pipe, BoundedPipe P.ring pipe) :
    Flow P h₀ (h.putBack m (h.module m) s dat) := by
  set x : Module ρ := { h.module m with queue := s.queue, dat := dat } with hx
  have hat : ∀ n, (h.putBack m (h.module m) s dat).module n = if n = m then x else h.module n :=
    fun n => Function.update_apply _ _ _ _
  have g : SameGraph h (h.putBack m (h.module m) s dat) := by
    have g' := SameGraph.setModule h m (x := x) rfl rfl rfl
    exact ⟨g'.modules, g'.uplinks, g'.type, g'.children, g'.hasLuaCallback⟩
  refine ⟨⟨f.queues.host, ?_⟩, f.graph.trans g, ?_, ?_, f.host, ?_, ?_, f.uplinkTx⟩
  · intro n
    rw [hat]
    split
    · exact (f.queues.module m).sublist hqueue
    · exact f.queues.module n
  · intro n
    rw [hat]
    split
    · next hn => rw [hn]; exact hcopies.trans (f.copies m)
    · exact f.copies n
  · intro n
    rw [hat]
    split
    · next hn => rw [hn]; exact hloops.trans (f.loops m)
    · exact f.loops n
  · intro n hn e he
    rw [hat] at he
    split at he
    · next hnm => exact f.module m (hnm ▸ hn) e (hqueue.subset he)
    · exact f.module n hn e he
  · intro n
    rw [hat]
    split
    · exact hpipe
    · exact f.pipes n

/-- One iteration of a loop that leaves the data with its pipe, or produces into it. -/
theorem one {δ : Type} (f : Flow P h₀ h) {m : ModulePtr} (L : DrainLoop δ) (last : NFrames)
    (tev : Event) (dat : δ) {wrap : δ → ModuleDat ρ} (hdat : (h.module m).dat = wrap dat)
    (hkind : ∀ d d', (wrap d).copies = (wrap d').copies ∧ (wrap d).loops = (wrap d').loops)
    (hpipe : ∀ pipe ∈ (wrap (L.emit { tev with time := clamp last L.late tev.time } dat).1).pipe,
      BoundedPipe P.ring pipe) : Flow P h₀ (h.one m L last tev dat wrap) := by
  refine f.putBack List.eraseP_sublist ?_ ?_ hpipe
  · rw [hdat]
    exact (hkind _ _).1
  · rw [hdat]
    exact (hkind _ _).2

/-- An event in the queue of a module that copies has a safe size. -/
theorem safe_of_copies (f : Flow P h₀ h) {m : ModulePtr} (hm : (h.module m).dat.copies = true)
    {tev : Event} (htev : tev ∈ (h.module m).queue) : SafeSize tev.size :=
  f.module m (Host.Feeds.copies (f.copies m ▸ hm)) tev htev

/-- One iteration of a loop that produces the event into the pipe of its module. -/
theorem onePipe (f : Flow P h₀ h) {m : ModulePtr} (L : DrainLoop ρ) (last : NFrames) {tev : Event}
    (htev : tev ∈ (h.module m).queue) {pipe : ρ} {wrap : ρ → ModuleDat ρ}
    (hdat : (h.module m).dat = wrap pipe)
    (hkind : ∀ d d', (wrap d).copies = (wrap d').copies ∧ (wrap d).loops = (wrap d').loops)
    (hwrap : ∀ d, (wrap d).pipe = some d)
    (hemit : ∃ stale time, (L.emit { tev with time := clamp last L.late tev.time } pipe).1 =
      (pipeProduce P.ring stale pipe m time tev.buf).1) : Flow P h₀ (h.one m L last tev pipe wrap) := by
  obtain ⟨stale, time, hemit⟩ := hemit
  have hcurrent : (h.module m).dat.pipe = some pipe := by rw [hdat, hwrap]
  refine f.one L last tev pipe hdat hkind fun pipe' hp => ?_
  rw [hwrap, hemit] at hp
  rw [← Option.mem_some.mp hp]
  -- what is in the queue of a module with a pipe has a safe size
  exact (f.pipes m pipe hcurrent).produce stale m time
    (f.safe_of_copies (ModuleDat.copies_of_pipe hcurrent) htev)

/-- **A `process_out`** keeps all pipes bounded. -/
theorem sendOne (f : Flow P h₀ h) (last nframes : NFrames) {m : ModulePtr}
    (hm : m ≠ moduleBroadcast) {tev : Event} (htev : tev ∈ (h.module m).queue) :
    Flow P h₀ (sendOne P last nframes m tev h) := by
  have hnone : ∀ pipe ∈ (none : Option ρ), BoundedPipe P.ring pipe := fun _ hp => nomatch hp
  unfold Tjost.sendOne
  cases hdat : (h.module m).dat <;> simp only
  case oscOut port => exact f.one _ last tev port hdat (fun _ _ => ⟨rfl, rfl⟩) hnone
  case midiOut port => exact f.one _ last tev port hdat (fun _ _ => ⟨rfl, rfl⟩) hnone
  case cvOut dat => exact f.one _ last tev dat hdat (fun _ _ => ⟨rfl, rfl⟩) hnone
  case net rbTx => exact f.one _ last tev rbTx hdat (fun _ _ => ⟨rfl, rfl⟩) hnone
  case seqOut pipe =>
    exact f.onePipe _ last htev hdat (fun _ _ => ⟨rfl, rfl⟩) (fun _ => rfl) ⟨_, _, rfl⟩
  case rtmidiOut pipe =>
    exact f.onePipe _ last htev hdat (fun _ _ => ⟨rfl, rfl⟩) (fun _ => rfl) ⟨_, _, rfl⟩
  case dump pipe =>
    exact f.onePipe _ last htev hdat (fun _ _ => ⟨rfl, rfl⟩) (fun _ => rfl) ⟨_, _, rfl⟩
  case serial pipe =>
    exact f.onePipe _ last htev hdat (fun _ _ => ⟨rfl, rfl⟩) (fun _ => rfl) ⟨_, _, rfl⟩
  case write pipe offset =>
    -- beside its pipe it keeps the offset
    have hcurrent : (h.module m).dat.pipe = some pipe := by
      rw [hdat]
      rfl
    have hsafe : SafeSize tev.size := f.safe_of_copies (ModuleDat.copies_of_pipe hcurrent) htev
    refine f.one _ last tev (pipe, offset) hdat (fun _ _ => ⟨rfl, rfl⟩) fun pipe' hp => ?_
    rw [← Option.mem_some.mp hp]
    exact (f.pipes m pipe hcurrent).produce _ m _ hsafe
  case uplink =>
    -- the pipe is that of the host
    have hcopies : (h.module m).dat.copies = true := by
      rw [hdat]
      rfl
    have hput : Flow P h₀ (h.putBack m (h.module m) ((Uplink.loop P last m).body last tev
        (h.outState (h.module m) (h.pipeUplinkTx, h.pipeUplinkTxCount))) .uplink) :=
      f.putBack List.eraseP_sublist (by rw [hdat]) (by rw [hdat]) hnone
    have htx := f.uplinkTx.produce (P.stale { tev with time := clamp last last tev.time, module := m })
      m (clamp last last tev.time) (f.safe_of_copies hcopies htev)
    exact ⟨⟨hput.queues.host, hput.queues.module⟩, ⟨hput.graph.modules, hput.graph.uplinks,
      hput.graph.type, hput.graph.children, hput.graph.hasLuaCallback⟩, hput.copies, hput.loops,
      hput.host, hput.module, hput.pipes, htx⟩
  case loopback =>
    -- the event goes back to the host queue, and from there to the children
    have hloops : (h₀.module m).dat.loops = true := by
      rw [← f.loops, hdat]
      rfl
    have hadmits : h₀.Admits m tev.buf.length := by
      intro u hu child hchild hfeeds
      unfold Host.receivers at hu
      rw [if_neg hm] at hu
      rw [List.mem_singleton.mp hu] at hchild
      exact f.module m (Host.Feeds.loops hloops hchild hfeeds) tev htev
    have fsched := f.hostSchedule (P := P) m (clamp last (last + nframes) tev.time + nframes) hadmits
    set s := (Loopback.loop P last nframes m).body last tev (h.outState (h.module m) h) with hs
    have hput : Flow P h₀ (s.dat.putBack m (s.dat.module m) s .loopback) :=
      fsched.putBack List.eraseP_sublist (by show _ = (h.module m).dat.copies; rw [hdat])
        (by show _ = (h.module m).dat.loops; rw [hdat]) hnone
    exact hput
  case input => exact f

/-- **A consumer** keeps all pipes bounded, and what it copies. -/
theorem consume (f : Flow P h₀ h) {m : ModulePtr} {pipe : ρ}
    (hpipe : (h.module m).dat.pipe = some pipe) :
    Flow P h₀ (h.setModule m { h.module m with
      dat := (h.module m).dat.setPipe (pipeConsume P.ring pipe).1 }) := by
  have hbounded := (f.pipes m pipe hpipe).consume.1
  set pipe' := (pipeConsume P.ring pipe).1 with hpipe'
  have hset : ((h.module m).dat.setPipe pipe').copies = (h.module m).dat.copies ∧
      ((h.module m).dat.setPipe pipe').loops = (h.module m).dat.loops ∧
      ((h.module m).dat.setPipe pipe').pipe = some pipe' := by
    cases hdat : (h.module m).dat <;> rw [hdat] at hpipe <;>
      first | exact ⟨rfl, rfl, rfl⟩ | cases hpipe
  have hput := f.putBack (m := m) (s := h.outState (h.module m) ()) (List.Sublist.refl _)
    hset.1 hset.2.1 fun p hp => by
      rw [hset.2.2] at hp
      rw [← Option.mem_some.mp hp]
      exact hbounded
  exact hput.of_eq rfl (List.Sublist.refl _) rfl rfl rfl rfl

end Flow

/-! ### The runs -/

/-- What the script schedules are packets of the serialiser of `tjost_lua.c`. -/
def LuaScript.Serializes (lua : LuaScript σ) (A : LuaApi) (O : LibOsc) : Prop :=
  ∀ st m time buf, ∀ c ∈ (lua.respond st m time buf).calls,
    ∃ (s : OutModule) (call : Call) (r : CallResult), s.Within ∧
      serializePacket A O call s = some r ∧ (c.time, c.buf) ∈ r.scheduled

/-- The modules of `h` are as those of `h₀`. -/
theorem Flow.feeds {P} {h₀ h : Host ρ σ} (f : Flow P h₀ h) {m : ModulePtr} (hm : h₀.Feeds m) :
    h.Feeds m := by
  induction hm with
  | copies hm => exact Host.Feeds.copies ((f.copies _).trans hm)
  | loops hm hchild _ ih =>
    exact Host.Feeds.loops ((f.loops _).trans hm) (f.graph.children _ ▸ hchild) ih

theorem Flow.admits {P} {h₀ h : Host ρ σ} (f : Flow P h₀ h) {m : ModulePtr} {size : ℕ}
    (hadmits : h.Admits m size) : h₀.Admits m size := by
  intro u hu child hchild hfeeds
  refine hadmits u ?_ child (f.graph.children u ▸ hchild) (f.feeds hfeeds)
  unfold Host.receivers at hu ⊢
  rw [f.graph.uplinks]
  exact hu

namespace CopyState

variable {P}

/-- The flow is bounded, and so were the copies. -/
structure Bounded (h₀ : Host ρ σ) (s : CopyState ρ σ) : Prop where
  flow : Flow P h₀ s.host
  copied : ∀ n ∈ s.copied, n ≤ bufSize

theorem Init.bounded {s : CopyState ρ σ} (h₀ : Init P s) : Bounded (P := P) s.host s where
  flow := {
    queues := ⟨h₀.queue ▸ QueueUpTo.nil _, fun m => h₀.module m ▸ QueueUpTo.nil _⟩
    graph := SameGraph.refl _
    copies := fun _ => rfl
    loops := fun _ => rfl
    host := fun _ he => absurd (h₀.queue ▸ he) List.not_mem_nil
    module := fun m _ _ he => absurd (h₀.module m ▸ he) List.not_mem_nil
    pipes := fun m pipe hp => BoundedPipe.of_empty (h₀.pipes m pipe hp)
    uplinkTx := BoundedPipe.of_empty h₀.uplinkTx }
  copied _ hn := absurd (h₀.copied ▸ hn) List.not_mem_nil

theorem mem_append_sizes {copied : List ℕ} {x : Option (EventHeader × List UInt8)}
    (hcopied : ∀ n ∈ copied, n ≤ bufSize) (hx : ∀ y ∈ x, y.1.size.toNat ≤ bufSize) :
    ∀ n ∈ copied ++ sizes x, n ≤ bufSize := by
  intro n hn
  rcases List.mem_append.mp hn with hn | hn
  · exact hcopied n hn
  · obtain ⟨y, hy, rfl⟩ := List.mem_map.mp hn
    exact hx y (Option.mem_toList.mp hy)

/-- **Every step keeps the flow bounded**, if what it schedules is admitted. -/
theorem Bounded.step
    (hlua : ∀ st m time buf, ∀ c ∈ (P.lua.respond st m time buf).calls, c.buf.length ≤ bufSize)
    {h₀ : Host ρ σ} {s s' : CopyState ρ σ} {l : CopyLabel} (b : Bounded (P := P) h₀ s)
    (hl : Scheduled s l) (hstep : (machine P).step s l = some s') :
    Bounded (P := P) h₀ s' := by
  have henabled : s.Enabled l ∧ s.next P l = s' := by
    simp only [machine] at hstep
    split at hstep
    · next he => exact ⟨he, Option.some.inj hstep⟩
    · exact nomatch hstep
  obtain ⟨he, rfl⟩ := henabled
  cases l with
  | schedule c => exact ⟨b.flow.schedCall (b.flow.admits hl), b.copied⟩
  | dispatch last tev => exact ⟨b.flow.mainBody hlua last he, b.copied⟩
  | send last nframes m tev => exact ⟨b.flow.sendOne last nframes he.1 he.2, b.copied⟩
  | consume m =>
    obtain ⟨pipe, hpipe⟩ := Option.isSome_iff_exists.mp he
    have hread := (b.flow.pipes m pipe hpipe).consume.2
    simp only [next, hpipe]
    exact ⟨b.flow.consume hpipe, mem_append_sizes b.copied hread⟩
  | consumeUplink =>
    obtain ⟨htx, hread⟩ := b.flow.uplinkTx.consume
    have f := b.flow
    exact ⟨⟨⟨f.queues.host, f.queues.module⟩, ⟨f.graph.modules, f.graph.uplinks, f.graph.type,
      f.graph.children, f.graph.hasLuaCallback⟩, f.copies, f.loops, f.host, f.module, f.pipes,
      htx⟩, mem_append_sizes b.copied hread⟩

/-- **Copies out of pipes are bounded**, if every event that is scheduled on the host
queue has a safe size or cannot get to a buffer. -/
theorem copies_bounded {A : LuaApi} {O : LibOsc} (hO : O.Bounded) (hlua : P.lua.Serializes A O)
    {s₀ s : CopyState ρ σ} {ls : List CopyLabel} (h₀ : (machine P).init s₀)
    (hls : (machine P).Meets Scheduled s₀ ls) (hrun : (machine P).exec s₀ ls = some s) :
    (∀ n ∈ s.copied, n ≤ bufSize) ∧
      (∀ m, ∀ pipe ∈ (s.host.module m).dat.pipe, BoundedPipe P.ring pipe) ∧
      BoundedPipe P.ring s.host.pipeUplinkTx := by
  have hcalls : ∀ st m time buf, ∀ c ∈ (P.lua.respond st m time buf).calls,
      c.buf.length ≤ bufSize := by
    intro st m time buf c hc
    obtain ⟨t, call, r, ht, hr, hmem⟩ := hlua st m time buf c hc
    exact (serializePacket_within hO ht hr).2 (c.time, c.buf) hmem
  have hb : Bounded (P := P) s₀.host s :=
    Machine.exec_invariant (fun _ _ _ b hl hstep => b.step hcalls hl hstep)
      (Init.bounded h₀) hls hrun
  exact ⟨hb.copied, hb.flow.pipes, hb.flow.uplinkTx⟩

end CopyState

/-! ### A small host -/

/-- A script that schedules nothing. -/
def LuaScript.silent : LuaScript Unit where
  respond _ _ _ _ := ⟨(), [], []⟩

theorem LuaScript.silent_serializes (A : LuaApi) (O : LibOsc) : LuaScript.silent.Serializes A O :=
  fun _ _ _ _ _ hc => absurd hc List.not_mem_nil

namespace CopyState

/-- An input whose child is a `dump`. -/
def pair : CopyState (ByteRing.Fifo ringbufSize) Unit :=
  ⟨Host.pair (.dump (ByteRing.Fifo.empty ringbufSize ringbufSize_pos)), []⟩

abbrev silent : Platform (ByteRing.Fifo ringbufSize) Unit := Platform.plain 64 LuaScript.silent

/-- An event goes from the input to the `dump` and is copied there. -/
def through (buf : List UInt8) : List CopyLabel :=
  [.schedule ⟨false, 1, 6, buf⟩, .dispatch 4 ⟨0, 1, 6, buf⟩, .send 4 8 2 ⟨1, 0, 6, buf⟩, .consume 2]

theorem pair_init : Init silent pair where
  queue := rfl
  module m := by
    show (if m = 1 then _ else _ : Module _).queue = []
    split <;> rfl
  pipes m pipe hp := by
    have hdat : (pair.host.module m).dat.pipe = some pipe := hp
    unfold pair Host.pair Host.start at hdat
    simp only at hdat
    split at hdat
    · cases hdat
    · rw [← Option.some.inj hdat]
      rfl
  uplinkTx := rfl
  copied := rfl

/-- **Any event that fits into the ring goes through**, whatever its size. -/
theorem exec_through {buf : List UInt8} (hfit : sizeofEvent + buf.length < ringbufSize) :
    ∃ s, (machine silent).exec pair (through buf) = some s ∧ s.copied = [buf.length] := by
  set s₁ := pair.next silent (.schedule ⟨false, 1, 6, buf⟩) with hs₁
  set s₂ := s₁.next silent (.dispatch 4 ⟨0, 1, 6, buf⟩) with hs₂
  set s₃ := s₂.next silent (.send 4 8 2 ⟨1, 0, 6, buf⟩) with hs₃
  have hqueue₁ : s₁.host.queue = [⟨0, 1, 6, buf⟩] := rfl
  have hqueue₂ : (s₂.host.module 2).queue = [⟨1, 0, 6, buf⟩] := rfl
  set pipe := ByteRing.Fifo.empty ringbufSize ringbufSize_pos with hpipe
  have hdat₂ : (s₂.host.module 2).dat = .dump pipe := rfl
  have hdat₃ : (s₃.host.module 2).dat.pipe =
      some (pipeProduce (ByteRing.fifo ringbufSize) ⟨0, 0, 0, 0⟩ pipe 2 6 buf).1 := by
    show ((sendOne silent 4 8 2 ⟨1, 0, 6, buf⟩ s₂.host).module 2).dat.pipe = _
    unfold sendOne
    simp only [hdat₂]
    rfl
  have hspace : sizeofEvent + buf.length ≤ (ByteRing.fifo ringbufSize).writeSpace pipe :=
    Nat.le_sub_one_of_lt hfit
  have hcontents := (pipeProduce_of_fits ⟨0, 0, 0, 0⟩ 2 6 hspace).2
  have hsized : Record.Sized ⟨⟨0, 0, 0, 0⟩, 2, 6, buf⟩ := by
    have hring : ringbufSize < 2 ^ 64 := by decide
    exact hfit.trans hring
  have hrecord := pipeConsume_record hsized (hcontents.trans (List.append_nil _).symm)
  have hcopy := hrecord.1
  have hstep : ∀ (s : CopyState (ByteRing.Fifo ringbufSize) Unit) (l : CopyLabel), s.Enabled l →
      (machine silent).step s l = some (s.next silent l) := fun _ _ he => if_pos he
  refine ⟨s₃.next silent (.consume 2), ?_, ?_⟩
  · refine Machine.exec_cons_eq_some.mpr ⟨s₁, hstep _ _ trivial, ?_⟩
    refine Machine.exec_cons_eq_some.mpr ⟨s₂, hstep _ _ ?_, ?_⟩
    · show _ ∈ s₁.host.queue
      rw [hqueue₁]
      exact List.mem_cons_self
    refine Machine.exec_cons_eq_some.mpr ⟨s₃, hstep _ _ ⟨by decide, ?_⟩, ?_⟩
    · rw [hqueue₂]
      exact List.mem_cons_self
    refine Machine.exec_cons_eq_some.mpr ⟨_, hstep _ _ ?_, rfl⟩
    show (s₃.host.module 2).dat.pipe.isSome = true
    rw [hdat₃]
    rfl
  · simp only [next, hdat₃]
    show s₃.copied ++ sizes (pipeConsume (ByteRing.fifo ringbufSize) _).2 = _
    rw [hcopy]
    show [(Record.header _).size.toNat] = _
    rw [hsized.size]

/-- **The condition cannot be weakened.** An event whose size is not safe is copied
beyond the end of the buffer. -/
theorem copied_of_unsafe {buf : List UInt8} (hbuf : ¬ SafeSize buf.length) :
    ∃ s, (machine silent).exec pair (through buf) = some s ∧
      ∃ n ∈ s.copied, bufSize < n := by
  have hboth : bufSize < buf.length ∧ sizeofEvent + buf.length < ringbufSize := by
    unfold SafeSize at hbuf
    omega
  obtain ⟨s, hrun, hcopied⟩ := exec_through hboth.2
  refine ⟨s, hrun, buf.length, ?_, hboth.1⟩
  rw [hcopied]
  exact List.mem_cons_self

/-- The message `/a` with a blob of 16376 bytes: four bytes more than fit into the
buffer. -/
def oversize : List UInt8 :=
  [47, 97, 0, 0, 44, 98, 0, 0] ++ Bytes.toBE 4 16376 ++ List.replicate 16376 0

theorem length_oversize : oversize.length = bufSize + 4 := by
  unfold oversize
  rw [List.length_append, List.length_append, Bytes.length_toBE, List.length_replicate]
  rfl

/-- **A copy beyond the end**: the pipe takes the message, and the `dump` copies it. -/
theorem copies_oversize :
    ∃ s, (machine silent).init pair ∧ (machine silent).exec pair (through oversize) = some s ∧
      s.copied = [bufSize + 4] ∧ ¬ ∀ n ∈ s.copied, n ≤ bufSize := by
  have hfit : sizeofEvent + oversize.length < ringbufSize := by
    rw [length_oversize]
    decide
  obtain ⟨s, hrun, hcopied⟩ := exec_through hfit
  rw [length_oversize] at hcopied
  refine ⟨s, pair_init, hrun, hcopied, ?_⟩
  rw [hcopied]
  intro hall
  exact absurd (hall _ List.mem_cons_self) (by decide)

theorem copies_bounded_pair :
    ∃ s, (machine silent).exec pair (through [47, 97, 0, 0, 44, 0, 0, 0]) = some s ∧
      ∀ n ∈ s.copied, n ≤ bufSize := by
  have hfit : sizeofEvent + ([47, 97, 0, 0, 44, 0, 0, 0] : List UInt8).length < ringbufSize := by
    decide
  obtain ⟨s, hrun, -⟩ := exec_through hfit
  refine ⟨s, hrun, ?_⟩
  have hls : (machine silent).Meets Scheduled pair (through [47, 97, 0, 0, 44, 0, 0, 0]) := by
    refine ⟨fun _ _ _ _ _ => by decide, fun _ _ => ⟨trivial, fun _ _ => ⟨trivial, fun _ _ => ?_⟩⟩⟩
    exact ⟨trivial, fun _ _ => trivial⟩
  exact (copies_bounded LibOsc.plain_bounded
    (LuaScript.silent_serializes LuaApi.plain LibOsc.plain) pair_init hls hrun).1

end CopyState

end Tjost
