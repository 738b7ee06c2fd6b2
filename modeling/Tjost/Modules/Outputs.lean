import Tjost.Modules.Drain
import Tjost.Pipe.Produce

/-!
# The output modules

The `process_out` of every module that has one, each in a namespace of its
module's name: `osc_out`, `midi_out` and `cv_out` write into a JACK port,
`seq_out`, `rtmidi_out`, `dump`, `write`, `serial` and `uplink` produce into a
pipe, the network modules write records into their transmit ring
(`mod_net_process_out`), and `loopback` schedules its events on the host queue
again.

A module whose port is `NULL` returns at once. The models below are those of
modules that were added successfully, whose port exists.

`processOut` is the call through `module->process_out`: it gives the loop of the
module its queue and data, and puts them back into the host.
-/

namespace Tjost

variable {ρ σ : Type} (P : Platform ρ σ) (last nframes : NFrames)

/-! ### Modules that write into a port -/

namespace OscOut

/-- The loop of `mod_osc_out.c`. -/
def loop : DrainLoop (List PortEvent) where
  name := "osc_out"
  late := last
  emit tev port :=
    if P.oscPort.maxEventSize port < tev.size then (port, ["osc_out: buffer overflow"])
    else (P.oscPort.eventWrite nframes port ⟨tev.time - last, tev.buf⟩, [])

/-- `process_out`. The port buffer is cleared first. -/
def processOut (s : OutState (List PortEvent)) : OutState (List PortEvent) :=
  (loop P last nframes).run last nframes { s with dat := [] }

end OscOut

namespace MidiOut

/-- `_midi`: walk the format with `ptr` on the argument bytes, and write bytes 1
to 3 of every MIDI argument. -/
def midi (time : NFrames) :
    List Char → List UInt8 → List PortEvent → List PortEvent × List String
  | [], _, port => (port, [])
  | type :: fmt, ptr, port =>
    if type = 'm' then
      let m := (ptr.take 4).drop 1
      if P.midiPort.maxEventSize port < 3 then
        let rest := midi time fmt (ptr.drop 4) port
        (rest.1, "midi_out: buffer overflow" :: rest.2)
      else midi time fmt (ptr.drop 4) (P.midiPort.eventWrite nframes port ⟨time, m⟩)
    else midi time fmt (P.osc.skip type ptr) port

/-- `osc_dispatch_method` with the method table of `mod_midi_out.c`, which takes
every message. -/
def dispatch (time : NFrames) :
    List OscMessage → List PortEvent → List PortEvent × List String
  | [], port => (port, [])
  | msg :: msgs, port =>
    let out := midi P nframes time msg.fmt msg.args port
    let rest := dispatch time msgs out.1
    (rest.1, out.2 ++ rest.2)

/-- The loop of `mod_midi_out.c`. -/
def loop : DrainLoop (List PortEvent) where
  name := "midi_out"
  late := last
  emit tev port := dispatch P nframes (tev.time - last) (P.osc.messages tev.buf) port

/-- `process_out`. The port buffer is cleared first. -/
def processOut (s : OutState (List PortEvent)) : OutState (List PortEvent) :=
  (loop P last nframes).run last nframes { s with dat := [] }

end MidiOut

namespace CvOut

/-- `for(; i<stop; i++) port_buf[i] = value`. -/
def fill (value : UInt32) (i stop : ℕ) (portBuf : ℕ → UInt32) : ℕ → UInt32 :=
  (List.range' i (stop - i)).foldl (fun b j => Function.update b j value) portBuf

/-- `_cv`: hold the old value up to the event's time. -/
def cv (time : NFrames) (args : List UInt8) (dat : CvOutData) : CvOutData where
  portBuf := fill dat.value dat.time.toNat time.toNat dat.portBuf
  time := time
  value := P.osc.getFloat args

/-- `osc_dispatch_method` with the method table of `mod_cv_out.c`: the messages
with path `CV_PATH` and format `CV_FMT`. -/
def dispatch (time : NFrames) (msgs : List OscMessage) (dat : CvOutData) : CvOutData :=
  (msgs.filter fun msg => msg.path == ['/', 'c', 'v'] && msg.fmt == ['f']).foldl
    (fun dat msg => cv P time msg.args dat) dat

/-- The loop of `mod_cv_out.c`. -/
def loop : DrainLoop CvOutData where
  name := "cv_out"
  late := last
  emit tev dat := (dispatch P (tev.time - last) (P.osc.messages tev.buf) dat, [])

/-- `process_out`: the position is reset before the loop, and the rest of the
buffer is filled after it. -/
def processOut (s : OutState CvOutData) : OutState CvOutData :=
  let s := (loop P last).run last nframes { s with dat := { s.dat with time := 0 } }
  { s with dat := { s.dat with
      portBuf := fill s.dat.value s.dat.time.toNat nframes.toNat s.dat.portBuf } }

end CvOut

/-! ### Modules that produce into a pipe -/

/-- `tjost_pipe_produce` of an event, with the report of a failure. -/
def produceOr (report : String) (module : ModulePtr) (tev : Event) (pipe : ρ) :
    ρ × List String :=
  let out := pipeProduce P.ring (P.stale tev) pipe module tev.time tev.buf
  (out.1, if out.2 ≠ 0 then [report] else [])

/-- `tjost_pipe_flush` where the queue was not empty, with the report of a
failure. -/
def flushOr {δ : Type} (report : String) (count : ℕ) (s : OutState δ) : OutState δ :=
  if count > 0 ∧ P.asyncSendError.isSome then { s with messages := s.messages ++ [report] } else s

namespace SeqOut

/-- The loop of `mod_seq_out.c`. The time is made relative to the period. -/
def loop (m : ModulePtr) : DrainLoop ρ where
  name := "seq_out"
  late := last
  emit tev := produceOr P "seq_out: ringbuffer overflow" m { tev with time := tev.time - last }

/-- `process_out`. -/
def processOut (m : ModulePtr) (s : OutState ρ) : OutState ρ :=
  flushOr P "seq_out: tjost_pipe_flush error" s.queue.length
    ((loop P last m).run last nframes s)

end SeqOut

namespace RtmidiOut

/-- The loop of `mod_rtmidi_out.c`. The time is made relative to the period. -/
def loop (m : ModulePtr) : DrainLoop ρ where
  name := "rtmidi_out"
  late := last
  emit tev := produceOr P "rtmidi_out: tjost_pipe_produce error" m
    { tev with time := tev.time - last }

/-- `process_out`. -/
def processOut (m : ModulePtr) (s : OutState ρ) : OutState ρ :=
  flushOr P "rtmidi_out: tjost_pipe_flush error" s.queue.length
    ((loop P last m).run last nframes s)

end RtmidiOut

namespace Dump

/-- The loop of `mod_dump.c`. -/
def loop (m : ModulePtr) : DrainLoop ρ where
  name := "dump"
  late := last
  emit := produceOr P "dump: tjost_pipe_produce error" m

/-- `process_out`. -/
def processOut (m : ModulePtr) (s : OutState ρ) : OutState ρ :=
  flushOr P "dump: tjost_pipe_flush error" s.queue.length
    ((loop P last m).run last nframes s)

end Dump

namespace Serial

/-- The loop of `mod_serial.c`, on its transmit pipe. -/
def loop (m : ModulePtr) : DrainLoop ρ where
  name := "serial"
  late := last
  emit := produceOr P "serial: tjost_pipe_produce error" m

/-- `process_out`. -/
def processOut (m : ModulePtr) (s : OutState ρ) : OutState ρ :=
  flushOr P "serial: tjost_pipe_flush error" s.queue.length
    ((loop P last m).run last nframes s)

end Serial

namespace Write

/-- The event that is produced. Its time is relative to `dat->offset`. -/
def relativeTo (offset : NFrames) (tev : Event) : Event := { tev with time := tev.time - offset }

/-- The loop of `mod_write.c`. -/
def loop (m : ModulePtr) : DrainLoop (ρ × NFrames) where
  name := "write"
  late := last
  emit tev dat :=
    let out := produceOr P "write: tjost_pipe_produce error" m (relativeTo dat.2 tev) dat.1
    ((out.1, dat.2), out.2)

/-- `dat->offset` in the loop. An offset of `0` is set to the start of the period. -/
def offsetAt (last offset : NFrames) : NFrames := if offset = 0 then last else offset

@[simp] theorem offsetAt_zero (last : NFrames) : offsetAt last 0 = last := if_pos rfl

theorem offsetAt_of_ne {offset : NFrames} (last : NFrames) (h : offset ≠ 0) :
    offsetAt last offset = offset := if_neg h

/-- `process_out`. The report about the flush is outside the test of its result. -/
def processOut (m : ModulePtr) (s : OutState (ρ × NFrames)) : OutState (ρ × NFrames) :=
  let count := s.queue.length
  let s := (loop P last m).run last nframes { s with dat := (s.dat.1, offsetAt last s.dat.2) }
  if count > 0 then { s with messages := s.messages ++ ["write: tjost_pipe_flush error"] } else s

end Write

namespace Uplink

/-- The loop of `mod_uplink.c`: `tjost_uplink_tx_push` into the transmit pipe of
the host, with the uplink as the module to reply to. The second component counts
the pushes. -/
def loop (m : ModulePtr) : DrainLoop (ρ × ℕ) where
  name := "uplink"
  late := last
  emit tev dat :=
    let out := produceOr P "tjost_uplink_tx_push: tjost_pipe_produce failed" m
      { tev with module := m } dat.1
    ((out.1, dat.2 + 1), out.2)

/-- `process_out`. -/
def processOut (m : ModulePtr) (s : OutState (ρ × ℕ)) : OutState (ρ × ℕ) :=
  (loop P last m).run last nframes s

end Uplink

/-! ### The network modules and the loopback -/

namespace Net

/-- Append the record of an event to the transmit ring, or drop it whole. The
record is the image of the queued event itself, whose module is `NULL`. -/
def append (tev : Event) (rbTx : ρ) : ρ × List String :=
  if P.ring.writeSpace rbTx < sizeofEvent + tev.size then (rbTx, ["net: ringbuffer overflow"])
  else
    let rbTx := (P.ring.write rbTx
      ((P.stale tev).header tev.module tev.time tev.size).encode).1
    ((P.ring.write rbTx tev.buf).1, [])

/-- The loop of `mod_net.c`. -/
def loop : DrainLoop ρ where
  name := "net"
  late := last
  emit := append P

/-- `mod_net_process_out`, the `process_out` of `net_in` and `net_out`. -/
def processOut (s : OutState ρ) : OutState ρ :=
  let count := s.queue.length
  let s := (loop P last).run last nframes s
  if count > 0 then
    { s with messages := s.messages ++ P.asyncSendError.toList.map ("net: " ++ ·) }
  else s

end Net

namespace Loopback

/-- The loop of `mod_loopback.c`. A late event gets the end of the period, and
every event is scheduled one period later on the host queue. -/
def loop (m : ModulePtr) : DrainLoop (Host ρ σ) where
  name := "loopback"
  late := last + nframes
  emit tev h := (hostSchedule P m (tev.time + nframes) tev.buf h, [])

/-- `process_out`. -/
def processOut (m : ModulePtr) (s : OutState (Host ρ σ)) : OutState (Host ρ σ) :=
  (loop P last nframes m).run last nframes s

end Loopback

/-! ### The call through the module -/

/-- The state in which the `process_out` of a module starts. -/
def Host.outState {δ : Type} (h : Host ρ σ) (x : Module ρ) (dat : δ) : OutState δ where
  queue := x.queue
  dat := dat
  messages := h.messages
  drained := []

/-- Put back what a `process_out` leaves. -/
def Host.putBack {δ : Type} (h : Host ρ σ) (m : ModulePtr) (x : Module ρ) (s : OutState δ)
    (dat : ModuleDat ρ) : Host ρ σ :=
  { h.setModule m { x with queue := s.queue, dat := dat } with
    messages := s.messages
    drained := h.drained ++ s.drained.map (m, ·) }

/-- `module->process_out(nframes, module)`. -/
def processOut (m : ModulePtr) (h : Host ρ σ) : Host ρ σ :=
  let x := h.module m
  match x.dat with
  | .oscOut port =>
    let s := OscOut.processOut P last nframes (h.outState x port)
    h.putBack m x s (.oscOut s.dat)
  | .midiOut port =>
    let s := MidiOut.processOut P last nframes (h.outState x port)
    h.putBack m x s (.midiOut s.dat)
  | .cvOut dat =>
    let s := CvOut.processOut P last nframes (h.outState x dat)
    h.putBack m x s (.cvOut s.dat)
  | .seqOut pipe =>
    let s := SeqOut.processOut P last nframes m (h.outState x pipe)
    h.putBack m x s (.seqOut s.dat)
  | .rtmidiOut pipe =>
    let s := RtmidiOut.processOut P last nframes m (h.outState x pipe)
    h.putBack m x s (.rtmidiOut s.dat)
  | .dump pipe =>
    let s := Dump.processOut P last nframes m (h.outState x pipe)
    h.putBack m x s (.dump s.dat)
  | .write pipe offset =>
    let s := Write.processOut P last nframes m (h.outState x (pipe, offset))
    h.putBack m x s (.write s.dat.1 s.dat.2)
  | .serial pipeTx =>
    let s := Serial.processOut P last nframes m (h.outState x pipeTx)
    h.putBack m x s (.serial s.dat)
  | .net rbTx =>
    let s := Net.processOut P last nframes (h.outState x rbTx)
    h.putBack m x s (.net s.dat)
  | .uplink =>
    let s := Uplink.processOut P last nframes m
      (h.outState x (h.pipeUplinkTx, h.pipeUplinkTxCount))
    { h.putBack m x s .uplink with pipeUplinkTx := s.dat.1, pipeUplinkTxCount := s.dat.2 }
  | .loopback =>
    let s := Loopback.processOut P last nframes m (h.outState x h)
    s.dat.putBack m x s .loopback
  | .input => h

/-- The host that `loopback` puts its state back into still has the modules of
the host it started from. -/
theorem Loopback.processOut_module (m : ModulePtr) (s : OutState (Host ρ σ)) :
    (Loopback.processOut P last nframes m s).dat.module = s.dat.module :=
  DrainLoop.run_dat_invariant (L := Loopback.loop P last nframes m)
    (I := fun d => d.module = s.dat.module) (fun _ _ hd => hd) rfl

/-- **The rule of `process_out`.** A call puts the module back with a new queue and
new data, moves the transmit pipe of the uplinks, or schedules events of the module on
the host queue. -/
theorem processOut_rule {I : Host ρ σ → Prop} {m : ModulePtr}
    (hput : ∀ {δ : Type} (h : Host ρ σ) (s : OutState δ) (dat : ModuleDat ρ),
      I h → I (h.putBack m (h.module m) s dat))
    (htx : ∀ (h : Host ρ σ) (pipe : ρ) (count : ℕ), I h →
      I { h with pipeUplinkTx := pipe, pipeUplinkTxCount := count })
    (hsched : ∀ (h : Host ρ σ) (time : NFrames) (buf : List UInt8), I h →
      I (hostSchedule P m time buf h))
    {h : Host ρ σ} (hI : I h) : I (processOut P last nframes m h) := by
  unfold processOut
  cases hdat : (h.module m).dat <;> simp only [hdat]
  case uplink => exact htx _ _ _ (hput h _ _ hI)
  case loopback =>
    set s := Loopback.processOut P last nframes m (h.outState (h.module m) h) with hs
    have hmod : s.dat.module m = h.module m :=
      congrFun (Loopback.processOut_module P last nframes m (h.outState (h.module m) h)) m
    have hIdat : I s.dat :=
      DrainLoop.run_dat_invariant (L := Loopback.loop P last nframes m)
        (fun tev d hd => hsched d (tev.time + nframes) tev.buf hd) hI
    rw [← hmod]
    exact hput s.dat s .loopback hIdat
  case input => exact hI
  all_goals exact hput h _ _ hI

/-- **Invariants of `process_out`**, of any module. -/
theorem processOut_invariant {I : Host ρ σ → Prop}
    (hput : ∀ {δ : Type} (h : Host ρ σ) (m : ModulePtr) (s : OutState δ) (dat : ModuleDat ρ),
      I h → I (h.putBack m (h.module m) s dat))
    (htx : ∀ (h : Host ρ σ) (pipe : ρ) (count : ℕ), I h →
      I { h with pipeUplinkTx := pipe, pipeUplinkTxCount := count })
    (hsched : ∀ (h : Host ρ σ) (m : ModulePtr) (time : NFrames) (buf : List UInt8), I h →
      I (hostSchedule P m time buf h))
    {h : Host ρ σ} (hI : I h) (m : ModulePtr) : I (processOut P last nframes m h) :=
  processOut_rule P last nframes (fun h s dat => hput h m s dat) htx
    (fun h time buf => hsched h m time buf) hI

end Tjost
