import Tjost.Modules.MidiInputs
import Tjost.Modules.Recording

/-!
# The bytes of MIDI messages

A `/midi` message carries four bytes for an event, of which three are its bytes. The inputs
`midi_in` and `rtmidi_in` take them from messages of any size, `callbackWrapper` copies the
whole message into four bytes before that, and `seq_in` lets a decoder write up to 16 bytes
into the three that are free. `midi_out` writes three bytes for every event.

The accesses of each are recorded (`Scratch`), and stay in bounds for messages of at least
three bytes, of exactly three or four, and of at most three or more than 16 respectively
(`Scratch.inBounds_ofMessage`, `RtmidiIn.inBounds_iff`, `SeqIn.inBounds_iff`).
`bytes_survive_iff`: all of them are in bounds and `midi_out` writes the bytes of all messages of
a group, or leaves some of them out, if and only if every message has three bytes.
-/

open ByteMemory

namespace Tjost

/-- The accesses of a piece of code that gets a message of `n` bytes. -/
structure Scratch.InBounds (s : Scratch) (n : ℕ) : Prop where
  reads : ∀ j ∈ s.reads, j < n
  writes : ∀ i ∈ s.writes, i < 4

/-- The bytes of an event. -/
def MidiEvent.bytes (mev : MidiEvent) : List UInt8 := read mev.buffer 0 mev.size

/-- `snd_midi_event_decode`: what it writes for an event with this message into a buffer with
room for `count` bytes, and what it returns. -/
structure MidiDecoder where
  decode : ℕ → List UInt8 → List UInt8 × ℤ
  decode_fits : ∀ count msg, msg.length ≤ count → decode count msg = (msg, (msg.length : ℤ))
  decode_large : ∀ count msg, count < msg.length →
    (decode count msg).1 = [] ∧ (decode count msg).2 < 0

/-- A decoder that writes what fits. -/
def plainDecoder : MidiDecoder where
  decode count msg := if msg.length ≤ count then (msg, msg.length) else ([], -12)
  decode_fits _ _ h := if_pos h
  decode_large _ _ h := by
    rw [if_neg (Nat.not_le.mpr h)]
    exact ⟨rfl, by decide⟩

variable {ρ : Type} (R : ByteRing ρ ringbufSize) (C : OscChecker) (stale : Stale)
  (module : ModulePtr) (W : MidiWriter)

/-- A message with one `m`, for immediate execution. `name` is that of the module. -/
def produceMidi (name : String) (m : List UInt8) (pipe : ρ) : ρ × List String :=
  let buf := W.setPath MidiIn.midiPath ++ W.setFmt ['m'] ++ W.setMidi m
  if C.checkMessage buf then
    let (pipe, err) := pipeProduce R stale pipe module 0 buf
    (pipe, if err = 0 then [] else [name ++ ": tjost_pipe_produce error"])
  else (pipe, [name ++ ": rx OSC message invalid"])

namespace RtmidiIn

/-- `callbackWrapper` of `rtmidi_c.cpp`. `msg` is not initialised. -/
def callbackWrapper (message : List UInt8) (msg : ByteMemory.Memory) : Scratch :=
  (List.range message.length).foldl (fun s i => s.assign (fun i => message.getD i 0) i i)
    ⟨msg, [], []⟩

/-- `m` of `_rtmidic_cb`. It does not look at the size. -/
def scratch (message behind : ByteMemory.Memory) : Scratch := Scratch.ofMessage message behind

/-- `_rtmidic_cb`. -/
def rtmidicCb (message behind : ByteMemory.Memory) (pipe : ρ) : ρ × List String :=
  produceMidi R C stale module W "rtmidi_in" (read (scratch message behind).m 0 4) pipe

/-- What RtMidi calls for a message. -/
def callback (message : List UInt8) (msg behind : ByteMemory.Memory) (pipe : ρ) :
    ρ × List String :=
  rtmidicCb R C stale module W (callbackWrapper message msg).m behind pipe

end RtmidiIn

namespace SeqIn

variable (D : MidiDecoder)

/-- `snd_midi_event_decode(dat->trans, &m[1], 0x10, sev)`. -/
def decode (message : List UInt8) (s : Scratch) : Scratch × ℤ :=
  let out := D.decode 0x10 message
  (⟨write s.m 1 out.1, s.reads, s.writes ++ List.range' 1 out.1.length⟩, out.2)

/-- The loop of `_poll` over the events of the sequencer, of which there is at least one. -/
def poll : List (List UInt8) → Scratch → ρ → ρ × List String
  | [], _, pipe => (pipe, [])
  | message :: messages, s, pipe =>
    let (s, n) := decode D message s
    let out := if n = 3 then produceMidi R C stale module W "seq_in" (read s.m 0 4) pipe
      else (pipe, ["seq_in: event decode failed"])
    let rest := poll messages s out.1
    (rest.1, out.2 ++ rest.2)

end SeqIn

/-- libosc reads the messages of `midi_in` as what they are. -/
def MidiWriter.Faithful (osc : OscReader) : Prop :=
  ∀ evs, osc.messages (MidiIn.encode W evs) =
    [⟨MidiIn.midiPath, List.replicate evs.length 'm', evs.flatMap MidiIn.toMidi⟩]

variable {σ : Type} (P : Platform ρ σ) (nframes time : NFrames)

/-- Messages have been written to a port one after the other. Some may have been rejected. -/
inductive Delivered : List (List UInt8) → List PortEvent → List PortEvent → Prop
  | nil (port : List PortEvent) : Delivered [] port port
  | write {bytes : List UInt8} {rest : List (List UInt8)} {port port' : List PortEvent} :
    Delivered rest (P.midiPort.eventWrite nframes port ⟨time, bytes⟩) port' →
      Delivered (bytes :: rest) port port'
  | reject {bytes : List UInt8} {rest : List (List UInt8)} {port port' : List PortEvent} :
    Delivered rest port port' → Delivered (bytes :: rest) port port'

variable (D : MidiDecoder)

/-- **MIDI bytes survive the bridge.** For the events of a group, in memories with any
other bytes, and an output port that holds any events. -/
structure Survives (evs : List MidiEvent) : Prop where
  midiIn : ∀ mev ∈ evs, ∀ behind, (MidiIn.scratch mev behind).InBounds mev.size
  wrapper : ∀ mev ∈ evs, ∀ msg, (RtmidiIn.callbackWrapper mev.bytes msg).InBounds mev.size
  callback : ∀ mev ∈ evs, ∀ msg behind, (RtmidiIn.scratch
    (RtmidiIn.callbackWrapper mev.bytes msg).m behind).InBounds mev.size
  seqIn : ∀ mev ∈ evs, ∀ behind,
    (SeqIn.decode D mev.bytes (Scratch.zero behind)).1.InBounds mev.size
  midiOut : ∀ fresh port, Delivered P nframes time (evs.map MidiEvent.bytes) port
    (MidiOut.dispatch P nframes time (P.osc.messages (MidiIn.message W evs fresh)) port).1

section Bounds

/-! ### The accesses -/

variable {D} {n : ℕ}

theorem Scratch.inBounds_ofMessage (message behind : ByteMemory.Memory) :
    (Scratch.ofMessage message behind).InBounds n ↔ 3 ≤ n := by
  constructor
  · -- the last of the three reads
    intro h
    have hmem : 2 ∈ (Scratch.ofMessage message behind).reads :=
      List.mem_append_right _ List.mem_cons_self
    exact h.reads 2 hmem
  · intro hn
    refine ⟨?_, ?_⟩
    · intro j hj
      have hlt : j < 3 := (by decide : ∀ j ∈ [0, 1, 2], j < 3) j hj
      omega
    · exact (by decide : ∀ i ∈ [1, 2, 3], i < 4)

/-- The loop of `callbackWrapper` reads and writes every index once. -/
theorem RtmidiIn.callbackWrapper_accesses (message : List UInt8) (msg : ByteMemory.Memory) :
    (RtmidiIn.callbackWrapper message msg).reads = List.range message.length ∧
      (RtmidiIn.callbackWrapper message msg).writes = List.range message.length := by
  unfold RtmidiIn.callbackWrapper
  induction message.length with
  | zero => exact ⟨rfl, rfl⟩
  | succ n ih =>
    obtain ⟨hreads, hwrites⟩ := ih
    rw [List.range_succ, List.foldl_append]
    exact ⟨congrArg (· ++ [n]) hreads, congrArg (· ++ [n]) hwrites⟩

/-- `callbackWrapper` stays in its four bytes if the message does. -/
theorem RtmidiIn.inBounds_iff (message : List UInt8) (msg : ByteMemory.Memory) :
    (RtmidiIn.callbackWrapper message msg).InBounds message.length ↔ message.length ≤ 4 := by
  obtain ⟨hreads, hwrites⟩ := RtmidiIn.callbackWrapper_accesses message msg
  constructor
  · intro h
    by_contra hlarge
    have hfive := h.writes 4 (by rw [hwrites, List.mem_range]; omega)
    omega
  · intro hle
    refine ⟨?_, ?_⟩
    · intro j hj
      rw [hreads] at hj
      exact List.mem_range.mp hj
    · intro i hi
      rw [hwrites] at hi
      exact (List.mem_range.mp hi).trans_le hle

/-- The decoder stays in the four bytes if the message has at most three, or none at all is
written. -/
theorem SeqIn.inBounds_iff (message : List UInt8) (behind : ByteMemory.Memory) :
    (SeqIn.decode D message (Scratch.zero behind)).1.InBounds n ↔
      message.length ≤ 3 ∨ 16 < message.length := by
  have hreads : (SeqIn.decode D message (Scratch.zero behind)).1.reads = [] := rfl
  have hwrites : (SeqIn.decode D message (Scratch.zero behind)).1.writes =
      List.range' 1 (D.decode 0x10 message).1.length := rfl
  by_cases hlarge : 16 < message.length
  · refine iff_of_true ⟨?_, ?_⟩ (Or.inr hlarge)
    · rw [hreads]
      exact fun j hj => absurd hj List.not_mem_nil
    · rw [hwrites, (D.decode_large 0x10 message hlarge).1]
      exact fun i hi => absurd hi List.not_mem_nil
  · -- up to 16 bytes are written behind the status, where there is room for three
    have hall : (D.decode 0x10 message).1 = message := by
      rw [D.decode_fits 0x10 message (by omega)]
    rw [hall] at hwrites
    constructor
    · intro h
      by_contra hmid
      have hfour := h.writes 4 (by rw [hwrites, List.mem_range'_1]; omega)
      omega
    · intro hsmall
      refine ⟨?_, ?_⟩
      · rw [hreads]
        exact fun j hj => absurd hj List.not_mem_nil
      · intro i hi
        rw [hwrites, List.mem_range'_1] at hi
        omega

end Bounds

/-! ### The way back -/

section RoundTrip

variable {P nframes time}

/-- `midi_out` writes three bytes for every argument, or rejects it. -/
theorem MidiOut.midi_delivered (evs : List MidiEvent) (port : List PortEvent) :
    Delivered P nframes time (evs.map fun mev => read mev.buffer 0 3) port
      (MidiOut.midi P nframes time (List.replicate evs.length 'm')
        (evs.flatMap MidiIn.toMidi) port).1 := by
  induction evs generalizing port with
  | nil => exact Delivered.nil port
  | cons mev evs ih =>
    have htake : ((MidiIn.toMidi mev ++ evs.flatMap MidiIn.toMidi).take 4).drop 1 =
        read mev.buffer 0 3 := rfl
    have hdrop : (MidiIn.toMidi mev ++ evs.flatMap MidiIn.toMidi).drop 4 =
        evs.flatMap MidiIn.toMidi := rfl
    rw [List.map_cons, List.flatMap_cons, List.length_cons, List.replicate_succ]
    unfold MidiOut.midi
    simp only [if_true, htake, hdrop]
    split
    · -- the port is full
      exact Delivered.reject (ih port)
    · exact Delivered.write (ih _)

variable {W}

theorem MidiOut.dispatch_delivered (hW : W.Faithful P.osc) (evs : List MidiEvent)
    (fresh : ByteMemory.Memory) (port : List PortEvent) :
    Delivered P nframes time (evs.map fun mev => read mev.buffer 0 3) port
      (MidiOut.dispatch P nframes time (P.osc.messages (MidiIn.message W evs fresh)) port).1 := by
  rw [MidiIn.message_eq, hW evs]
  exact MidiOut.midi_delivered evs port

end RoundTrip

variable {P W D}

/-- **Which messages survive the bridge**: those of three bytes. -/
theorem bytes_survive_iff (hW : W.Faithful P.osc) (evs : List MidiEvent) :
    Survives W P nframes time D evs ↔ ∀ mev ∈ evs, mev.size = 3 := by
  have hlen : ∀ mev : MidiEvent, mev.bytes.length = mev.size := fun mev => length_read _ _ _
  constructor
  · intro h mev hmev
    -- `midi_in` needs three bytes, the wrapper allows four and the decoder three
    have hlow := (Scratch.inBounds_ofMessage _ _).mp (h.midiIn mev hmev fun _ => 0)
    have hwrapper := h.wrapper mev hmev fun _ => 0
    rw [← hlen mev, RtmidiIn.inBounds_iff, hlen] at hwrapper
    have hseq := (SeqIn.inBounds_iff _ _).mp (h.seqIn mev hmev fun _ => 0)
    rw [hlen] at hseq
    omega
  · intro hsize
    refine ⟨?_, ?_, ?_, ?_, ?_⟩
    · intro mev hmev behind
      exact (Scratch.inBounds_ofMessage _ _).mpr (hsize mev hmev).ge
    · intro mev hmev msg
      rw [← hlen mev, RtmidiIn.inBounds_iff, hlen, hsize mev hmev]
      omega
    · intro mev hmev msg behind
      exact (Scratch.inBounds_ofMessage _ _).mpr (hsize mev hmev).ge
    · intro mev hmev behind
      refine (SeqIn.inBounds_iff _ _).mpr (Or.inl ?_)
      rw [hlen, hsize mev hmev]
    · -- three bytes are what `midi_out` writes
      intro fresh port
      have hbytes : evs.map MidiEvent.bytes = evs.map fun mev => read mev.buffer 0 3 := by
        refine List.map_congr_left fun mev hmev => ?_
        unfold MidiEvent.bytes
        rw [hsize mev hmev]
      rw [hbytes]
      exact MidiOut.dispatch_delivered hW evs fresh port

/-- A string without zeros, with its padding, and what follows it. -/
theorem oscString_padded {bs rest : List UInt8} (hne : ∀ b ∈ bs, b ≠ 0) :
    oscString (bs ++ List.replicate (oscPadded bs.length - bs.length) 0 ++ rest) =
      (bs.map fun b => Char.ofNat b.toNat, rest) := by
  have hpad : bs.length < oscPadded bs.length := by
    unfold oscPadded
    omega
  -- the string ends at the first zero of the padding
  have htake : (bs ++ List.replicate (oscPadded bs.length - bs.length) 0 ++ rest).takeWhile
      (fun b => b ≠ 0) = bs := by
    rw [List.append_assoc, List.takeWhile_append_of_pos (by simpa using hne)]
    obtain ⟨k, hk⟩ := Nat.exists_eq_add_of_lt hpad
    have hzeros : oscPadded bs.length - bs.length = k + 1 := by omega
    rw [hzeros, List.replicate_succ, List.cons_append, List.takeWhile_cons_of_neg (by simp),
      List.append_nil]
  have hlen : (bs ++ List.replicate (oscPadded bs.length - bs.length) 0).length =
      oscPadded bs.length := by
    rw [List.length_append, List.length_replicate]
    omega
  unfold oscString
  simp only
  rw [htake, List.drop_left' hlen]

/-- The path and the format of a message. -/
theorem oscString_encode (evs : List MidiEvent) :
    oscString (MidiIn.encode plainWriter evs) =
        (MidiIn.midiPath, MidiIn.midiFmt evs.length ++ evs.flatMap MidiIn.toMidi) ∧
      oscString (MidiIn.midiFmt evs.length ++ evs.flatMap MidiIn.toMidi) =
        (',' :: List.replicate evs.length 'm', evs.flatMap MidiIn.toMidi) := by
  set N := evs.length with hN
  constructor
  · unfold MidiIn.encode
    rw [List.append_assoc]
    have hne : ∀ b ∈ ([47, 109, 105, 100, 105] : List UInt8), b ≠ 0 := by simp
    exact oscString_padded hne
  · have hletters : (44 :: List.replicate N 109 : List UInt8).length = N + 1 := by
      rw [List.length_cons, List.length_replicate]
    have hne : ∀ b ∈ (44 :: List.replicate N 109 : List UInt8), b ≠ 0 := by
      intro b hb
      rcases List.mem_cons.mp hb with rfl | hb
      · decide
      · rw [List.eq_of_mem_replicate hb]
        decide
    unfold MidiIn.midiFmt
    rw [← hletters, oscString_padded hne, List.map_cons, List.map_replicate]
    rfl

theorem plainWriter_faithful : plainWriter.Faithful OscReader.plain := by
  intro evs
  obtain ⟨hpath, hfmt⟩ := oscString_encode evs
  unfold OscReader.plain
  simp only [hpath, hfmt]
  rfl

/-- Two notes. -/
theorem bytes_survive_iff_notes :
    Survives plainWriter (Platform.plain 64 (LuaScript.pass 0)) 8 3 plainDecoder
      [MidiIn.note 3 60, MidiIn.note 3 64] := by
  refine (bytes_survive_iff 8 3 plainWriter_faithful _).mpr ?_
  rw [List.forall_mem_cons, List.forall_mem_singleton]
  exact ⟨rfl, rfl⟩

/-- A program change of two bytes. -/
def programChange : MidiEvent where
  time := 0
  buffer i := [0xc0, 5].getD i 0
  size := 2

/-- **A program change** is read beyond its end. -/
theorem programChange_lost :
    (MidiIn.scratch programChange fun _ => 0).reads = [0, 1, 2] ∧
      ¬ Survives plainWriter (Platform.plain 64 (LuaScript.pass 0)) 8 3 plainDecoder
        [programChange] := by
  refine ⟨rfl, ?_⟩
  intro h
  have hlast := (h.midiIn programChange List.mem_cons_self fun _ => 0).reads 2 (by decide)
  exact absurd hlast (by decide)

end Tjost
