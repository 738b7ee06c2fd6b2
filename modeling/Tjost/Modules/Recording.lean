import Tjost.Library.ByteMemory
import Tjost.Library.Transition
import Tjost.Pipe.Produce

/-!
# Recordings

The module `write` puts the events it gets into a file, and the module `read` puts
the events of such a file into its pipe. A file is a header and then, for every
event, its time and its size in network byte order and its bytes.

The loop of `read` (`_asio`) tests the end-of-file flag before it reads. The flag
is set by a read that finds too few bytes, so behind the last event there is one
iteration more, in which the variables for the time and the size keep whatever they
held and the buffer keeps the bytes of the last event. What an iteration has read
is only passed on if libosc accepts it as a message, and bundles are none. The loop
goes on while the pipe has room for more than `TJOST_BUF_SIZE` bytes, but an event
of that size also needs room for its header.

`Replay.machine` is this loop together with the drains of the pipe by the thread of
the host, which come at any time. `Replay.faithful_iff`: what has been produced is
at all times the events that have been read, and at the end of the file all of
them, if and only if every step of the run meets `Replay.Keeps`.
-/

open Transition ByteMemory

namespace Tjost

/-- The part of libosc that `read` uses: `osc_check_message`, on the bytes it is
given. -/
structure OscChecker where
  /-- A well-formed message. A bundle is none. -/
  IsMessage : List UInt8 → Prop
  checkMessage : List UInt8 → Bool
  accepts_iff : ∀ bs, checkMessage bs = true ↔ IsMessage bs

instance (C : OscChecker) (bs : List UInt8) : Decidable (C.IsMessage bs) :=
  decidable_of_iff _ (C.accepts_iff bs)

/-- An event of a recording: its time and its bytes. -/
abbrev Packet := NFrames × List UInt8

/-! ### Writing -/

namespace Write

/-- `_sched` of `mod_write.c`: three calls of `fwrite`. -/
def sched (p : Packet) (file : List UInt8) : List UInt8 :=
  let file := file ++ Bytes.toBE 4 p.1.toNat
  let file := file ++ Bytes.toBE 4 (UInt32.ofNat p.2.length).toNat
  file ++ p.2

/-- `"tjostbin"`. -/
def head : List UInt8 := [116, 106, 111, 115, 116, 98, 105, 110]

/-- What `add` of `mod_write.c` writes: the head and the sample rate. -/
def addHeader (srate : UInt32) : List UInt8 := head ++ Bytes.toBE 4 srate.toNat

/-- A file with these events. -/
def recording (srate : UInt32) (packets : List Packet) : List UInt8 :=
  packets.foldl (fun file p => sched p file) (addHeader srate)

/-- The bytes of one event in the file. -/
def encode (p : Packet) : List UInt8 :=
  Bytes.toBE 4 p.1.toNat ++ Bytes.toBE 4 (UInt32.ofNat p.2.length).toNat ++ p.2

theorem sched_eq (p : Packet) (file : List UInt8) : sched p file = file ++ encode p := by
  unfold sched encode
  rw [List.append_assoc, List.append_assoc, List.append_assoc]

theorem recording_eq (srate : UInt32) (packets : List Packet) :
    recording srate packets = addHeader srate ++ packets.flatMap encode := by
  have hfold : ∀ file, packets.foldl (fun file p => sched p file) file =
      file ++ packets.flatMap encode := by
    induction packets with
    | nil =>
      intro file
      exact (List.append_nil file).symm
    | cons p packets ih =>
      intro file
      rw [List.foldl_cons, ih, sched_eq, List.flatMap_cons, List.append_assoc]
  exact hfold (addHeader srate)

end Write

/-! ### Reading -/

/-- What `add` of `mod_read.c` leaves of a file: the bytes behind the header, if the
head is right. -/
def Read.addHeader (file : List UInt8) : Option (List UInt8) :=
  let head := file.take 8
  let file := file.drop 8
  -- the sample rate is read and not used
  let file := file.drop 4
  if head = Write.head then some file else none

/-- The header that `write` writes is the one that `read` asks for. -/
theorem Read.addHeader_recording (srate : UInt32) (packets : List Packet) :
    Read.addHeader (Write.recording srate packets) = some (packets.flatMap Write.encode) := by
  have hsrate : (Bytes.toBE 4 srate.toNat ++ packets.flatMap Write.encode).drop 4 =
      packets.flatMap Write.encode := List.drop_left' (Bytes.length_toBE 4 _)
  have hlen : Write.head.length = 8 := rfl
  unfold Read.addHeader
  rw [Write.recording_eq, Write.addHeader, List.append_assoc]
  simp only
  rw [List.take_left' hlen, List.drop_left' hlen, if_pos rfl, hsrate]

/-- Where `_asio` is. -/
inductive ReplayPc
  | idle
  /-- Before the test of the loop. -/
  | test
  /-- In the body of the loop. -/
  | body
  deriving DecidableEq, Repr

/-- The module `read`. -/
structure Replay (ρ : Type) where
  /-- The bytes of the file that have not been read. -/
  file : List UInt8
  /-- `feof(dat->f)`. -/
  eof : Bool
  /-- The memory from `dat->buffer` on. -/
  buffer : ByteMemory.Memory
  pipe : ρ
  pc : ReplayPc
  /-- Ghost: the events of the calls of `tjost_pipe_produce` that returned `0`. -/
  produced : List Packet
  /-- Ghost: the iterations that have read an event. -/
  taken : ℕ

namespace Replay

/-- `fread(&word, sizeof(uint32_t), 1, dat->f)` and `ntohl`, with what the variable
is behind `ntohl` if there is no word to read. Also answers whether the flag is set. -/
def freadWord (old : UInt32) (file : List UInt8) : UInt32 × List UInt8 × Bool :=
  if 4 ≤ file.length then (UInt32.ofNat (Bytes.ofBE (file.take 4)), file.drop 4, false)
  else (old, [], true)

variable {ρ : Type} (R : ByteRing ρ ringbufSize) (C : OscChecker) (stale : Stale)
  (module : ModulePtr)

/-- The body of the loop in `_asio`. `oldTime` and `oldSize` are the values that
`ntime` and `nsize` have behind `ntohl` without a read. -/
def body (oldTime oldSize : UInt32) (s : Replay ρ) : Replay ρ :=
  let (ntime, file, eof₁) := freadWord oldTime s.file
  let (nsize, file, eof₂) := freadWord oldSize file
  let size := nsize.toNat
  let buffer := write s.buffer 0 (file.take size)
  let eof := s.eof || eof₁ || eof₂ || decide (file.length < size)
  let taken := if s.file = [] then s.taken else s.taken + 1
  let s := { s with file := file.drop size, eof, buffer, pc := .test, taken }
  let buf := read buffer 0 size
  if C.checkMessage buf then
    let (pipe, err) := pipeProduce R stale s.pipe module ntime buf
    { s with pipe, produced := if err = 0 then s.produced ++ [(ntime, buf)] else s.produced }
  else s

inductive Label
  /-- `_asio` is called. -/
  | asio
  | test
  | body (oldTime oldSize : UInt32)
  /-- The thread of the host takes bytes off the pipe. -/
  | drain (n : ℕ)
  deriving DecidableEq, Repr

def Enabled (s : Replay ρ) : Label → Prop
  | .asio => s.pc = .idle
  | .test => s.pc = .test
  | .body _ _ => s.pc = .body
  | .drain n => n ≤ R.readSpace s.pipe

instance (s : Replay ρ) : ∀ l, Decidable (s.Enabled R l)
  | .asio | .test | .body _ _ => inferInstanceAs (Decidable (_ = _))
  | .drain _ => inferInstanceAs (Decidable (_ ≤ _))

/-- What an enabled step does. -/
def next (s : Replay ρ) : Label → Replay ρ
  | .asio => { s with pc := .test }
  | .test =>
    { s with pc := if s.eof = false ∧ bufSize < R.writeSpace s.pipe then .body else .idle }
  | .body oldTime oldSize => s.body R C stale module oldTime oldSize
  | .drain n => { s with pipe := (R.read s.pipe n).1 }

/-- The file of a recording has been opened. -/
def Init (packets : List Packet) (s : Replay ρ) : Prop :=
  (∃ srate, Read.addHeader (Write.recording srate packets) = some s.file) ∧ s.eof = false ∧
    R.contents s.pipe = [] ∧ s.pc = .idle ∧ s.produced = [] ∧ s.taken = 0

def machine (packets : List Packet) : Machine (Replay ρ) Label where
  init := Init R packets
  step s l := if s.Enabled R l then some (s.next R C stale module l) else none

/-- There is room for an event of that size in the pipe. -/
def Room (s : Replay ρ) (size : ℕ) : Prop := sizeofEvent + size ≤ R.writeSpace s.pipe

instance (s : Replay ρ) (size : ℕ) : Decidable (s.Room R size) :=
  inferInstanceAs (Decidable (_ ≤ _))

/-- **The condition on an iteration.** The event that it reads is a message, and the
pipe has room for it. Behind the last event, what is left in the buffer is not
accepted at the size that is left in `nsize`, or the pipe has no room for that. -/
def Keeps (packets : List Packet) (s : Replay ρ) : Label → Prop
  | .body _ oldSize =>
    match packets[s.taken]? with
    | some p => C.IsMessage p.2 ∧ s.Room R p.2.length
    | none => ¬ (C.IsMessage (read s.buffer 0 oldSize.toNat) ∧ s.Room R oldSize.toNat)
  | _ => True

/-- **A faithful replay so far.** The events produced are the events read, and at the
end of the file all of them. -/
structure Faithful (packets : List Packet) (s : Replay ρ) : Prop where
  produced : s.produced = packets.take s.taken
  complete : s.eof = true → s.produced = packets

/-- How far the file has been read. -/
structure Reads (packets : List Packet) (s : Replay ρ) : Prop where
  taken_le : s.taken ≤ packets.length
  file : s.file = (packets.drop s.taken).flatMap Write.encode
  eof : s.eof = true → s.taken = packets.length

section Body

variable {R C stale module} {packets : List Packet} {s s' : Replay ρ} {l : Label}

theorem freadWord_append (old x : UInt32) (rest : List UInt8) :
    freadWord old (Bytes.toBE 4 x.toNat ++ rest) = (x, rest, false) := by
  have hlen : (Bytes.toBE 4 x.toNat).length = 4 := Bytes.length_toBE 4 _
  have hword : UInt32.ofNat (Bytes.ofBE (Bytes.toBE 4 x.toNat)) = x := by
    rw [Bytes.ofBE_toBE, Nat.mod_eq_of_lt (by simpa using x.toNat_lt), UInt32.ofNat_toNat]
  unfold freadWord
  rw [if_pos (by rw [List.length_append, hlen]; omega), List.take_left' hlen,
    List.drop_left' hlen, hword]

/-- `tjost_pipe_produce` answers `0` exactly where there is room. -/
theorem pipeProduce_eq_zero_iff (time : NFrames) (buf : List UInt8) :
    (pipeProduce R stale s.pipe module time buf).2 = 0 ↔ s.Room R buf.length := by
  by_cases hfit : sizeofEvent + buf.length ≤ R.writeSpace s.pipe
  · exact iff_of_true (pipeProduce_of_fits stale module time hfit).1 hfit
  · rw [pipeProduce_of_full (Nat.lt_of_not_le hfit)]
    exact iff_of_false (fun hneg => nomatch hneg) hfit

variable (R C stale module) in
/-- What the iteration makes of the bytes it has: it appends them if they are a
message and the pipe has room. -/
theorem produced_eq (t : Replay ρ) (time : NFrames) (buf : List UInt8) :
    (if C.checkMessage buf then
        { t with
          pipe := (pipeProduce R stale t.pipe module time buf).1
          produced := if (pipeProduce R stale t.pipe module time buf).2 = 0 then
            t.produced ++ [(time, buf)] else t.produced }
      else t).produced =
      if C.IsMessage buf ∧ t.Room R buf.length then t.produced ++ [(time, buf)]
      else t.produced := by
  by_cases hcheck : C.checkMessage buf = true
  · rw [if_pos hcheck]
    simp only [pipeProduce_eq_zero_iff, (C.accepts_iff buf).mp hcheck, true_and]
  · have hnot : ¬ C.IsMessage buf := fun h => hcheck ((C.accepts_iff buf).mpr h)
    rw [if_neg hcheck, if_neg fun h => hnot h.1]

variable (R C stale module) in
/-- The rest of the iteration leaves what has been read. -/
theorem frame_eq (t : Replay ρ) (time : NFrames) (buf : List UInt8) :
    let t' := if C.checkMessage buf then
        { t with
          pipe := (pipeProduce R stale t.pipe module time buf).1
          produced := if (pipeProduce R stale t.pipe module time buf).2 = 0 then
            t.produced ++ [(time, buf)] else t.produced }
      else t
    t'.file = t.file ∧ t'.eof = t.eof ∧ t'.taken = t.taken := by
  split
  · exact ⟨rfl, rfl, rfl⟩
  · exact ⟨rfl, rfl, rfl⟩

variable (stale module) in
/-- The iteration that finds an event, behind its reads. -/
theorem body_packet_eq {p : Packet} {rest : List UInt8} (hfile : s.file = Write.encode p ++ rest)
    (hsize : p.2.length ≤ bufSize) (oldTime oldSize : UInt32) :
    let t : Replay ρ := { s with
      file := rest, buffer := write s.buffer 0 p.2, pc := .test, taken := s.taken + 1 }
    s.body R C stale module oldTime oldSize =
      if C.checkMessage p.2 then
        { t with
          pipe := (pipeProduce R stale t.pipe module p.1 p.2).1
          produced := if (pipeProduce R stale t.pipe module p.1 p.2).2 = 0 then
            t.produced ++ [p] else t.produced }
      else t := by
  obtain ⟨time, buf⟩ := p
  have hlen : (UInt32.ofNat buf.length).toNat = buf.length := by
    have hbuf : bufSize < 2 ^ 32 := by decide
    rw [UInt32.toNat_ofNat']
    exact Nat.mod_eq_of_lt (lt_of_le_of_lt hsize hbuf)
  have hne : s.file ≠ [] := by
    intro hnil
    have hzero := congrArg List.length (hfile.symm.trans hnil)
    simp only [Write.encode, List.length_append, Bytes.length_toBE, List.length_nil] at hzero
    omega
  -- the two words, and the bytes behind them
  have htime : freadWord oldTime s.file =
      (time, Bytes.toBE 4 (UInt32.ofNat buf.length).toNat ++ (buf ++ rest), false) := by
    rw [hfile, Write.encode, List.append_assoc, List.append_assoc, freadWord_append]
  have hsecond := freadWord_append oldSize (UInt32.ofNat buf.length) (buf ++ rest)
  have hread : read (write s.buffer 0 buf) 0 buf.length = buf := read_write s.buffer 0 buf
  have hfits : ¬ (buf ++ rest).length < buf.length := by
    rw [List.length_append]
    omega
  unfold body
  simp only [htime, hsecond]
  simp only [hlen, List.take_left, List.drop_left, hread, hfits, decide_false, Bool.or_false,
    if_neg hne]

variable (R C stale module) in
/-- **An iteration that finds an event.** -/
theorem body_packet {p : Packet} {rest : List UInt8} (hfile : s.file = Write.encode p ++ rest)
    (hsize : p.2.length ≤ bufSize) (oldTime oldSize : UInt32) :
    let t := s.body R C stale module oldTime oldSize
    t.file = rest ∧ t.eof = s.eof ∧ t.taken = s.taken + 1 ∧
      t.produced = if C.IsMessage p.2 ∧ s.Room R p.2.length then s.produced ++ [p]
        else s.produced := by
  obtain ⟨time, buf⟩ := p
  set t : Replay ρ := { s with
    file := rest, buffer := write s.buffer 0 buf, pc := .test, taken := s.taken + 1 } with ht
  have hbody := body_packet_eq (R := R) (C := C) stale module hfile hsize oldTime oldSize
  obtain ⟨hfile', heof', htaken'⟩ := frame_eq R C stale module t time buf
  show _ ∧ _ ∧ _ ∧ _
  rw [hbody]
  exact ⟨hfile', heof', htaken', produced_eq R C stale module t time buf⟩

variable (R C stale module) in
/-- **The iteration behind the last event.** -/
theorem body_end (hfile : s.file = []) (oldTime oldSize : UInt32) :
    let t := s.body R C stale module oldTime oldSize
    t.file = [] ∧ t.eof = true ∧ t.taken = s.taken ∧
      t.produced = if C.IsMessage (read s.buffer 0 oldSize.toNat) ∧ s.Room R oldSize.toNat then
        s.produced ++ [(oldTime, read s.buffer 0 oldSize.toNat)] else s.produced := by
  have hword : ∀ old, freadWord old [] = (old, [], true) := fun _ => rfl
  set t : Replay ρ := { s with file := [], eof := true, pc := .test } with ht
  have hbody : s.body R C stale module oldTime oldSize =
      if C.checkMessage (read s.buffer 0 oldSize.toNat) then
        { t with
          pipe := (pipeProduce R stale t.pipe module oldTime (read s.buffer 0 oldSize.toNat)).1
          produced :=
            if (pipeProduce R stale t.pipe module oldTime (read s.buffer 0 oldSize.toNat)).2 = 0
            then t.produced ++ [(oldTime, read s.buffer 0 oldSize.toNat)] else t.produced }
      else t := by
    unfold body
    rw [hfile, hword]
    simp only [hword, List.take_nil, List.drop_nil, write_nil, Bool.or_true, Bool.true_or, if_true]
    rfl
  obtain ⟨hfile', heof', htaken'⟩ :=
    frame_eq R C stale module t oldTime (read s.buffer 0 oldSize.toNat)
  have hproduced := produced_eq R C stale module t oldTime
    (read s.buffer 0 oldSize.toNat)
  rw [length_read] at hproduced
  show _ ∧ _ ∧ _ ∧ _
  rw [hbody]
  exact ⟨hfile', heof', htaken', hproduced⟩

theorem Reads.next_packet (h : Reads packets s) {p : Packet} (hp : packets[s.taken]? = some p) :
    s.file = Write.encode p ++ (packets.drop (s.taken + 1)).flatMap Write.encode := by
  obtain ⟨hlt, hget⟩ := List.getElem?_eq_some_iff.mp hp
  rw [h.file, List.drop_eq_getElem_cons hlt, hget, List.flatMap_cons]

theorem Reads.next_none (h : Reads packets s) (hnone : packets[s.taken]? = none) :
    s.taken = packets.length ∧ s.file = [] := by
  have hlen : s.taken = packets.length :=
    Nat.le_antisymm h.taken_le (List.getElem?_eq_none_iff.mp hnone)
  refine ⟨hlen, ?_⟩
  rw [h.file, hlen, List.drop_length, List.flatMap_nil]

theorem init_reads (h : Init R packets s) : Reads packets s := by
  obtain ⟨⟨srate, hfile⟩, heof, -, -, -, htaken⟩ := h
  rw [Read.addHeader_recording] at hfile
  refine ⟨?_, ?_, ?_⟩
  · rw [htaken]
    exact Nat.zero_le _
  · rw [htaken, List.drop_zero]
    exact (Option.some.inj hfile).symm
  · rw [heof]
    exact fun h => nomatch h

theorem init_faithful (h : Init R packets s) : Faithful packets s := by
  obtain ⟨-, heof, -, -, hproduced, htaken⟩ := h
  refine ⟨?_, ?_⟩
  · rw [hproduced, htaken, List.take_zero]
  · rw [heof]
    exact fun h => nomatch h

/-- Every iteration reads one event, or sets the flag behind the last one. -/
theorem Reads.next (hsize : ∀ p ∈ packets, p.2.length ≤ bufSize) (h : Reads packets s) :
    Reads packets (s.next R C stale module l) := by
  cases l with
  | asio => exact ⟨h.taken_le, h.file, h.eof⟩
  | test => exact ⟨h.taken_le, h.file, h.eof⟩
  | drain n => exact ⟨h.taken_le, h.file, h.eof⟩
  | body oldTime oldSize =>
    cases hp : packets[s.taken]? with
    | some p =>
      obtain ⟨hlt, hget⟩ := List.getElem?_eq_some_iff.mp hp
      have hmem : p ∈ packets := hget ▸ List.getElem_mem hlt
      obtain ⟨hfile, heof, htaken, -⟩ :=
        body_packet R C stale module (h.next_packet hp) (hsize p hmem) oldTime oldSize
      refine ⟨?_, ?_, ?_⟩
      · exact htaken.trans_le hlt
      · exact hfile.trans (by rw [← htaken]; rfl)
      · intro hend
        have hlast := h.eof (heof ▸ hend)
        omega
    | none =>
      -- nothing is left to read, and the flag is set by this iteration
      obtain ⟨hlen, hfile⟩ := h.next_none hp
      obtain ⟨hfile', heof', htaken', -⟩ := body_end R C stale module hfile oldTime oldSize
      refine ⟨?_, ?_, ?_⟩
      · exact htaken'.trans_le h.taken_le
      · show (s.body R C stale module oldTime oldSize).file =
          (packets.drop (s.body R C stale module oldTime oldSize).taken).flatMap Write.encode
        rw [hfile', htaken', hlen, List.drop_length, List.flatMap_nil]
      · exact fun _ => htaken'.trans hlen

/-- **An iteration keeps the replay faithful** if and only if it meets the
condition. -/
theorem Faithful.body_iff (hsize : ∀ p ∈ packets, p.2.length ≤ bufSize) (h : Reads packets s)
    (hi : Faithful packets s) (oldTime oldSize : UInt32) :
    Faithful packets (s.body R C stale module oldTime oldSize) ↔
      s.Keeps R C packets (.body oldTime oldSize) := by
  unfold Keeps
  cases hp : packets[s.taken]? with
  | some p =>
    obtain ⟨hlt, hget⟩ := List.getElem?_eq_some_iff.mp hp
    have hmem : p ∈ packets := hget ▸ List.getElem_mem hlt
    obtain ⟨-, heof, htaken, hproduced⟩ :=
      body_packet R C stale module (h.next_packet hp) (hsize p hmem) oldTime oldSize
    have htake : packets.take (s.taken + 1) = packets.take s.taken ++ [p] := by
      rw [List.take_add_one, hp]
      rfl
    have hnot : ¬ (s.body R C stale module oldTime oldSize).eof = true := by
      intro hend
      have hlast := h.eof (heof ▸ hend)
      omega
    constructor
    · -- an event that is not produced is missing from here on
      intro hnext
      by_contra hfails
      have heq := hnext.produced
      rw [hproduced, if_neg hfails, htaken, htake, hi.produced] at heq
      have hlen := congrArg List.length heq
      rw [List.length_append, List.length_singleton] at hlen
      omega
    · intro hkeeps
      refine ⟨?_, fun hend => absurd hend hnot⟩
      rw [hproduced, if_pos hkeeps, htaken, htake, hi.produced]
  | none =>
    obtain ⟨hlen, hfile⟩ := h.next_none hp
    obtain ⟨-, -, htaken, hproduced⟩ := body_end R C stale module hfile oldTime oldSize
    have hall : s.produced = packets := by rw [hi.produced, hlen, List.take_length]
    constructor
    · -- what is produced behind the last event is one too many
      intro hnext hspurious
      have heq := hnext.produced
      rw [hproduced, if_pos hspurious, htaken, ← hi.produced] at heq
      have hcount := congrArg List.length heq
      rw [List.length_append, List.length_singleton] at hcount
      omega
    · intro hkeeps
      refine ⟨?_, fun _ => ?_⟩
      · rw [hproduced, if_neg hkeeps, htaken, hi.produced]
      · rw [hproduced, if_neg hkeeps, hall]

theorem step_eq_some : (machine R C stale module packets).step s l = some s' ↔
    s.Enabled R l ∧ s' = s.next R C stale module l := by
  show (if s.Enabled R l then some (s.next R C stale module l) else none) = some s' ↔ _
  split
  · next he => simp [he, eq_comm]
  · next he => simp [he]

/-- **When a replay is faithful.** -/
theorem faithful_iff {s₀ : Replay ρ} {ls : List Label}
    (hsize : ∀ p ∈ packets, p.2.length ≤ bufSize)
    (h₀ : (machine R C stale module packets).init s₀)
    (hrun : (machine R C stale module packets).exec s₀ ls = some s) :
    (∀ ls' t, ls' <+: ls → (machine R C stale module packets).exec s₀ ls' = some t →
        Faithful packets t) ↔
      (machine R C stale module packets).Meets (Keeps R C packets) s₀ ls := by
  refine Machine.meets_iff (S := Reads packets) ?_ ?_ (init_reads h₀) (init_faithful h₀) hrun
  · intro s l s' h hstep
    obtain ⟨-, rfl⟩ := step_eq_some.mp hstep
    exact h.next hsize
  · intro s l s' h hi hstep
    obtain ⟨-, rfl⟩ := step_eq_some.mp hstep
    cases l with
    | asio => exact iff_of_true ⟨hi.produced, hi.complete⟩ trivial
    | test => exact iff_of_true ⟨hi.produced, hi.complete⟩ trivial
    | drain n => exact iff_of_true ⟨hi.produced, hi.complete⟩ trivial
    | body oldTime oldSize => exact hi.body_iff hsize h oldTime oldSize

/-! ### The end of the file is reached -/

theorem body_pc (oldTime oldSize : UInt32) :
    (s.body R C stale module oldTime oldSize).pc = .test := by
  unfold body
  simp only
  split
  · rfl
  · rfl

variable (R C stale module packets) in
/-- The loop that has come to a full pipe goes on when the pipe has been drained. -/
theorem drained_step (hpc : s.pc = .test) (heof : s.eof = false) (oldTime oldSize : UInt32) :
    ∃ t : Replay ρ, (machine R C stale module packets).exec s
        [.drain (R.readSpace s.pipe), .test, .body oldTime oldSize] =
          some (t.body R C stale module oldTime oldSize) ∧
      t.file = s.file ∧ t.taken = s.taken ∧ t.eof = false := by
  set pipe := (R.read s.pipe (R.readSpace s.pipe)).1 with hpipe
  have hempty : R.contents pipe = [] := by
    rw [hpipe, R.contents_read, R.readSpace_eq, List.drop_length]
  have hspace : bufSize < R.writeSpace pipe := by
    rw [R.writeSpace_eq, hempty]
    decide
  have hdrain : (machine R C stale module packets).step s (.drain (R.readSpace s.pipe)) =
      some { s with pipe } := step_eq_some.mpr ⟨Nat.le_refl _, rfl⟩
  have htest : (machine R C stale module packets).step { s with pipe } .test =
      some { s with pipe, pc := .body } := by
    refine step_eq_some.mpr ⟨hpc, ?_⟩
    show _ = ({ s with pipe, pc := _ } : Replay ρ)
    rw [if_pos ⟨heof, hspace⟩]
  refine ⟨{ s with pipe, pc := .body }, ?_, rfl, rfl, heof⟩
  refine Machine.exec_cons_eq_some.mpr ⟨_, hdrain, Machine.exec_cons_eq_some.mpr ⟨_, htest, ?_⟩⟩
  exact Machine.exec_cons_eq_some.mpr ⟨_, step_eq_some.mpr ⟨rfl, rfl⟩, rfl⟩

/-- **The end of the file is reached**, if the pipe is drained as often as it takes. -/
theorem reaches_end (hsize : ∀ p ∈ packets, p.2.length ≤ bufSize) (h : Reads packets s)
    (hpc : s.pc = .test) (heof : s.eof = false) :
    ∃ ls t, (machine R C stale module packets).exec s ls = some t ∧ t.eof = true := by
  -- by the number of events left: each needs a drained pipe, a test and an iteration
  induction hn : packets.length - s.taken generalizing s with
  | zero =>
    obtain ⟨t, hrun, hfile, -, -⟩ := drained_step R C stale module packets hpc heof 0 0
    have hnone : packets[s.taken]? = none := List.getElem?_eq_none (by omega)
    obtain ⟨-, hend⟩ := h.next_none hnone
    obtain ⟨-, heof', -⟩ := body_end R C stale module (hfile.trans hend) 0 0
    exact ⟨_, _, hrun, heof'⟩
  | succ n ih =>
    obtain ⟨t, hrun, hfile, htaken, hopen⟩ := drained_step R C stale module packets hpc heof 0 0
    have hlt : s.taken < packets.length := by omega
    have hp : packets[s.taken]? = some packets[s.taken] := List.getElem?_eq_getElem hlt
    have hmem : packets[s.taken] ∈ packets := List.getElem_mem hlt
    obtain ⟨hfile', heof', htaken', -⟩ :=
      body_packet R C stale module (hfile.trans (h.next_packet hp)) (hsize _ hmem) 0 0
    set t' := t.body R C stale module 0 0 with ht'
    have hreads : Reads packets t' := by
      refine ⟨?_, ?_, ?_⟩
      · rw [htaken', htaken]
        exact hlt
      · rw [hfile', htaken', htaken]
      · rw [heof', hopen]
        exact fun h => nomatch h
    obtain ⟨ls, u, hrest, hend⟩ := ih hreads (body_pc 0 0) (heof'.trans hopen)
      (by rw [htaken', htaken]; omega)
    refine ⟨[.drain (R.readSpace s.pipe), .test, .body 0 0] ++ ls, u, ?_, hend⟩
    rw [Machine.exec_append, hrun]
    exact hrest

end Body

-- by the events, not by all the byte strings there are
instance decidableKeeps (packets : List Packet) (s : Replay ρ) :
    ∀ l, Decidable (s.Keeps R C packets l)
  | .body _ oldSize =>
    match h : packets[s.taken]? with
    | some p =>
      decidable_of_iff (C.IsMessage p.2 ∧ s.Room R p.2.length) (by unfold Keeps; rw [h])
    | none =>
      decidable_of_iff
        (¬ (C.IsMessage (read s.buffer 0 oldSize.toNat) ∧ s.Room R oldSize.toNat))
        (by unfold Keeps; rw [h])
  | .asio | .test | .drain _ => isTrue trivial

/-- A checker of packets that hold one message. -/
def plainChecker : OscChecker where
  IsMessage bs := (OscReader.plain.messages bs).length = 1 ∧ bs.length % 4 = 0
  checkMessage bs := (OscReader.plain.messages bs).length = 1 ∧ bs.length % 4 = 0
  accepts_iff _ := decide_eq_true_iff

/-- The module after `add`, on a file with these events. -/
def start (packets : List Packet) : Replay (ByteRing.Fifo ringbufSize) where
  file := packets.flatMap Write.encode
  eof := false
  buffer _ := 0
  pipe := ByteRing.Fifo.empty ringbufSize ringbufSize_pos
  pc := .idle
  produced := []
  taken := 0

theorem start_init (packets : List Packet) :
    Init (ByteRing.fifo ringbufSize) packets (start packets) :=
  ⟨⟨48000, Read.addHeader_recording 48000 packets⟩, rfl, rfl, rfl, rfl, rfl⟩

/-- The machine on these events. -/
abbrev plain (packets : List Packet) :=
  machine (ByteRing.fifo ringbufSize) plainChecker ⟨0, 0, 0, 0⟩ 1 packets

/-- Two messages, `/a` and `/b`. -/
def messages : List Packet :=
  [(10, [47, 97, 0, 0, 44, 0, 0, 0]), (20, [47, 98, 0, 0, 44, 0, 0, 0])]

/-- The whole file is read, with a drain in between. -/
def wholeRun : List Label :=
  [.asio, .test, .body 0 0, .drain 56, .test, .body 0 0, .test, .body 0 0, .test]

theorem faithful_iff_start :
    ∃ s, (plain messages).exec (start messages) wholeRun = some s ∧ s.eof = true ∧
      ∀ ls' t, ls' <+: wholeRun → (plain messages).exec (start messages) ls' = some t →
        Faithful messages t := by
  have hkeeps : (plain messages).Meets (Keeps (ByteRing.fifo ringbufSize) plainChecker messages)
      (start messages) wholeRun := by
    decide +kernel
  have hrun : ((plain messages).exec (start messages) wholeRun).map eof = some true := by
    decide +kernel
  obtain ⟨s, hs, heof⟩ := Option.map_eq_some_iff.mp hrun
  exact ⟨s, hs, heof, (faithful_iff (by decide) (start_init messages) hs).mpr hkeeps⟩

/-- The bundle with the message `/a`, for immediate execution. -/
def bundlePacket : List Packet :=
  [(10, [35, 98, 117, 110, 100, 108, 101, 0, 0, 0, 0, 0, 0, 0, 0, 1,
    0, 0, 0, 8, 47, 97, 0, 0, 44, 0, 0, 0])]

/-- **A bundle** is read, and not produced. -/
theorem bundle_lost :
    ∃ s, (plain bundlePacket).exec (start bundlePacket)
        [.asio, .test, .body 0 0, .test, .body 0 0, .test] = some s ∧
      s.eof = true ∧ s.produced = [] ∧ ¬ Faithful bundlePacket s := by
  have hrun : ((plain bundlePacket).exec (start bundlePacket)
      [.asio, .test, .body 0 0, .test, .body 0 0, .test]).map (fun s => (s.eof, s.produced)) =
        some (true, []) := by
    decide +kernel
  obtain ⟨s, hs, hobserved⟩ := Option.map_eq_some_iff.mp hrun
  obtain ⟨heof, hproduced⟩ := Prod.mk.inj hobserved
  refine ⟨s, hs, heof, hproduced, ?_⟩
  intro hfaithful
  have hall := hfaithful.complete heof
  rw [hproduced] at hall
  exact nomatch hall

end Replay

end Tjost
