import Mathlib.Data.List.Dedup
import Tjost.Library.ByteMemory
import Tjost.Modules.ControlVoltage

/-!
# MIDI inputs

`process_in` of `mod_midi_in.c` collects the events of its port buffer in groups and
schedules a `/midi` message for every group. A group ends before an event that is later
than the one in front of the group, and the message gets the time of that event. The last
event of the buffer always goes to the group in front of it.

`MidiIn.loop` is this loop, and `MidiIn.fill_eq` says what it writes into the block of a
message. `MidiIn.grouped_iff`: there is one message for every offset, at its own time and
with exactly its events, if and only if all events have the same offset.
-/

open ByteMemory

namespace Tjost

/-- The part of libosc that the MIDI inputs use. -/
structure MidiWriter extends OscWriter where
  /-- `osc_strlen`. -/
  strlen : List Char → ℕ
  /-- `osc_padded_size`. -/
  paddedSize : ℕ → ℕ
  setMidi : List UInt8 → List UInt8
  strlen_eq : ∀ s, strlen s = oscPadded s.length
  paddedSize_eq : ∀ n, paddedSize n = (n + 3) / 4 * 4
  setMidi_eq : ∀ m, m.length = 4 → setMidi m = m

/-- A writer that goes with `OscReader.plain`. -/
def plainWriter : MidiWriter where
  toOscWriter := OscWriter.plain
  strlen s := oscPadded s.length
  paddedSize n := (n + 3) / 4 * 4
  setMidi m := m
  strlen_eq _ := rfl
  paddedSize_eq _ := rfl
  setMidi_eq _ _ := rfl

/-- A `jack_midi_event_t`: its frame offset, the memory from its `buffer` on and its size. -/
structure MidiEvent where
  time : NFrames
  buffer : ByteMemory.Memory
  size : ℕ

/-- A scratch buffer that is filled from a message, with the accesses that have been made:
the offsets read in the message and those written in the buffer. -/
structure Scratch where
  m : ByteMemory.Memory
  reads : List ℕ
  writes : List ℕ

/-- `m[i] = message[j]`. -/
def Scratch.assign (message : ByteMemory.Memory) (s : Scratch) (i j : ℕ) : Scratch :=
  ⟨write s.m i [message j], s.reads ++ [j], s.writes ++ [i]⟩

/-- `uint8_t m [4] = {0x0}`, and what has been behind it. -/
def Scratch.zero (behind : ByteMemory.Memory) : Scratch := ⟨write behind 0 [0, 0, 0, 0], [], []⟩

/-- `m[1]` to `m[3]` from the first three bytes of a message, whatever its size. -/
def Scratch.ofMessage (message behind : ByteMemory.Memory) : Scratch :=
  (((Scratch.zero behind).assign message 1 0).assign message 2 1).assign message 3 2

/-- A block from `tjost_host_schedule_inline` that has been written up to `ptr`. -/
structure InlineBlock where
  mem : ByteMemory.Memory
  ptr : ℕ

def InlineBlock.set (b : InlineBlock) (bs : List UInt8) : InlineBlock :=
  ⟨write b.mem b.ptr bs, b.ptr + bs.length⟩

namespace MidiIn

/-- `midi_path`. -/
def midiPath : List Char := ['/', 'm', 'i', 'd', 'i']

/-- `m`, which is made from `mev.buffer`. -/
def scratch (mev : MidiEvent) (behind : ByteMemory.Memory) : Scratch :=
  Scratch.ofMessage mev.buffer behind

/-- The argument of an event. -/
def toMidi (mev : MidiEvent) : List UInt8 := read (scratch mev fun _ => 0).m 0 4

/-- `while((fmt_ptr - fmt) % 4) *fmt_ptr++ = '\0'`, at most `k` times. -/
def padFmt (fmt : ℕ) : ℕ → InlineBlock → InlineBlock
  | 0, b => b
  | k + 1, b => if (b.ptr - fmt) % 4 = 0 then b else padFmt fmt k (b.set [0])

/-- The format, of `N` letters. -/
def setFmt (N : ℕ) (b : InlineBlock) : InlineBlock :=
  let fmt := b.ptr
  let b := b.set [44]
  let b := b.set (List.replicate N 109)
  let b := b.set [0]
  padFmt fmt 3 b

variable (W : MidiWriter)

/-- The length of the block of `N` events. -/
def len (N : ℕ) : ℕ := W.strlen midiPath + W.paddedSize (N + 2) + N * 4

/-- What is written into the block of a group, which holds any bytes before. -/
def fill (evs : List MidiEvent) (fresh : ByteMemory.Memory) : InlineBlock :=
  let b : InlineBlock := ⟨fresh, 0⟩
  let b := b.set (W.setPath midiPath)
  let b := setFmt evs.length b
  evs.foldl (fun b mev => b.set (W.setMidi (toMidi mev))) b

/-- The bytes of the event that is scheduled for a group. -/
def message (evs : List MidiEvent) (fresh : ByteMemory.Memory) : List UInt8 :=
  read (fill W evs fresh).mem 0 (len W evs.length)

variable (m : ModulePtr) (last : NFrames) (fresh : ℕ → ByteMemory.Memory) (events : List MidiEvent)

/-- The loop from the event `i` on, as its calls of `tjost_host_schedule_inline`.
`fresh i` is what a block holds that is allocated in the iteration `i`. -/
def loop : List MidiEvent → ℕ → ℕ → NFrames → List SchedCall
  | [], _, _, _ => []
  | mev :: rest, i, lastI, lastTime =>
    let lastI := if i = 0 then i else lastI
    let lastTime := if i = 0 then mev.time else lastTime
    if lastTime < mev.time ∨ rest = [] then
      -- at the last event the index is bumped, so that the group takes it in
      let j := if rest = [] then i + 1 else i
      let group := (events.drop lastI).take (j - lastI)
      -- the inner loop leaves the last event of the group in `mev`
      let mev' := group.getLast?.getD mev
      ⟨true, m, mev.time + last, message W group (fresh i)⟩ :: loop rest (i + 1) j mev'.time
    else loop rest (i + 1) lastI lastTime

/-- The calls of `process_in`. The variables are not initialised. -/
def calls (lastI : ℕ) (lastTime : NFrames) : List SchedCall :=
  loop W m last fresh events events 0 lastI lastTime

/-- `process_in`, on a port that has been registered. -/
def processIn {ρ σ : Type} (P : Platform ρ σ) (port : Option (List MidiEvent)) (lastI : ℕ)
    (lastTime : NFrames) (h : Host ρ σ) : Host ρ σ :=
  match port with
  | none => h
  | some events => receive P (calls W m last fresh events lastI lastTime) h

/-! ### The bytes of a message -/

/-- A format of `N` letters, with its padding. -/
def midiFmt (N : ℕ) : List UInt8 :=
  44 :: List.replicate N 109 ++ List.replicate (oscPadded (N + 1) - (N + 1)) 0

/-- The message with the path `/midi` and these events. -/
def encode (evs : List MidiEvent) : List UInt8 :=
  W.setPath midiPath ++ midiFmt evs.length ++ evs.flatMap toMidi

section Bytes

variable {W}

theorem InlineBlock.set_set (b : InlineBlock) (as bs : List UInt8) :
    (b.set as).set bs = b.set (as ++ bs) := by
  unfold InlineBlock.set
  rw [write_append, List.length_append, Nat.add_assoc]

theorem InlineBlock.set_nil (b : InlineBlock) : b.set [] = b := by
  unfold InlineBlock.set
  rw [write_nil]
  rfl

theorem padFmt_eq {fmt : ℕ} {k : ℕ} {b : InlineBlock} (hle : fmt ≤ b.ptr)
    (hk : (4 - (b.ptr - fmt) % 4) % 4 ≤ k) :
    padFmt fmt k b = b.set (List.replicate ((4 - (b.ptr - fmt) % 4) % 4) 0) := by
  induction k generalizing b with
  | zero =>
    rw [Nat.le_zero.mp hk]
    exact (InlineBlock.set_nil b).symm
  | succ k ih =>
    unfold padFmt
    split
    · next hzero =>
      rw [hzero]
      exact (InlineBlock.set_nil b).symm
    · next hne =>
      -- one zero more, and one less to go
      have hptr : (b.set [0]).ptr = b.ptr + 1 := rfl
      rw [ih (by omega) (by omega), InlineBlock.set_set, hptr]
      have hcount : (4 - (b.ptr - fmt) % 4) % 4 = (4 - (b.ptr + 1 - fmt) % 4) % 4 + 1 := by omega
      rw [hcount, List.replicate_succ]
      rfl

theorem setFmt_eq (N : ℕ) (b : InlineBlock) : setFmt N b = b.set (midiFmt N) := by
  have hptr : (b.set ([44] ++ (List.replicate N 109 ++ [0]))).ptr = b.ptr + (N + 2) := by
    show b.ptr + _ = _
    simp only [List.length_append, List.length_singleton, List.length_replicate]
    omega
  -- the terminator is one of the zeros of the padding
  have hzeros : oscPadded (N + 1) - (N + 1) = 1 + (4 - (N + 2) % 4) % 4 := by
    unfold oscPadded
    omega
  unfold setFmt
  simp only
  rw [InlineBlock.set_set, InlineBlock.set_set, padFmt_eq (by omega) (by rw [hptr]; omega), hptr,
    Nat.add_sub_cancel_left, InlineBlock.set_set]
  unfold midiFmt
  rw [hzeros, List.replicate_add, List.append_assoc, List.append_assoc]
  rfl

theorem length_toMidi (mev : MidiEvent) : (toMidi mev).length = 4 := length_read _ _ _

variable (W) in
/-- **What is written into a block**: the message, in front of anything else. -/
theorem fill_eq (evs : List MidiEvent) (fresh : ByteMemory.Memory) :
    fill W evs fresh = (⟨fresh, 0⟩ : InlineBlock).set (encode W evs) := by
  have hargs : ∀ b : InlineBlock, evs.foldl (fun b mev => b.set (W.setMidi (toMidi mev))) b =
      b.set (evs.flatMap toMidi) := by
    induction evs with
    | nil => exact fun b => (InlineBlock.set_nil b).symm
    | cons mev evs ih =>
      intro b
      rw [List.foldl_cons, ih, InlineBlock.set_set, W.setMidi_eq _ (length_toMidi mev),
        List.flatMap_cons]
  unfold fill encode
  simp only
  rw [hargs, setFmt_eq, InlineBlock.set_set, InlineBlock.set_set, List.append_assoc]

/-- The block has the length of the message. -/
theorem length_encode (evs : List MidiEvent) : (encode W evs).length = len W evs.length := by
  have hargs : (evs.flatMap toMidi).length = evs.length * 4 := by
    induction evs with
    | nil => rfl
    | cons mev evs ih =>
      rw [List.flatMap_cons, List.length_append, ih, length_toMidi, List.length_cons]
      omega
  have hfmt : (midiFmt evs.length).length = oscPadded (evs.length + 1) := by
    unfold midiFmt oscPadded
    simp only [List.length_append, List.length_cons, List.length_replicate]
    omega
  unfold encode len
  rw [List.length_append, List.length_append, hargs, hfmt, W.length_setPath, W.strlen_eq,
    W.paddedSize_eq]
  unfold oscPadded
  omega

variable (W) in
theorem message_eq (evs : List MidiEvent) (fresh : ByteMemory.Memory) :
    message W evs fresh = encode W evs := by
  unfold message
  rw [fill_eq, ← length_encode]
  exact read_write fresh 0 _

end Bytes

/-! ### The groups -/

/-- The offsets that occur, and the events of each. -/
def groups (events : List MidiEvent) : List (NFrames × List MidiEvent) :=
  (events.map MidiEvent.time).dedup.map fun t => (t, events.filter fun mev => mev.time = t)

/-- **One message for every offset**, at its time and with its events. -/
def Grouped (calls : List SchedCall) : Prop :=
  calls.Perm ((groups events).map fun g => ⟨true, m, last + g.1, encode W g.2⟩)

section Groups

variable {W m last fresh events} {rest : List MidiEvent} {i lastI : ℕ} {lastTime t : NFrames}

/-- **The messages are late.** If no event is before the frame `t`, and the last one is
behind it, every message gets the time of an event that is behind it. -/
theorem loop_late (hle : ∀ mev ∈ events, t ≤ mev.time) (hrest : ∀ mev ∈ rest, mev ∈ events)
    (hlast : ∀ mev ∈ rest.getLast?, t < mev.time) (htime : t ≤ lastTime) (hi : i ≠ 0) :
    ∀ c ∈ loop W m last fresh events rest i lastI lastTime, ∃ mev ∈ events,
      t < mev.time ∧ c.time = mev.time + last := by
  induction rest generalizing i lastI lastTime with
  | nil => exact fun c hc => absurd hc List.not_mem_nil
  | cons mev rest ih =>
    have hmev : mev ∈ events := hrest mev List.mem_cons_self
    have htail : ∀ e ∈ rest, e ∈ events := fun e he => hrest e (List.mem_cons_of_mem _ he)
    have hlast' : ∀ e ∈ rest.getLast?, t < e.time := by
      intro e he
      refine hlast e ?_
      rw [List.getLast?_cons, he]
      rfl
    unfold loop
    simp only [if_neg hi]
    split
    · next hflush =>
      intro c hc
      rcases List.mem_cons.mp hc with rfl | hc
      · -- the message has the time of the event that ends the group, not of the group
        refine ⟨mev, hmev, ?_, rfl⟩
        rcases hflush with hlt | hnil
        · exact UInt32.lt_of_le_of_lt htime hlt
        · refine hlast mev ?_
          rw [hnil]
          rfl
      · -- the time that is kept is that of an event
        refine ih htail hlast' ?_ (Nat.succ_ne_zero i) c hc
        set group := (events.drop lastI).take ((if rest = [] then i + 1 else i) - lastI)
        cases hgroup : group.getLast? with
        | none => exact hle mev hmev
        | some mev' =>
          have hmem : mev' ∈ group := List.mem_of_getLast? hgroup
          exact hle mev' ((List.drop_sublist _ _).subset ((List.take_sublist _ _).subset hmem))
    · exact ih htail hlast' htime (Nat.succ_ne_zero i)

/-- Events with one offset are kept back until the last of them. -/
theorem loop_same (hne : rest ≠ []) (hsame : ∀ mev ∈ rest, mev.time = lastTime) (hi : i ≠ 0) :
    ∃ k, loop W m last fresh events rest i lastI lastTime =
      [⟨true, m, lastTime + last,
        message W ((events.drop lastI).take (i + rest.length - lastI)) (fresh k)⟩] := by
  induction rest generalizing i with
  | nil => exact absurd rfl hne
  | cons mev rest ih =>
    have hmev : mev.time = lastTime := hsame mev List.mem_cons_self
    unfold loop
    simp only [if_neg hi, hmev]
    by_cases hnil : rest = []
    · -- at the last event the group is all that has been kept back
      subst hnil
      refine ⟨i, ?_⟩
      rw [if_pos (Or.inr rfl), if_pos rfl]
      rfl
    · rw [if_neg (by simp [hnil])]
      obtain ⟨k, hk⟩ := ih hnil (fun e he => hsame e (List.mem_cons_of_mem _ he))
        (Nat.succ_ne_zero i)
      refine ⟨k, hk.trans ?_⟩
      rw [List.length_cons, Nat.succ_add_eq_add_succ]

/-- The first iteration of a buffer with more than one event. -/
theorem calls_cons {mev : MidiEvent} (hne : rest ≠ []) :
    calls W m last fresh (mev :: rest) lastI lastTime =
      loop W m last fresh (mev :: rest) rest 1 0 mev.time := by
  show loop W m last fresh (mev :: rest) (mev :: rest) 0 lastI lastTime = _
  conv_lhs => unfold loop
  simp [hne]

theorem calls_singleton {mev : MidiEvent} :
    calls W m last fresh [mev] lastI lastTime =
      [⟨true, m, mev.time + last, message W [mev] (fresh 0)⟩] := by
  show loop W m last fresh [mev] [mev] 0 lastI lastTime = _
  simp [loop]

theorem groups_of_same {mev : MidiEvent} (hsame : ∀ e ∈ mev :: rest, e.time = mev.time) :
    groups (mev :: rest) = [(mev.time, mev :: rest)] := by
  have htimes : (mev :: rest).map MidiEvent.time =
      List.replicate (mev :: rest).length mev.time := by
    rw [List.eq_replicate_iff]
    refine ⟨List.length_map _, ?_⟩
    intro t ht
    obtain ⟨e, he, rfl⟩ := List.mem_map.mp ht
    exact hsame e he
  have hall : (mev :: rest).filter (fun e => e.time = mev.time) = mev :: rest :=
    List.filter_eq_self.mpr fun e he => decide_eq_true (hsame e he)
  unfold groups
  rw [htimes, List.replicate_dedup (by simp), List.map_singleton, hall]

end Groups

/-- **When every event is forwarded at its own time.** -/
theorem grouped_iff (hsorted : events.Pairwise fun a b => a.time ≤ b.time) (lastI : ℕ)
    (lastTime : NFrames) :
    Grouped W m last events (calls W m last fresh events lastI lastTime) ↔
      ∀ a ∈ events, ∀ b ∈ events, a.time = b.time := by
  cases events with
  | nil => exact iff_of_true (List.Perm.refl []) (fun a ha => absurd ha List.not_mem_nil)
  | cons mev rest =>
    have hfirst : ∀ e ∈ mev :: rest, mev.time ≤ e.time := by
      intro e he
      rcases List.mem_cons.mp he with rfl | he
      · exact UInt32.le_refl _
      · exact List.rel_of_pairwise_cons hsorted he
    constructor
    · intro hgrouped
      have hmem : last + mev.time ∈ (calls W m last fresh (mev :: rest) lastI lastTime).map
          SchedCall.time := by
        -- there is a message at the first offset
        refine (hgrouped.map SchedCall.time).mem_iff.mpr ?_
        unfold groups
        rw [List.map_map, List.map_map]
        exact List.mem_map.mpr ⟨mev.time, List.mem_dedup.mpr List.mem_cons_self, rfl⟩
      -- suppose that another event has a later offset
      suffices hsame : ∀ e ∈ mev :: rest, e.time = mev.time by
        intro a ha b hb
        rw [hsame a ha, hsame b hb]
      by_contra hdiff
      push Not at hdiff
      obtain ⟨e, he, hne⟩ := hdiff
      have he' : e ∈ rest := by
        rcases List.mem_cons.mp he with rfl | he'
        · exact absurd rfl hne
        · exact he'
      have hrest : rest ≠ [] := List.ne_nil_of_mem he'
      -- but the last event is behind it, and so are all messages
      have hlast : ∀ l ∈ rest.getLast?, mev.time < l.time := by
        intro l hl
        have hel : e.time ≤ l.time := by
          obtain ⟨front, rfl⟩ := List.getLast?_eq_some_iff.mp hl
          rcases List.mem_append.mp he' with hfront | hend
          · have hpair := (List.pairwise_append.mp (List.pairwise_cons.mp hsorted).2).2.2
            exact hpair e hfront l List.mem_cons_self
          · rw [List.mem_singleton.mp hend]
            exact UInt32.le_refl _
        exact UInt32.lt_of_lt_of_le (UInt32.lt_of_le_of_ne (hfirst e he) hne.symm) hel
      rw [calls_cons hrest] at hmem
      obtain ⟨c, hc, htime⟩ := List.mem_map.mp hmem
      obtain ⟨e', -, hlt, htime'⟩ := loop_late hfirst
        (fun e he => List.mem_cons_of_mem _ he) hlast (UInt32.le_refl _) Nat.one_ne_zero c hc
      -- `last` is added to both, so the sums agree only if the offsets do
      rw [htime', UInt32.add_comm, UInt32.add_right_inj] at htime
      rw [htime] at hlt
      exact UInt32.lt_irrefl _ hlt
    · -- there is one group, and it is scheduled at the end of the buffer
      intro hsame
      have hsame' : ∀ e ∈ mev :: rest, e.time = mev.time :=
        fun e he => hsame e he mev List.mem_cons_self
      unfold Grouped
      rw [groups_of_same hsame']
      refine List.Perm.of_eq ?_
      by_cases hnil : rest = []
      · subst hnil
        rw [calls_singleton, message_eq, UInt32.add_comm]
        rfl
      · obtain ⟨k, hk⟩ := @loop_same W m last fresh (mev :: rest) rest 1 0 mev.time hnil
          (fun e he => hsame' e (List.mem_cons_of_mem _ he)) Nat.one_ne_zero
        have hall : ((mev :: rest).drop 0).take (1 + rest.length - 0) = mev :: rest := by
          rw [List.drop_zero, Nat.sub_zero, List.take_of_length_le]
          rw [List.length_cons]
          omega
        rw [calls_cons hnil, hk, hall, message_eq, UInt32.add_comm]
        rfl

/-- A note-on event at an offset. -/
def note (time : NFrames) (key : UInt8) : MidiEvent where
  time
  buffer i := [0x90, key, 0x7f].getD i 0
  size := 3

/-- Two notes at one offset. -/
theorem grouped_iff_chord :
    Grouped plainWriter 1 64 [note 3 60, note 3 64]
      (calls plainWriter 1 64 (fun _ _ => 0xff) [note 3 60, note 3 64] 0 0) := by
  refine (grouped_iff plainWriter 1 64 _ _ ?_ 0 0).mpr ?_
  · exact List.pairwise_pair.mpr (UInt32.le_refl 3)
  · rintro a (_ | ⟨_, _ | ⟨_, ⟨⟩⟩⟩) b (_ | ⟨_, _ | ⟨_, ⟨⟩⟩⟩) <;> rfl

/-- **A note at the time of the next one.** The first note is due at frame 64, and both are
scheduled for frame 69. -/
theorem note_late :
    let calls := calls plainWriter 1 64 (fun _ _ => 0xff) [note 0 60, note 5 64] 0 0
    calls.map (fun c => (c.time, c.buf)) = [(69, [47, 109, 105, 100, 105, 0, 0, 0,
      44, 109, 109, 0, 0, 0x90, 60, 0x7f, 0, 0x90, 64, 0x7f])] ∧
      ¬ Grouped plainWriter 1 64 [note 0 60, note 5 64] calls := by
  intro calls
  have hcalls : calls.map (fun c => (c.time, c.buf)) = [(69, [47, 109, 105, 100, 105, 0, 0, 0,
      44, 109, 109, 0, 0, 0x90, 60, 0x7f, 0, 0x90, 64, 0x7f])] := by
    decide +kernel
  refine ⟨hcalls, ?_⟩
  intro hgrouped
  have hlen := hgrouped.length_eq
  have hone := congrArg List.length hcalls
  rw [List.length_map] at hone
  rw [hone] at hlen
  exact absurd hlen (by decide)

end MidiIn

end Tjost
