import Tjost.Lua.Interface
import Tjost.Modules.MidiBytes

/-!
# The blocks of MIDI messages

`process_in` of `mod_midi_in.c` reserves a block for the message of a group and writes the
message into it. The length is computed in front, with `osc_strlen` and `osc_padded_size`. The
format is padded by a loop over pointer differences, and the arguments come from a loop of its
own over the indices of the group.

`MidiIn.blocks` is the outer loop with the blocks it asks for, and `Block.fill` is what is
written into one of them, index by index. The events that are scheduled are those of
`MidiIn.loop` (`MidiIn.loop_eq_blocks`). `MidiIn.blocks_filled`: the bytes written are exactly
those reserved, and `MidiIn.decode` reads the events of the group from them.
-/

open ByteMemory

namespace Tjost

namespace MidiIn

/-- The events in the buffer of a MIDI port. The size of the buffer is a `uint32_t`, and every
event takes more than four bytes of it. -/
structure PortBuf where
  events : List MidiEvent
  fits : events.length * 4 < 2 ^ 32

/-- A block for the events from `lastI` up to `i`, with the event that ended the group. -/
structure Block where
  lastI : ℕ
  i : ℕ
  mev : MidiEvent

variable (W : MidiWriter) (events : List MidiEvent)

/-- `for(j=last_i; j<i; j++)`, `k` times from `j` on: the block and `mev` behind it. -/
def setArgs : ℕ → ℕ → InlineBlock → MidiEvent → InlineBlock × MidiEvent
  | _, 0, b, mev => (b, mev)
  | j, k + 1, b, mev =>
    let mev := events[j]?.getD mev
    setArgs (j + 1) k (b.set (W.setMidi (toMidi mev))) mev

/-- `uint32_t N = i-last_i`. -/
def Block.N (b : Block) : UInt32 := UInt32.ofNat b.i - UInt32.ofNat b.lastI

/-- `size_t len`, of which `N+2` and `N*4` are computed in `uint32_t`. -/
def Block.len (b : Block) : ℕ :=
  W.strlen midiPath + W.paddedSize (b.N + 2).toNat + (b.N * 4).toNat

/-- What is written into a block that holds `fresh`, and `mev` behind it. -/
def Block.fill (b : Block) (fresh : ByteMemory.Memory) : InlineBlock × MidiEvent :=
  let ptr : InlineBlock := ⟨fresh, 0⟩
  let ptr := ptr.set (W.setPath midiPath)
  let ptr := setFmt b.N.toNat ptr
  setArgs W events b.lastI (b.i - b.lastI) ptr b.mev

variable (fresh : ℕ → ByteMemory.Memory)

/-- The loop from the event `i` on, as the blocks it asks for. -/
def blocks : List MidiEvent → ℕ → ℕ → NFrames → List Block
  | [], _, _, _ => []
  | mev :: rest, i, lastI, lastTime =>
    let lastI := if i = 0 then i else lastI
    let lastTime := if i = 0 then mev.time else lastTime
    if lastTime < mev.time ∨ rest = [] then
      let b : Block := ⟨lastI, if rest = [] then i + 1 else i, mev⟩
      b :: blocks rest (i + 1) b.i (b.fill W events (fresh i)).2.time
    else blocks rest (i + 1) lastI lastTime

/-- The arguments that the letters of a format stand for. -/
def decodeArgs : List Char → List UInt8 → Option (List (List UInt8))
  | [], buf => if buf = [] then some [] else none
  | type :: fmt, buf =>
    if type = 'm' ∧ 4 ≤ buf.length then (decodeArgs fmt (buf.drop 4)).map (buf.take 4 :: ·)
    else none

/-- The path, the format and the MIDI arguments of a message, and nothing behind them. -/
def decode (buf : List UInt8) : Option (List Char × List Char × List (List UInt8)) :=
  let path := oscString buf
  let fmt := oscString path.2
  if fmt.1.head? = some ',' then
    (decodeArgs fmt.1.tail fmt.2).map fun args => (path.1, fmt.1.tail, args)
  else none

/-- The events of the group of a block. -/
def Block.group (b : Block) : List MidiEvent := (events.drop b.lastI).take (b.i - b.lastI)

/-- **A block is filled exactly**, whatever it holds before: up to its length and not beyond
it, with bytes that do not depend on what was there, which are a message with the path `/midi`
and one argument for every event of the group. -/
structure Block.Filled (b : Block) : Prop where
  group : b.lastI < b.i ∧ (b.group events).length = b.i - b.lastI
  ptr : ∀ fresh, (b.fill W events fresh).1.ptr = b.len W
  outside : ∀ fresh i, b.len W ≤ i → (b.fill W events fresh).1.mem i = fresh i
  inside : ∀ fresh fresh' i, i < b.len W →
    (b.fill W events fresh).1.mem i = (b.fill W events fresh').1.mem i
  decoded : ∀ fresh, decode (read (b.fill W events fresh).1.mem 0 (b.len W)) =
    some (midiPath, List.replicate (b.i - b.lastI) 'm',
      (b.group events).map fun mev => [0, mev.buffer 0, mev.buffer 1, mev.buffer 2])

section Blocks

variable {W events} {b : Block}

/-! ### One block -/

/-- The loop over indices goes through the group, and leaves its last event in `mev`. -/
theorem setArgs_eq {j k : ℕ} (hk : j + k ≤ events.length) (b : InlineBlock) (mev : MidiEvent) :
    setArgs W events j k b mev =
      (b.set (((events.drop j).take k).flatMap toMidi),
        ((events.drop j).take k).getLast?.getD mev) := by
  induction k generalizing j b mev with
  | zero =>
    rw [List.take_zero, List.flatMap_nil, InlineBlock.set_nil]
    rfl
  | succ k ih =>
    have hj : j < events.length := by omega
    have hget : events[j]?.getD mev = events[j] := by
      rw [List.getElem?_eq_getElem hj]
      rfl
    -- the first event of the group, and the others
    have hcons : (events.drop j).take (k + 1) = events[j] :: (events.drop (j + 1)).take k := by
      rw [List.drop_eq_getElem_cons hj, List.take_succ_cons]
    unfold setArgs
    rw [ih (by omega), hget, hcons, W.setMidi_eq _ (length_toMidi _), InlineBlock.set_set,
      List.flatMap_cons, List.getLast?_cons]
    rfl

/-- The indices of a group in a port buffer. -/
structure Block.InRange (b : Block) (events : List MidiEvent) : Prop where
  lt : b.lastI < b.i
  le : b.i ≤ events.length
  fits : events.length * 4 < 2 ^ 32

theorem Block.InRange.length_group (h : b.InRange events) :
    (b.group events).length = b.i - b.lastI := by
  have := h.le
  unfold Block.group
  rw [List.length_take, List.length_drop]
  omega

theorem Block.InRange.toNat_N (h : b.InRange events) : b.N.toNat = b.i - b.lastI := by
  obtain ⟨hlt, hle, hfits⟩ := h
  have hsize : UInt32.size = 2 ^ 32 := rfl
  -- an index into a port buffer is far below `2 ^ 32`
  have hlast : (UInt32.ofNat b.lastI).toNat = b.lastI := UInt32.toNat_ofNat_of_lt' (by omega)
  have hi : (UInt32.ofNat b.i).toNat = b.i := UInt32.toNat_ofNat_of_lt' (by omega)
  have hsub : UInt32.ofNat b.lastI ≤ UInt32.ofNat b.i := by
    rw [UInt32.le_iff_toNat_le, hlast, hi]
    exact hlt.le
  unfold Block.N
  rw [UInt32.toNat_sub_of_le _ _ hsub, hlast, hi]

/-- No sum or product wraps, so the length is that of the message. -/
theorem Block.InRange.len_eq (h : b.InRange events) :
    b.len W = (encode W (b.group events)).length := by
  have hN := h.toNat_N
  obtain ⟨hlt, hle, hfits⟩ := h
  have hadd : (b.N + 2).toNat = b.i - b.lastI + 2 := by
    rw [UInt32.toNat_add, hN]
    exact Nat.mod_eq_of_lt (by show _ + 2 < _; omega)
  have hmul : (b.N * 4).toNat = (b.i - b.lastI) * 4 := by
    rw [UInt32.toNat_mul, hN]
    exact Nat.mod_eq_of_lt (by show _ * 4 < _; omega)
  rw [length_encode, Block.InRange.length_group ⟨hlt, hle, hfits⟩]
  unfold Block.len MidiIn.len
  rw [hadd, hmul]

/-- **What is written into a block** is the message of its group. -/
theorem Block.InRange.fill_eq (h : b.InRange events) (fresh : ByteMemory.Memory) :
    b.fill W events fresh =
      ((⟨fresh, 0⟩ : InlineBlock).set (encode W (b.group events)),
        (b.group events).getLast?.getD b.mev) := by
  have hk : b.lastI + (b.i - b.lastI) ≤ events.length := by
    have := h.lt
    have := h.le
    omega
  unfold Block.fill encode
  simp only
  rw [h.toNat_N, setFmt_eq, setArgs_eq hk, InlineBlock.set_set, InlineBlock.set_set,
    h.length_group, List.append_assoc]
  rfl

/-- Four bytes for every letter. -/
theorem decodeArgs_eq (evs : List MidiEvent) :
    decodeArgs (List.replicate evs.length 'm') (evs.flatMap toMidi) = some (evs.map toMidi) := by
  induction evs with
  | nil => rfl
  | cons mev evs ih =>
    have htake : (toMidi mev ++ evs.flatMap toMidi).take 4 = toMidi mev := rfl
    have hdrop : (toMidi mev ++ evs.flatMap toMidi).drop 4 = evs.flatMap toMidi := rfl
    have hlen : 4 ≤ (toMidi mev ++ evs.flatMap toMidi).length := by
      rw [List.length_append, length_toMidi]
      exact Nat.le_add_right 4 _
    rw [List.length_cons, List.replicate_succ, List.flatMap_cons]
    unfold decodeArgs
    rw [if_pos ⟨rfl, hlen⟩, htake, hdrop, ih]
    rfl

/-- The message of a group is read as what it is. -/
theorem decode_encode (hpath : ∀ s, W.setPath s = oscPad s) (evs : List MidiEvent) :
    decode (encode W evs) =
      some (midiPath, List.replicate evs.length 'm', evs.map toMidi) := by
  -- a writer that pads its path writes the same message
  have hmidi : encode W evs = encode plainWriter evs := by
    unfold encode
    rw [hpath]
    rfl
  obtain ⟨h₁, h₂⟩ := oscString_encode evs
  unfold decode
  simp only [hmidi, h₁, h₂, List.head?_cons, List.tail_cons, if_true, decodeArgs_eq]
  rfl

theorem Block.InRange.filled (hpath : ∀ s, W.setPath s = oscPad s) (h : b.InRange events) :
    b.Filled W events := by
  refine ⟨⟨h.lt, h.length_group⟩, ?_, ?_, ?_, ?_⟩
  · intro fresh
    rw [h.fill_eq, h.len_eq]
    exact Nat.zero_add _
  · intro fresh i hi
    rw [h.len_eq] at hi
    rw [h.fill_eq]
    exact write_of_ge ((Nat.zero_add _).trans_le hi)
  · -- all of these bytes are bytes of the message
    intro fresh fresh' i hi
    rw [h.len_eq] at hi
    rw [h.fill_eq, h.fill_eq]
    have hnone : Set.EqOn fresh fresh' ∅ := Set.eqOn_empty _ _
    refine eqOn_write hnone 0 (encode W (b.group events)) (Or.inr ⟨Nat.zero_le i, ?_⟩)
    rwa [Nat.zero_add]
  · intro fresh
    have hread : read (b.fill W events fresh).1.mem 0 (b.len W) = encode W (b.group events) := by
      rw [h.fill_eq, h.len_eq]
      exact read_write fresh 0 _
    rw [hread, decode_encode hpath, h.length_group]
    rfl

/-! ### The blocks of a cycle -/

variable {fresh : ℕ → ByteMemory.Memory} {rest : List MidiEvent} {i lastI : ℕ}
  {lastTime : NFrames}

/-- The event that is scheduled with a block. -/
def Block.call (m : ModulePtr) (last : NFrames) (bytes : List UInt8) (b : Block) : SchedCall :=
  ⟨true, m, b.mev.time + last, bytes⟩

/-- The groups are not empty and lie in the port buffer, and the calls of the loop are made
with the messages in them. The induction is on the events that are left; what it carries is
that the group in front of them has begun before them. -/
theorem loop_eq_blocks (m : ModulePtr) (last : NFrames) (hfits : events.length * 4 < 2 ^ 32)
    (hrest : rest = events.drop i) (hlast : i = 0 ∨ lastI < i) :
    (∀ b ∈ blocks W events fresh rest i lastI lastTime, b.InRange events) ∧
      loop W m last fresh events rest i lastI lastTime =
        (blocks W events fresh rest i lastI lastTime).map fun b =>
          b.call m last (encode W (b.group events)) := by
  induction rest generalizing i lastI lastTime with
  | nil => exact ⟨fun b hb => absurd hb List.not_mem_nil, rfl⟩
  | cons mev rest ih =>
    have hi : i < events.length := by
      by_contra hge
      rw [List.drop_eq_nil_of_le (Nat.not_lt.mp hge)] at hrest
      exact absurd hrest (List.cons_ne_nil mev rest)
    have htail : rest = events.drop (i + 1) := by
      rw [List.drop_eq_getElem_cons hi] at hrest
      exact (List.cons.inj hrest).2
    -- the first event begins a group
    obtain ⟨first, time, hfirst, htime, hle, hlt⟩ : ∃ first time,
        first = (if i = 0 then i else lastI) ∧ time = (if i = 0 then mev.time else lastTime) ∧
          first ≤ i ∧ (time < mev.time → first < i) := by
      refine ⟨_, _, rfl, rfl, ?_, ?_⟩
      · split <;> omega
      · intro h
        split at h
        · exact absurd h (UInt32.lt_irrefl _)
        · next hne => rw [if_neg hne]; omega
    unfold blocks loop
    simp only [← hfirst, ← htime]
    by_cases hflush : time < mev.time ∨ rest = []
    · -- the group ends in front of `mev`, or with it where it is the last event
      rw [if_pos hflush, if_pos hflush]
      set b : Block := ⟨first, if rest = [] then i + 1 else i, mev⟩ with hb
      have hrange : b.InRange events := by
        refine ⟨?_, ?_, hfits⟩
        · show first < if rest = [] then i + 1 else i
          split
          · omega
          · next hne => exact hlt (hflush.resolve_right hne)
        · show (if rest = [] then i + 1 else i) ≤ events.length
          split <;> omega
      have hmev : (b.fill W events (fresh i)).2 = (b.group events).getLast?.getD mev := by
        rw [hrange.fill_eq]
      -- behind the last event there is no other block
      have hih : (∀ c ∈ blocks W events fresh rest (i + 1) b.i
            (b.fill W events (fresh i)).2.time, c.InRange events) ∧
          loop W m last fresh events rest (i + 1) b.i (b.fill W events (fresh i)).2.time =
            (blocks W events fresh rest (i + 1) b.i (b.fill W events (fresh i)).2.time).map
              fun c => c.call m last (encode W (c.group events)) := by
        by_cases hnil : rest = []
        · subst hnil
          exact ⟨fun c hc => absurd hc List.not_mem_nil, rfl⟩
        · refine ih htail (Or.inr ?_)
          show (if rest = [] then i + 1 else i) < i + 1
          rw [if_neg hnil]
          exact Nat.lt_succ_self i
      refine ⟨List.forall_mem_cons.mpr ⟨hrange, hih.1⟩, ?_⟩
      rw [List.map_cons, ← hih.2, message_eq, hmev]
      rfl
    · -- `mev` joins the group
      rw [if_neg hflush, if_neg hflush]
      have hne : rest ≠ [] := fun h => hflush (Or.inr h)
      exact ih htail (Or.inr (Nat.lt_succ_of_le hle))

variable (W fresh lastI lastTime) in
/-- **The blocks of `midi_in` are filled exactly.** -/
theorem blocks_filled (m : ModulePtr) (last : NFrames) (hpath : ∀ s, W.setPath s = oscPad s)
    (portBuf : PortBuf) :
    let blocks := blocks W portBuf.events fresh portBuf.events 0 lastI lastTime
    (∀ b ∈ blocks, b.Filled W portBuf.events) ∧
      ∀ bs : Block → ByteMemory.Memory, calls W m last fresh portBuf.events lastI lastTime =
        blocks.map fun b => b.call m last
          (read (b.fill W portBuf.events (bs b)).1.mem 0 (b.len W)) := by
  intro blocks
  obtain ⟨hrange, hloop⟩ := @loop_eq_blocks W portBuf.events fresh portBuf.events 0 lastI
    lastTime m last portBuf.fits List.drop_zero.symm (Or.inl rfl)
  refine ⟨fun b hb => (hrange b hb).filled hpath, ?_⟩
  intro bs
  refine hloop.trans (List.map_congr_left fun b hb => ?_)
  rw [(hrange b hb).fill_eq, (hrange b hb).len_eq]
  exact congrArg (Block.call m last · b) (read_write (bs b) 0 _).symm

end Blocks

theorem plainWriter_setPath (s : List Char) : plainWriter.setPath s = oscPad s := by
  have hzeros : oscPadded s.length - s.length = 4 - s.length % 4 := by
    unfold oscPadded
    omega
  show (s.map fun c => UInt8.ofNat c.toNat) ++ _ = _
  unfold oscPad
  rw [← hzeros]

/-- A chord and a later note: a group of two events, and the last one with it. -/
theorem blocks_filled_chord :
    let portBuf : PortBuf := ⟨[note 0 60, note 0 64, note 5 67], by decide⟩
    ∀ b ∈ blocks plainWriter portBuf.events (fun _ _ => 0xff) portBuf.events 0 7 9,
      b.Filled plainWriter portBuf.events :=
  (blocks_filled plainWriter (fun _ _ => 0xff) 7 9 1 64 plainWriter_setPath _).1

end MidiIn

end Tjost
