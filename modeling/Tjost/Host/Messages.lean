import Mathlib.Data.List.TakeWhile
import Tjost.Library.ByteRing
import Tjost.Library.CString
import Tjost.Library.Transition
import Tjost.Types

/-!
# The message channel

`tjost_host_message_push` expands a format into a static buffer and writes the string into
`rb_msg`, its size in front of it. `tjost_host_message_pull` takes it out into the buffer of
`_msg`. The two run on different threads, so they are machines that share the ring, one ring
operation a step (`Messages.machine`).

Both buffers have 1024 bytes, which nobody looks at: `vsprintf` writes the expansion whatever
its length is, and the size in front of a string decides how much is copied out of the ring.

`Messages.strings_iff`: along a run, the strings pulled are those that had room, in order and
unaltered, a push without room leaves the ring as it is, and no buffer is written behind its
end, if and only if no expansion is longer than 1023 bytes.
-/

open ByteMemory Transition

namespace Tjost

namespace Messages

/-- `sizeof(size_t)`. -/
def sizeofSize : ℕ := 8

/-- The size of a static `str`. -/
def strSize : ℕ := 1024

/-- A static `str`, with what is behind it, and how far it has been written. -/
structure Str where
  mem : ByteMemory.Memory
  reach : ℕ

/-- Write bytes at the start. -/
def Str.put (str : Str) (bs : List UInt8) : Str := ⟨write str.mem 0 bs, max str.reach bs.length⟩

def Str.Within (str : Str) : Prop := str.reach ≤ strSize

/-- The C string that bytes begin with. -/
def stringOf (bs : List UInt8) : List UInt8 := bs.takeWhile (· ≠ 0)

/-- `strlen(str) + 1`. -/
def sizeOf (string : List UInt8) : UInt64 := UInt64.ofNat (string.length + 1)

/-- `sizeof(size_t) + size`. -/
def needed (size : UInt64) : ℕ := (UInt64.ofNat sizeofSize + size).toNat

/-- Where a `tjost_host_message_push` is. `string` is in its buffer. -/
inductive PushPc
  | idle
  /-- Before `jack_ringbuffer_write_space`. -/
  | space (string : List UInt8)
  /-- Before the write of the size. -/
  | size (string : List UInt8)
  /-- Before the write of the string. -/
  | str (string : List UInt8)
  deriving DecidableEq, Repr

/-- Where a `tjost_host_message_pull` is. -/
inductive PullPc
  | idle
  /-- Before the first test. -/
  | space
  /-- Before `jack_ringbuffer_peek`. -/
  | peek
  /-- Before the test for the whole record. -/
  | record (size : UInt64)
  /-- Before `jack_ringbuffer_read_advance`. -/
  | advance (size : UInt64)
  /-- Before `jack_ringbuffer_read`. -/
  | read (size : UInt64)
  deriving DecidableEq, Repr

/-- A finished push: the string, whether it went into the ring, the space that the call had
found, and the number of bytes that it wrote. -/
structure Push where
  string : List UInt8
  room : Bool
  space : ℕ
  wrote : ℕ
  deriving DecidableEq, Repr

end Messages

/-- The ring, with the thread that pushes and the one that pulls. -/
structure Messages (ρ : Type) where
  rbMsg : ρ
  pushStr : Messages.Str
  push : Messages.PushPc
  /-- Ghost: what `jack_ringbuffer_write_space` has answered the call in progress. -/
  space : ℕ
  /-- Ghost: the bytes written by the call in progress. -/
  wrote : ℕ
  pushed : List Messages.Push
  pullStr : Messages.Str
  pull : Messages.PullPc
  /-- The strings for which `tjost_host_message_pull` has returned `1`. -/
  pulled : List (List UInt8)

namespace Messages

variable {ρ : Type} (R : ByteRing ρ ringbufSize)

/-- The end of a push. -/
def finish (s : Messages ρ) (string : List UInt8) (room : Bool) : Messages ρ :=
  { s with push := .idle, pushed := s.pushed ++ [⟨string, room, s.space, s.wrote⟩] }

/-- The next step of `tjost_host_message_push`. The writes are not checked. -/
def pushStep (s : Messages ρ) : Option (Messages ρ) :=
  match s.push with
  | .idle => none
  | .space string =>
    let space := R.writeSpace s.rbMsg
    if space < needed (sizeOf string) then some (Messages.finish { s with space } string false)
    else some { s with space, push := .size string }
  | .size string =>
    let (rbMsg, n) := R.write s.rbMsg (Bytes.toLE sizeofSize (sizeOf string).toNat)
    some { s with rbMsg, wrote := s.wrote + n, push := .str string }
  | .str string =>
    let (rbMsg, n) := R.write s.rbMsg (read s.pushStr.mem 0 (sizeOf string).toNat)
    some (Messages.finish { s with rbMsg, wrote := s.wrote + n } string true)

/-- The next step of `tjost_host_message_pull`. -/
def pullStep (s : Messages ρ) : Option (Messages ρ) :=
  match s.pull with
  | .idle => none
  | .space =>
    if sizeofSize ≤ R.readSpace s.rbMsg then some { s with pull := .peek }
    else some { s with pull := .idle }
  | .peek =>
    let size := R.peek s.rbMsg sizeofSize
    some { s with pull := .record (UInt64.ofNat (Bytes.ofLE size)) }
  | .record size =>
    if needed size ≤ R.readSpace s.rbMsg then some { s with pull := .advance size }
    else some { s with pull := .idle }
  | .advance size =>
    some { s with rbMsg := R.readAdvance s.rbMsg sizeofSize, pull := .read size }
  | .read size =>
    let (rbMsg, bytes) := R.read s.rbMsg size.toNat
    some { s with
      rbMsg
      pullStr := s.pullStr.put bytes
      pulled := s.pulled ++ [stringOf bytes]
      pull := .idle }

/-- A thread that is not in a call starts one, or a thread that is in a call takes its next
step. A push begins with the expansion of its format, of any length. -/
inductive Label
  | push (text : List UInt8)
  | pusher
  | pull
  | puller
  deriving DecidableEq, Repr

def step (s : Messages ρ) : Label → Option (Messages ρ)
  | .push text =>
    if s.push = .idle then
      -- `vsprintf` writes the terminator, too
      some { s with
        pushStr := s.pushStr.put (text ++ [0])
        push := .space (stringOf text)
        wrote := 0 }
    else none
  | .pusher => s.pushStep R
  | .pull => if s.pull = .idle then some { s with pull := .space } else none
  | .puller => s.pullStep R

/-- The ring is empty and no call has been made. -/
def Init (s : Messages ρ) : Prop :=
  R.contents s.rbMsg = [] ∧ s.push = .idle ∧ s.pushed = [] ∧ s.pushStr.reach = 0 ∧
    s.pull = .idle ∧ s.pulled = [] ∧ s.pullStr.reach = 0

def machine : Machine (Messages ρ) Label where
  init := Init R
  step := step R

/-- The strings for which there was room. -/
def accepted (s : Messages ρ) : List (List UInt8) := (s.pushed.filter Push.room).map Push.string

/-- The call has written the size and the string with its terminator, or nothing where there
was no space for these. -/
def Push.Whole (x : Push) : Prop :=
  x.room = decide (sizeofSize + (x.string.length + 1) ≤ x.space) ∧
    x.wrote = if x.room then sizeofSize + (x.string.length + 1) else 0

/-- **The channel is faithful**: what is pulled is what had room, in order, and all of it when
the ring is empty. A push without room has not written to the ring. The buffers are not written
behind their end. -/
structure Faithful (s : Messages ρ) : Prop where
  order : s.pulled <+: s.accepted
  all : R.contents s.rbMsg = [] → s.pull = .idle → s.pulled = s.accepted
  whole : ∀ x ∈ s.pushed, x.Whole
  pushStr : s.pushStr.Within
  pullStr : s.pullStr.Within

/-- The expansion of a push fits into `str`. -/
def Short : Label → Prop
  | .push text => text.length + 1 ≤ strSize
  | _ => True

instance : DecidablePred Short := fun l =>
  match l with
  | .push text => inferInstanceAs (Decidable (text.length + 1 ≤ strSize))
  | .pusher => isTrue trivial
  | .pull => isTrue trivial
  | .puller => isTrue trivial

/-! ### Framing -/

/-- A string that fits into `str` with its terminator. -/
structure Fits (string : List UInt8) : Prop where
  short : string.length + 1 ≤ strSize
  ne_zero : ∀ b ∈ string, b ≠ 0

/-- The size in front of a string. -/
def sizeBytes (string : List UInt8) : List UInt8 :=
  Bytes.toLE sizeofSize (sizeOf string).toNat

/-- The record of a string. -/
def recordBytes (string : List UInt8) : List UInt8 := sizeBytes string ++ (string ++ [0])

/-- The position of the pulling thread: the string it has taken but not returned, and the bytes
of it that are still in the ring. `ahead` are the records behind whose size is there. -/
def PullPc.At (pc : PullPc) (contents : List UInt8) (ahead current : List (List UInt8))
    (held : List UInt8) : Prop :=
  match pc with
  | .idle | .space => current = [] ∧ held = []
  | .peek => (current = [] ∧ held = []) ∧ sizeofSize ≤ contents.length
  | .record size => (current = [] ∧ held = []) ∧ ∃ r, ahead.head? = some r ∧ size = sizeOf r
  | .advance size => ∃ r, current = [r] ∧ held = recordBytes r ∧ size = sizeOf r
  | .read size => ∃ r, current = [r] ∧ held = r ++ [0] ∧ size = sizeOf r

/-- **The framing.** `written` are the strings in the ring so far, and `partly` is the one of
which only the size is there. -/
structure Framed (contents : List UInt8) (pull : PullPc) (pulled written partly : List (List UInt8)) :
    Prop where
  fits : ∀ r ∈ written ++ partly, Fits r
  partly_le : partly.length ≤ 1
  split : ∃ (current pending : List (List UInt8)) (held : List UInt8),
    pulled ++ current ++ pending = written ∧
      contents = held ++ pending.flatMap recordBytes ++ partly.flatMap sizeBytes ∧
      pull.At contents (pending ++ partly) current held

/-- What the pushing thread knows of the room in the ring and of its buffer. -/
def PushPc.Room (pc : PushPc) (now space wrote : ℕ) (mem : ByteMemory.Memory) : Prop :=
  match pc with
  | .idle => True
  | .space r => Fits r ∧ read mem 0 (r.length + 1) = r ++ [0] ∧ wrote = 0
  | .size r => Fits r ∧ read mem 0 (r.length + 1) = r ++ [0] ∧ wrote = 0 ∧
      sizeofSize + (r.length + 1) ≤ space ∧ sizeofSize + (r.length + 1) ≤ now
  | .str r => Fits r ∧ read mem 0 (r.length + 1) = r ++ [0] ∧ wrote = sizeofSize ∧
      sizeofSize + (r.length + 1) ≤ space ∧ r.length + 1 ≤ now

/-- The string of which only the size has been written. -/
def PushPc.partly : PushPc → List (List UInt8)
  | .str r => [r]
  | _ => []

structure Inv (s : Messages ρ) : Prop where
  room : s.push.Room (R.writeSpace s.rbMsg) s.space s.wrote s.pushStr.mem
  framed : Framed (R.contents s.rbMsg) s.pull s.pulled s.accepted s.push.partly
  whole : ∀ x ∈ s.pushed, x.Whole
  pullStr : s.pullStr.Within

section Framing

variable {R} {contents : List UInt8} {pull : PullPc} {pulled written partly : List (List UInt8)}
  {r : List UInt8}

theorem Fits.toNat_sizeOf (h : Fits r) : (sizeOf r).toNat = r.length + 1 := by
  have := h.short
  unfold sizeOf
  rw [UInt64.toNat_ofNat']
  exact Nat.mod_eq_of_lt (by unfold strSize at this; omega)

theorem Fits.needed_eq (h : Fits r) : needed (sizeOf r) = sizeofSize + (r.length + 1) := by
  have hsize := h.toNat_sizeOf
  have hshort := h.short
  have height : (UInt64.ofNat sizeofSize).toNat = sizeofSize := rfl
  unfold needed
  rw [UInt64.toNat_add, hsize, height]
  exact Nat.mod_eq_of_lt (by unfold sizeofSize; unfold strSize at hshort; omega)

@[simp] theorem length_sizeBytes (r : List UInt8) : (sizeBytes r).length = sizeofSize :=
  Bytes.length_toLE _ _

theorem length_recordBytes (r : List UInt8) :
    (recordBytes r).length = sizeofSize + (r.length + 1) := by
  unfold recordBytes
  rw [List.length_append, length_sizeBytes, List.length_append, List.length_singleton]

/-- The size is read as what has been written. -/
theorem ofLE_sizeBytes (r : List UInt8) : UInt64.ofNat (Bytes.ofLE (sizeBytes r)) = sizeOf r := by
  have hlt : (sizeOf r).toNat < 256 ^ sizeofSize := (sizeOf r).toNat_lt
  unfold sizeBytes
  rw [Bytes.ofLE_toLE_of_lt hlt, UInt64.ofNat_toNat]

/-- A string that fits has no zero in it, so it ends at its terminator. -/
theorem Fits.stringOf_eq (h : Fits r) : stringOf (r ++ [0]) = r := by
  unfold stringOf
  rw [List.takeWhile_append_of_pos fun b hb => decide_eq_true (h.ne_zero b hb),
    List.takeWhile_cons_of_neg (by decide), List.append_nil]

/-- The string that `vsprintf` leaves, with its terminator. -/
theorem stringOf_put (str : Str) (text : List UInt8) :
    read (str.put (text ++ [0])).mem 0 ((stringOf text).length + 1) = stringOf text ++ [0] := by
  -- the first zero is one of the text or the terminator
  obtain ⟨rest, hrest⟩ : ∃ rest, text ++ [0] = stringOf text ++ [0] ++ rest := by
    induction text with
    | nil => exact ⟨[], rfl⟩
    | cons b text ih =>
      unfold stringOf
      by_cases hb : b = 0
      · subst hb
        exact ⟨text ++ [0], rfl⟩
      · obtain ⟨rest, hrest⟩ := ih
        refine ⟨rest, ?_⟩
        rw [List.takeWhile_cons_of_pos (by exact decide_eq_true hb), List.cons_append, hrest]
        rfl
  have hread : read (str.put (text ++ [0])).mem 0 (text ++ [0]).length = text ++ [0] :=
    read_write str.mem 0 _
  have hlen : (text ++ [0]).length = ((stringOf text).length + 1) + rest.length := by
    rw [hrest, List.length_append, List.length_append, List.length_singleton]
  rw [hlen, read_add] at hread
  conv_rhs at hread => rw [hrest]
  refine (List.append_inj hread ?_).1
  rw [length_read, List.length_append, List.length_singleton]

theorem fits_stringOf {text : List UInt8} (h : text.length + 1 ≤ strSize) :
    Fits (stringOf text) := by
  refine ⟨?_, ?_⟩
  · have hle : (stringOf text).length ≤ text.length := (List.takeWhile_prefix _).length_le
    omega
  · intro b hb
    have hne := List.mem_takeWhile_imp hb
    exact of_decide_eq_true hne

/-- More bytes and more records behind. -/
theorem PullPc.At.mono {contents' : List UInt8} {ahead ahead' current : List (List UInt8)}
    {held : List UInt8} (h : pull.At contents ahead current held)
    (hlen : contents.length ≤ contents'.length)
    (hhead : ∀ r, ahead.head? = some r → ahead'.head? = some r) :
    pull.At contents' ahead' current held := by
  cases pull with
  | idle => exact h
  | space => exact h
  | peek => exact ⟨h.1, h.2.trans hlen⟩
  | record size =>
    obtain ⟨hempty, r, hr, hsize⟩ := h
    exact ⟨hempty, r, hhead r hr, hsize⟩
  | advance size => exact h
  | read size => exact h

theorem Framed.empty : Framed [] .idle [] [] [] where
  fits _ hr := absurd hr List.not_mem_nil
  partly_le := Nat.zero_le _
  split := ⟨[], [], [], rfl, rfl, rfl, rfl⟩

/-- The write of a size. -/
theorem Framed.append_size (h : Framed contents pull pulled written []) (hr : Fits r) :
    Framed (contents ++ sizeBytes r) pull pulled written [r] where
  fits x hx := by
    rcases List.mem_append.mp hx with hx | hx
    · exact h.fits x (List.mem_append_left _ hx)
    · rw [List.mem_singleton.mp hx]
      exact hr
  partly_le := le_refl _
  split := by
    obtain ⟨current, pending, held, hwritten, hcontents, hat⟩ := h.split
    refine ⟨current, pending, held, hwritten, ?_, hat.mono ?_ ?_⟩
    · rw [hcontents, List.flatMap_nil, List.append_nil, List.flatMap_singleton]
    · exact (List.length_append ..).symm ▸ Nat.le_add_right _ _
    · intro x hx
      rw [List.append_nil] at hx
      rw [List.head?_append, hx]
      rfl

/-- The write of the string that completes a record. -/
theorem Framed.append_string (h : Framed contents pull pulled written [r]) :
    Framed (contents ++ (r ++ [0])) pull pulled (written ++ [r]) [] where
  fits x hx := h.fits x (by rwa [List.append_nil] at hx)
  partly_le := Nat.zero_le _
  split := by
    obtain ⟨current, pending, held, hwritten, hcontents, hat⟩ := h.split
    refine ⟨current, pending ++ [r], held, ?_, ?_, hat.mono ?_ ?_⟩
    · rw [← hwritten, List.append_assoc _ pending]
    · rw [hcontents, List.flatMap_append, List.flatMap_singleton, List.flatMap_singleton,
        List.flatMap_nil, List.append_nil]
      unfold recordBytes
      simp only [List.append_assoc]
    · exact (List.length_append ..).symm ▸ Nat.le_add_right _ _
    · intro x hx
      rwa [List.append_nil]

/-- A readable size is that of the record ahead. -/
theorem peek_size {pending : List (List UInt8)}
    (hlen : sizeofSize ≤ (pending.flatMap recordBytes ++ partly.flatMap sizeBytes).length) :
    ∃ r, (pending ++ partly).head? = some r ∧
      (pending.flatMap recordBytes ++ partly.flatMap sizeBytes).take sizeofSize =
        sizeBytes r := by
  cases pending with
  | cons r pending =>
    refine ⟨r, rfl, ?_⟩
    unfold recordBytes
    rw [List.flatMap_cons, List.append_assoc, List.append_assoc]
    exact List.take_left' (length_sizeBytes r)
  | nil =>
    cases partly with
    | cons r partly =>
      refine ⟨r, rfl, ?_⟩
      rw [List.flatMap_nil, List.nil_append, List.flatMap_cons]
      exact List.take_left' (length_sizeBytes r)
    | nil => exact absurd hlen (by decide)

/-- A size alone is less than its record. -/
theorem Framed.partly_bytes (h : Framed contents pull pulled written partly) :
    (partly.flatMap sizeBytes).length ≤ sizeofSize := by
  have hle := h.partly_le
  cases partly with
  | nil => exact Nat.zero_le _
  | cons x rest =>
    obtain rfl : rest = [] :=
      List.length_eq_zero_iff.mp (Nat.le_zero.mp (Nat.le_of_succ_le_succ hle))
    rw [List.flatMap_singleton, length_sizeBytes]

/-- A record has at least its size. -/
theorem eq_nil_of_records {pending : List (List UInt8)} (h : pending.flatMap recordBytes = []) :
    pending = [] := by
  cases pending with
  | nil => rfl
  | cons r pending =>
    have hlen := congrArg List.length h
    rw [List.flatMap_cons, List.length_append, length_recordBytes, List.length_nil] at hlen
    omega

/-- **A step of the pulling thread** keeps the framing, frees room at most, and stays in its
buffer: a size in the ring is that of a string that fits. -/
theorem pullStep_framed {s s' : Messages ρ} {written partly : List (List UInt8)}
    (h : Framed (R.contents s.rbMsg) s.pull s.pulled written partly) (hstr : s.pullStr.Within)
    (hs : s.pullStep R = some s') :
    Framed (R.contents s'.rbMsg) s'.pull s'.pulled written partly ∧
      (R.contents s'.rbMsg).length ≤ (R.contents s.rbMsg).length ∧ s'.pullStr.Within ∧
      s'.push = s.push ∧ s'.pushStr = s.pushStr ∧ s'.space = s.space ∧ s'.wrote = s.wrote ∧
        s'.pushed = s.pushed := by
  obtain ⟨current, pending, held, hwritten, hcontents, hat⟩ := h.split
  unfold pullStep at hs
  cases hpc : s.pull with
  | idle => rw [hpc] at hs; cases hs
  | space =>
    -- both answers leave the ring alone; a positive one stays true as the ring grows
    rw [hpc] at hat
    obtain ⟨rfl, rfl⟩ := hat
    simp only [hpc] at hs
    split at hs
    · next hspace =>
      obtain rfl := Option.some.inj hs
      rw [R.readSpace_eq] at hspace
      exact ⟨⟨h.fits, h.partly_le, [], pending, [], hwritten, hcontents, ⟨rfl, rfl⟩, hspace⟩,
        le_refl _, hstr, rfl, rfl, rfl, rfl, rfl⟩
    · obtain rfl := Option.some.inj hs
      exact ⟨⟨h.fits, h.partly_le, [], pending, [], hwritten, hcontents, rfl, rfl⟩,
        le_refl _, hstr, rfl, rfl, rfl, rfl, rfl⟩
  | peek =>
    -- the first bytes are a size, even where its string has not been written
    rw [hpc] at hat
    obtain ⟨⟨rfl, rfl⟩, hlen⟩ := hat
    rw [List.nil_append] at hcontents
    rw [hcontents] at hlen
    obtain ⟨r, hr, htake⟩ := peek_size hlen
    have hpeek : R.peek s.rbMsg sizeofSize = sizeBytes r := by
      rw [R.peek_eq, hcontents, htake]
    simp only [hpc, hpeek, ofLE_sizeBytes] at hs
    obtain rfl := Option.some.inj hs
    exact ⟨⟨h.fits, h.partly_le, [], pending, [], hwritten, hcontents, ⟨rfl, rfl⟩, r, hr, rfl⟩,
      le_refl _, hstr, rfl, rfl, rfl, rfl, rfl⟩
  | record size =>
    -- the size that has been read is that of a string that fits, so the sum does not wrap
    rw [hpc] at hat
    obtain ⟨⟨rfl, rfl⟩, r, hr, rfl⟩ := hat
    rw [List.nil_append] at hcontents
    have hfits : Fits r := by
      refine h.fits r ?_
      rw [← hwritten, List.append_nil, List.append_assoc]
      exact List.mem_append_right _ (List.mem_of_mem_head? hr)
    simp only [hpc, hfits.needed_eq] at hs
    split at hs
    · next hspace =>
      obtain rfl := Option.some.inj hs
      rw [R.readSpace_eq, hcontents] at hspace
      cases pending with
      | cons x rest =>
        obtain rfl : x = r := by simpa using hr
        refine ⟨⟨h.fits, h.partly_le, [x], rest, recordBytes x, ?_, ?_, x, rfl, rfl, rfl⟩,
          le_refl _, hstr, rfl, rfl, rfl, rfl, rfl⟩
        · rw [← hwritten, List.append_nil, List.append_assoc]
          rfl
        · rw [hcontents, List.flatMap_cons]
      | nil =>
        -- the other thread has written the size only, so the test for the record fails
        have hle := h.partly_bytes
        rw [List.flatMap_nil, List.nil_append] at hspace
        omega
    · obtain rfl := Option.some.inj hs
      exact ⟨⟨h.fits, h.partly_le, [], pending, [], hwritten, hcontents, rfl, rfl⟩,
        le_refl _, hstr, rfl, rfl, rfl, rfl, rfl⟩
  | advance size =>
    -- the whole record is there, and its size goes
    rw [hpc] at hat
    obtain ⟨r, rfl, rfl, rfl⟩ := hat
    have hsplit : R.contents s.rbMsg =
        sizeBytes r ++ ((r ++ [0]) ++ pending.flatMap recordBytes ++ partly.flatMap sizeBytes) := by
      rw [hcontents]
      unfold recordBytes
      simp only [List.append_assoc]
    have hadvance := R.readAdvance_append hsplit
    rw [length_sizeBytes] at hadvance
    simp only [hpc] at hs
    obtain rfl := Option.some.inj hs
    refine ⟨⟨h.fits, h.partly_le, [r], pending, r ++ [0], hwritten, hadvance, r, rfl, rfl, rfl⟩,
      ?_, hstr, rfl, rfl, rfl, rfl, rfl⟩
    show (R.contents (R.readAdvance s.rbMsg sizeofSize)).length ≤ _
    rw [hadvance, hsplit, @List.length_append _ (sizeBytes r)]
    exact Nat.le_add_left _ _
  | read size =>
    -- the string goes, and its bytes are those that `str` receives
    rw [hpc] at hat
    obtain ⟨r, rfl, rfl, rfl⟩ := hat
    have hfits : Fits r := by
      refine h.fits r (List.mem_append_left _ ?_)
      rw [← hwritten, List.append_assoc]
      exact List.mem_append_right _ List.mem_cons_self
    rw [List.append_assoc] at hcontents
    obtain ⟨hrest, hbytes⟩ := R.read_append hcontents
    have hlen : (r ++ [0]).length = (sizeOf r).toNat := by
      rw [hfits.toNat_sizeOf, List.length_append, List.length_singleton]
    rw [hlen] at hrest hbytes
    simp only [hpc, hbytes, hfits.stringOf_eq] at hs
    obtain rfl := Option.some.inj hs
    refine ⟨⟨h.fits, h.partly_le, [], pending, [], ?_, hrest, rfl, rfl⟩, ?_, ?_, rfl, rfl, rfl,
      rfl, rfl⟩
    · rw [← hwritten, List.append_nil]
    · show (R.contents (R.read s.rbMsg (sizeOf r).toNat).1).length ≤ _
      rw [hrest, hcontents, @List.length_append _ (r ++ [0])]
      exact Nat.le_add_left _ _
    · refine max_le hstr ?_
      rw [List.length_append]
      exact hfits.short

end Framing

/-! ### Runs -/

section Runs

variable {R} {s s' : Messages ρ}

theorem PushPc.Room.mono {pc : PushPc} {now now' space wrote : ℕ} {mem : ByteMemory.Memory}
    (h : pc.Room now space wrote mem) (hle : now ≤ now') : pc.Room now' space wrote mem := by
  cases pc with
  | idle => trivial
  | space r => exact h
  | size r => exact ⟨h.1, h.2.1, h.2.2.1, h.2.2.2.1, h.2.2.2.2.trans hle⟩
  | str r => exact ⟨h.1, h.2.1, h.2.2.1, h.2.2.2.1, h.2.2.2.2.trans hle⟩

theorem accepted_finish (s : Messages ρ) (string : List UInt8) (room : Bool) :
    (s.finish string room).accepted = if room then s.accepted ++ [string] else s.accepted := by
  unfold accepted finish
  cases room <;> simp

/-- **A step of the pushing thread.** Its writes fit, because it has looked for the room and the
other thread only frees some. -/
theorem Inv.pushStep (hi : Inv R s) (h : s.pushStep R = some s') : Inv R s' := by
  obtain ⟨hroom, hframed, hwhole, hstr⟩ := hi
  unfold Messages.pushStep at h
  cases hpc : s.push with
  | idle => rw [hpc] at h; cases h
  | space r =>
    rw [hpc] at hroom hframed
    obtain ⟨hfits, hmem, hwrote⟩ := hroom
    simp only [hpc, hfits.needed_eq] at h
    split at h
    · next hspace =>
      -- no room, and nothing has been written
      obtain rfl := Option.some.inj h
      refine ⟨trivial, ?_, ?_, hstr⟩
      · rw [accepted_finish, if_neg Bool.false_ne_true]
        exact hframed
      · intro x hx
        rcases List.mem_append.mp hx with hx | hx
        · exact hwhole x hx
        · rw [List.mem_singleton.mp hx]
          exact ⟨(decide_eq_false (Nat.not_le.mpr hspace)).symm, hwrote⟩
    · next hspace =>
      obtain rfl := Option.some.inj h
      have hle := Nat.le_of_not_lt hspace
      exact ⟨⟨hfits, hmem, hwrote, hle, hle⟩, hframed, hwhole, hstr⟩
  | size r =>
    -- the size fits, and behind it the string still does
    rw [hpc] at hroom hframed
    obtain ⟨hfits, hmem, hwrote, hspace, hnow⟩ := hroom
    have hlen : (sizeBytes r).length + (r ++ [0]).length ≤ R.writeSpace s.rbMsg := by
      rwa [length_sizeBytes, List.length_append]
    have hfit := Nat.le_trans (Nat.le_add_right _ _) hlen
    have hleft := R.fits_after_write hlen
    have hcount : (R.write s.rbMsg (sizeBytes r)).2 = sizeofSize :=
      (R.write_count_of_fits hfit).trans (length_sizeBytes r)
    simp only [hpc] at h
    obtain rfl := Option.some.inj h
    refine ⟨⟨hfits, hmem, ?_, hspace, ?_⟩, ?_, hwhole, hstr⟩
    · show s.wrote + (R.write s.rbMsg (sizeBytes r)).2 = _
      rw [hwrote, hcount, Nat.zero_add]
    · rwa [List.length_append] at hleft
    · show Framed (R.contents (R.write s.rbMsg (sizeBytes r)).1) _ _ _ [r]
      rw [R.contents_write_of_fits hfit]
      exact hframed.append_size hfits
  | str r =>
    -- `str` still holds what `vsprintf` has left, so the record is completed
    rw [hpc] at hroom hframed
    obtain ⟨hfits, hmem, hwrote, hspace, hnow⟩ := hroom
    have hlen : (r ++ [0]).length ≤ R.writeSpace s.rbMsg := by rwa [List.length_append]
    simp only [hpc, hfits.toNat_sizeOf, hmem, R.write_count_of_fits hlen, hwrote] at h
    obtain rfl := Option.some.inj h
    refine ⟨trivial, ?_, ?_, hstr⟩
    · rw [accepted_finish, if_pos rfl]
      show Framed (R.contents (R.write s.rbMsg (r ++ [0])).1) _ _ _ []
      rw [R.contents_write_of_fits hlen]
      exact hframed.append_string
    · intro x hx
      rcases List.mem_append.mp hx with hx | hx
      · exact hwhole x hx
      · rw [List.mem_singleton.mp hx]
        refine ⟨(decide_eq_true hspace).symm, ?_⟩
        show sizeofSize + (r ++ [0]).length = _
        rw [List.length_append]
        rfl

/-- What a run keeps as long as `str` has been large enough. -/
def Safe (R : ByteRing ρ ringbufSize) (s : Messages ρ) : Prop := s.pushStr.Within → Inv R s

theorem step_push {text : List UInt8} (h : step R s (.push text) = some s') :
    s.push = .idle ∧ s' = { s with
      pushStr := s.pushStr.put (text ++ [0])
      push := .space (stringOf text)
      wrote := 0 } := by
  unfold step at h
  simp only at h
  split at h
  · next hidle => exact ⟨hidle, (Option.some.inj h).symm⟩
  · cases h

theorem step_pull (h : step R s .pull = some s') :
    s.pull = .idle ∧ s' = { s with pull := .space } := by
  unfold step at h
  simp only at h
  split at h
  · next hidle => exact ⟨hidle, (Option.some.inj h).symm⟩
  · cases h

theorem pushStep_pushStr (h : s.pushStep R = some s') : s'.pushStr = s.pushStr := by
  unfold Messages.pushStep at h
  cases hpc : s.push <;> simp only [hpc] at h
  · cases h
  · split at h <;> · obtain rfl := Option.some.inj h; rfl
  · obtain rfl := Option.some.inj h
    rfl
  · obtain rfl := Option.some.inj h
    rfl

theorem pullStep_pushStr (h : s.pullStep R = some s') : s'.pushStr = s.pushStr := by
  unfold Messages.pullStep at h
  cases hpc : s.pull <;> simp only [hpc] at h
  · cases h
  · split at h <;> · obtain rfl := Option.some.inj h; rfl
  · obtain rfl := Option.some.inj h
    rfl
  · split at h <;> · obtain rfl := Option.some.inj h; rfl
  · obtain rfl := Option.some.inj h
    rfl
  · obtain rfl := Option.some.inj h
    rfl

/-- How a step changes the buffer of `tjost_host_message_push`. -/
theorem step_pushStr {l : Label} (h : step R s l = some s') :
    s'.pushStr = match l with
      | .push text => s.pushStr.put (text ++ [0])
      | _ => s.pushStr := by
  cases l with
  | push text =>
    obtain ⟨-, rfl⟩ := step_push h
    rfl
  | pusher => exact pushStep_pushStr h
  | pull =>
    obtain ⟨-, rfl⟩ := step_pull h
    rfl
  | puller => exact pullStep_pushStr h

/-- `str` is large enough behind a step if it is in front of it and for the step. -/
theorem within_iff {l : Label} (h : step R s l = some s') :
    s'.pushStr.Within ↔ s.pushStr.Within ∧ Short l := by
  rw [step_pushStr h]
  cases l with
  | push text =>
    show max _ _ ≤ strSize ↔ _
    rw [max_le_iff, List.length_append]
    rfl
  | pusher => exact (and_iff_left trivial).symm
  | pull => exact (and_iff_left trivial).symm
  | puller => exact (and_iff_left trivial).symm

/-- **A step of either thread**, with a short expansion if it is the start of a push. -/
theorem Inv.step (hi : Inv R s) {l : Label} (hshort : Short l)
    (h : Messages.step R s l = some s') : Inv R s' := by
  cases l with
  | push text =>
    -- only here is the length of the expansion needed
    obtain ⟨hidle, rfl⟩ := step_push h
    have hframed := hi.framed
    rw [hidle] at hframed
    exact ⟨⟨fits_stringOf hshort, stringOf_put s.pushStr text, rfl⟩, hframed, hi.whole,
      hi.pullStr⟩
  | pusher => exact hi.pushStep h
  | pull =>
    -- a call that starts holds nothing of the ring, as no call does
    obtain ⟨hidle, rfl⟩ := step_pull h
    obtain ⟨current, pending, held, hwritten, hcontents, hat⟩ := hi.framed.split
    rw [hidle] at hat
    exact ⟨hi.room, ⟨hi.framed.fits, hi.framed.partly_le, current, pending, held, hwritten,
      hcontents, hat⟩, hi.whole, hi.pullStr⟩
  | puller =>
    obtain ⟨hframed, hle, hstr, hpush, hpushStr, hspace, hwrote, hpushed⟩ :=
      pullStep_framed hi.framed hi.pullStr h
    have haccepted : s'.accepted = s.accepted := by
      unfold accepted
      rw [hpushed]
    refine ⟨?_, ?_, ?_, hstr⟩
    · -- the room that the other thread has found can only have grown
      rw [hpush, hspace, hwrote, hpushStr]
      refine hi.room.mono ?_
      rw [R.writeSpace_eq, R.writeSpace_eq]
      omega
    · rwa [hpush, haccepted]
    · rw [hpushed]
      exact hi.whole

theorem Safe.step (hs : Safe R s) {l : Label} (h : Messages.step R s l = some s') : Safe R s' := by
  intro hwithin
  obtain ⟨hbefore, hshort⟩ := (within_iff h).mp hwithin
  exact (hs hbefore).step hshort h

/-- As long as `str` has been large enough, the channel is faithful. -/
theorem Safe.faithful_iff_within (hs : Safe R s) : Faithful R s ↔ s.pushStr.Within := by
  refine ⟨Faithful.pushStr, fun hwithin => ?_⟩
  obtain ⟨-, hframed, hwhole, hstr⟩ := hs hwithin
  obtain ⟨current, pending, held, hwritten, hcontents, hat⟩ := hframed.split
  refine ⟨?_, ?_, hwhole, hwithin, hstr⟩
  · rw [← hwritten, List.append_assoc]
    exact List.prefix_append _ _
  · intro hempty hidle
    -- no call holds a string, and an empty ring has none pending
    rw [hidle] at hat
    obtain ⟨rfl, rfl⟩ := hat
    rw [hempty, List.nil_append] at hcontents
    have hnil := List.append_eq_nil_iff.mp hcontents.symm
    have hpending : pending = [] := eq_nil_of_records hnil.1
    rw [← hwritten, hpending, List.append_nil, List.append_nil]

theorem Init.safe (h : Init R s) : Safe R s ∧ s.pushStr.Within := by
  obtain ⟨hring, hpush, hpushed, hreach, hpull, hpulled, hpullReach⟩ := h
  have hnone : s.accepted = [] := by
    unfold accepted
    rw [hpushed]
    rfl
  refine ⟨fun _ => ⟨?_, ?_, ?_, ?_⟩, ?_⟩
  · rw [hpush]
    trivial
  · rw [hring, hpush, hpull, hpulled, hnone]
    exact Framed.empty
  · rw [hpushed]
    exact fun _ hx => absurd hx List.not_mem_nil
  · unfold Str.Within
    rw [hpullReach]
    exact Nat.zero_le _
  · unfold Str.Within
    rw [hreach]
    exact Nat.zero_le _

/-- **When the message channel is faithful**: along a run, as long as no expansion is longer
than 1023 bytes. -/
theorem strings_iff {ls : List Label} (hs : Init R s) (hrun : (machine R).exec s ls = some s') :
    (∀ ls' t, ls' <+: ls → (machine R).exec s ls' = some t → Faithful R t) ↔
      (machine R).Meets (fun _ l => Short l) s ls := by
  obtain ⟨hsafe, hwithin⟩ := Init.safe hs
  refine (machine R).meets_iff (S := Safe R) (I := Faithful R) ?_ ?_ hsafe
    (hsafe.faithful_iff_within.mpr hwithin) hrun
  · exact fun s l s' hs h => Safe.step hs h
  · intro s l s' hs hi h
    rw [(Safe.step hs h).faithful_iff_within, within_iff h]
    exact and_iff_right hi.pushStr

end Runs

/-- An empty channel. -/
def start : Messages (ByteRing.Fifo ringbufSize) where
  rbMsg := ByteRing.Fifo.empty ringbufSize ringbufSize_pos
  pushStr := ⟨fun _ => 0, 0⟩
  push := .idle
  space := 0
  wrote := 0
  pushed := []
  pullStr := ⟨fun _ => 0, 0⟩
  pull := .idle
  pulled := []

theorem start_init : Init (ByteRing.fifo ringbufSize) start := ⟨rfl, rfl, rfl, rfl, rfl, rfl, rfl⟩

/-- A pull between the two writes of a push, and one behind it. -/
theorem strings_iff_pulled :
    let ls : List Label := [.push [104, 105], .pusher, .pusher, .pull, .puller, .puller, .puller,
      .pusher, .pull, .puller, .puller, .puller, .puller, .puller]
    ∃ s, (machine (ByteRing.fifo ringbufSize)).exec start ls = some s ∧
      s.pulled = [[104, 105]] ∧ Faithful (ByteRing.fifo ringbufSize) s := by
  intro ls
  have hrun : ((machine (ByteRing.fifo ringbufSize)).exec start ls).map Messages.pulled =
      some [[104, 105]] := by
    decide +kernel
  obtain ⟨s, hs, hpulled⟩ := Option.map_eq_some_iff.mp hrun
  refine ⟨s, hs, hpulled, ?_⟩
  exact (strings_iff start_init hs).mpr (by decide +kernel) ls s (List.prefix_refl ls) hs

/-- **A script that prints 1024 characters.** Both buffers are written behind their end. -/
theorem print_overruns :
    ∃ s, (machine (ByteRing.fifo ringbufSize)).exec start
        [.push (List.replicate 1024 97), .pusher, .pusher, .pusher, .pull, .puller, .puller,
          .puller, .puller, .puller] = some s ∧
      s.pushStr.reach = 1025 ∧ s.pullStr.reach = 1025 ∧
      ¬ Faithful (ByteRing.fifo ringbufSize) s := by
  have hrun : ((machine (ByteRing.fifo ringbufSize)).exec start
      [.push (List.replicate 1024 97), .pusher, .pusher, .pusher, .pull, .puller, .puller,
        .puller, .puller, .puller]).map (fun s => (s.pushStr.reach, s.pullStr.reach)) =
          some (1025, 1025) := by
    decide +kernel
  obtain ⟨s, hs, hreach⟩ := Option.map_eq_some_iff.mp hrun
  obtain ⟨hpush, hpull⟩ := Prod.mk.inj hreach
  refine ⟨s, hs, hpush, hpull, fun h => ?_⟩
  have hle : 1025 ≤ strSize := hpush ▸ h.pushStr
  exact absurd hle (by decide)

end Messages

end Tjost
