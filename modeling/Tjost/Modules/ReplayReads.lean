import Mathlib.Order.WellFounded
import Tjost.Modules.Recording

/-!
# The reads of the replay

`_asio` of `mod_read.c` does not look at what its calls of `fread` answer. Here they may
fail at any byte, which sets no end-of-file flag, and the file may hold any bytes.

A `Round` is what the environment does to one iteration. `Reader.body` is the iteration
under it, and agrees with that of the replay machine where no read fails
(`Replay.reader_body`). `Reader.after` is the run of the loop along a sequence of rounds.

`Reader.robust_iff`: the loop terminates, asks for no more than `TJOST_BUF_SIZE` bytes and
only passes on records that it has read in full, if and only if every iteration gets a
size that fits and is complete where it is accepted (`Reader.Ok`), and there is none from
which on all reads fail while the pipe has room.
-/

open ByteMemory

namespace Tjost

/-- `fread` of `n` bytes, with the number of bytes after which there is an error, if there
is one. Answers the bytes that are read, those that are left, and whether the end-of-file
flag is set. -/
def fread (error : Option ℕ) (n : ℕ) (file : List UInt8) : List UInt8 × List UInt8 × Bool :=
  match error with
  | some k =>
    if k < n ∧ k ≤ file.length then (file.take k, file.drop k, false)
    else (file.take n, file.drop n, file.length < n)
  | none => (file.take n, file.drop n, file.length < n)

/-- The file holds the bytes, and there is no error in front of the last of them. -/
def Completes (error : Option ℕ) (n : ℕ) (file : List UInt8) : Prop :=
  n ≤ file.length ∧ ∀ k ∈ error, n ≤ k

/-- What the environment does to an iteration of the loop. -/
structure Round where
  /-- The errors of the three reads. -/
  errors : Option ℕ × Option ℕ × Option ℕ
  /-- What `ntime` and `nsize` are behind `ntohl` if they are not read. -/
  oldTime : UInt32
  oldSize : UInt32
  /-- What the thread of the host takes off the pipe before and behind the call of
  `tjost_pipe_produce`. -/
  drains : List ℕ × List ℕ
  deriving DecidableEq, Repr

/-- What the three reads leave. -/
structure Taken where
  time : UInt32
  size : UInt32
  /-- The bytes that have been put into `dat->buffer`. -/
  bytes : List UInt8
  file : List UInt8
  eof : Bool
  deriving DecidableEq, Repr

/-- A word that has been read, or what the variable is otherwise. -/
def word (old : UInt32) (bytes : List UInt8) : UInt32 :=
  if bytes.length = 4 then UInt32.ofNat (Bytes.ofBE bytes) else old

/-- The three calls of `fread` of an iteration. -/
def Round.take (r : Round) (file : List UInt8) : Taken :=
  let (ntime, file, eof₁) := fread r.errors.1 4 file
  let (nsize, file, eof₂) := fread r.errors.2.1 4 file
  let size := word r.oldSize nsize
  let (bytes, file, eof₃) := fread r.errors.2.2 size.toNat file
  ⟨word r.oldTime ntime, size, bytes, file, eof₁ || eof₂ || eof₃⟩

/-- What `_asio` of `mod_read.c` works on. -/
@[ext] structure Reader (ρ : Type) where
  /-- The bytes of the file that have not been read. -/
  file : List UInt8
  /-- `feof(dat->f)`. -/
  eof : Bool
  /-- The memory from `dat->buffer` on. -/
  buffer : ByteMemory.Memory
  pipe : ρ

namespace Reader

variable {ρ : Type} (R : ByteRing ρ ringbufSize) (C : OscChecker) (stale : Stale)
  (module : ModulePtr)

/-- The thread of the host takes bytes off the pipe. -/
def drain (ns : List ℕ) (pipe : ρ) : ρ := ns.foldl (fun pipe n => (R.read pipe n).1) pipe

/-- The bytes that `osc_check_message` gets. -/
def payload (r : Round) (s : Reader ρ) : List UInt8 :=
  read (write s.buffer 0 (r.take s.file).bytes) 0 (r.take s.file).size.toNat

/-- How many bytes the third read is asked for. -/
def request (r : Round) (s : Reader ρ) : ℕ := (r.take s.file).size.toNat

/-- What is passed to `tjost_pipe_produce`. -/
def passed (r : Round) (s : Reader ρ) : List Packet :=
  if C.checkMessage (payload r s) then [((r.take s.file).time, payload r s)] else []

/-- The body of the loop. -/
def body (r : Round) (s : Reader ρ) : Reader ρ :=
  let t := r.take s.file
  let buffer := write s.buffer 0 t.bytes
  let pipe := drain R r.drains.1 s.pipe
  let pipe := (passed C r s).foldl (fun pipe p => (pipeProduce R stale pipe module p.1 p.2).1) pipe
  { file := t.file, eof := s.eof || t.eof, buffer, pipe := drain R r.drains.2 pipe }

/-- The test of the loop. -/
def Guard (s : Reader ρ) : Prop := s.eof = false ∧ bufSize < R.writeSpace s.pipe

/-- The state in which the test is made for the `k`-th time, if the loop goes so far. -/
def after (ω : ℕ → Round) (s : Reader ρ) : ℕ → Reader ρ
  | 0 => s
  | k + 1 => (after ω s k).body R C stale module (ω k)

/-- The `k`-th iteration is made. -/
def Runs (ω : ℕ → Round) (s : Reader ρ) (k : ℕ) : Prop :=
  ∀ j ≤ k, (after R C stale module ω s j).Guard R

/-- The third read is in bounds, and what is passed on is what the file held. -/
structure Sound (r : Round) (s : Reader ρ) : Prop where
  bounded : request r s ≤ bufSize
  whole : ∀ p ∈ passed C r s, s.file = Write.encode p ++ (r.take s.file).file

/-- **A robust call of `_asio`.** The loop ends, and all of its iterations are sound. -/
structure Robust (ω : ℕ → Round) (s : Reader ρ) : Prop where
  terminates : ∃ k, ¬ Runs R C stale module ω s k
  sound : ∀ k, Runs R C stale module ω s k → Sound C (ω k) (after R C stale module ω s k)

/-- The reads of a record that the file holds, none of which fails. The size is the second
word of the file. -/
structure Complete (r : Round) (file : List UInt8) : Prop where
  time : Completes r.errors.1 4 file
  size : Completes r.errors.2.1 4 (file.drop 4)
  bytes : Completes r.errors.2.2 (UInt32.ofNat (Bytes.ofBE ((file.drop 4).take 4))).toNat
    ((file.drop 4).drop 4)

/-- **The condition on an iteration.** The size fits the buffer, and the reads are complete
if what is in the buffer is a message. -/
structure Ok (r : Round) (s : Reader ρ) : Prop where
  size : (r.take s.file).size.toNat ≤ bufSize
  complete : C.IsMessage (payload r s) → Complete r s.file

/-- All reads fail before the first byte. -/
def Fails (r : Round) : Prop :=
  r.errors.1 = some 0 ∧ r.errors.2.1 = some 0 ∧ (r.oldSize = 0 ∨ r.errors.2.2 = some 0)

/-! ### The reads -/

section Reads

variable {error : Option ℕ} {n : ℕ} {file : List UInt8} {r : Round}

theorem fread_append (error : Option ℕ) (n : ℕ) (file : List UInt8) :
    (fread error n file).1 ++ (fread error n file).2.1 = file := by
  unfold fread
  split
  · split
    · exact List.take_append_drop _ _
    · exact List.take_append_drop _ _
  · exact List.take_append_drop _ _

theorem fread_of_completes (h : Completes error n file) :
    fread error n file = (file.take n, file.drop n, false) := by
  obtain ⟨hlen, herror⟩ := h
  have hflag : decide (file.length < n) = false := decide_eq_false (Nat.not_lt.mpr hlen)
  unfold fread
  cases error with
  | none => rw [hflag]
  | some k =>
    have hk : n ≤ k := herror k rfl
    simp only
    rw [if_neg (by omega), hflag]

/-- A read gets what it is asked for at most, and all of it only if it completes. -/
theorem length_fread (error : Option ℕ) (n : ℕ) (file : List UInt8) :
    (fread error n file).1.length ≤ n ∧
      ((fread error n file).1.length = n → Completes error n file) := by
  unfold fread Completes
  cases error with
  | none =>
    simp only [List.length_take]
    refine ⟨Nat.min_le_left _ _, fun h => ⟨min_eq_left_iff.mp h, ?_⟩⟩
    intro k hk
    cases hk
  | some k =>
    simp only
    split
    · next hk =>
      -- the error comes before the end of the read
      rw [List.length_take, Nat.min_eq_left hk.2]
      refine ⟨hk.1.le, fun h => absurd h hk.1.ne⟩
    · next hk =>
      rw [List.length_take]
      refine ⟨Nat.min_le_left _ _, fun h => ?_⟩
      have hlen := min_eq_left_iff.mp h
      refine ⟨hlen, fun j hj => ?_⟩
      obtain rfl : k = j := Option.some.inj hj
      omega

/-- A read that gets nothing and sets no flag has failed, or was asked for nothing. -/
theorem fread_stuck_iff :
    ((fread error n file).2.1.length = file.length ∧ (fread error n file).2.2 = false) ↔
      n = 0 ∨ error = some 0 := by
  have hwhole : ((file.drop n).length = file.length ∧ decide (file.length < n) = false) ↔
      n = 0 := by
    rw [List.length_drop, decide_eq_false_iff_not]
    omega
  unfold fread
  cases error with
  | none => simpa using hwhole
  | some k =>
    simp only
    split
    · next hk =>
      rw [List.length_drop, Option.some_inj]
      simp only [and_true]
      omega
    · next hk =>
      rw [hwhole, Option.some_inj]
      omega

/-- A word is what the four bytes say. -/
theorem toBE_word (old : UInt32) {bytes : List UInt8} (h : bytes.length = 4) :
    Bytes.toBE 4 (word old bytes).toNat = bytes := by
  -- four bytes fit into the word
  have hlt : Bytes.ofBE bytes < 2 ^ 32 := by
    have hlt := Bytes.ofBE_lt bytes
    rw [h] at hlt
    exact hlt
  unfold word
  rw [if_pos h, UInt32.toNat_ofNat', Nat.mod_eq_of_lt hlt, ← h, Bytes.toBE_ofBE]

/-- A complete round takes the two words and the bytes of one record. -/
theorem Complete.take_eq (h : Complete r file) :
    r.take file = ⟨word r.oldTime (file.take 4), word r.oldSize ((file.drop 4).take 4),
      ((file.drop 4).drop 4).take (word r.oldSize ((file.drop 4).take 4)).toNat,
      ((file.drop 4).drop 4).drop (word r.oldSize ((file.drop 4).take 4)).toNat, false⟩ := by
  have hlen : ((file.drop 4).take 4).length = 4 := by
    rw [List.length_take, Nat.min_eq_left h.size.1]
  have hbytes := h.bytes
  unfold Round.take
  simp only [fread_of_completes h.time, fread_of_completes h.size]
  unfold word at *
  simp only [hlen, if_true, fread_of_completes hbytes]
  rfl

/-- The bytes a read gets and those it leaves. -/
theorem fread_length (error : Option ℕ) (n : ℕ) (file : List UInt8) :
    (fread error n file).1.length + (fread error n file).2.1.length = file.length := by
  rw [← List.length_append, fread_append]

/-- A round takes bytes off the file. -/
theorem take_file_le (r : Round) (file : List UInt8) :
    (r.take file).file.length ≤ file.length := by
  have hlen₁ := fread_length r.errors.1 4 file
  have hlen₂ := fread_length r.errors.2.1 4 (fread r.errors.1 4 file).2.1
  have hlen₃ := fread_length r.errors.2.2 (r.take file).size.toNat
    (fread r.errors.2.1 4 (fread r.errors.1 4 file).2.1).2.1
  show (fread r.errors.2.2 (r.take file).size.toNat
    (fread r.errors.2.1 4 (fread r.errors.1 4 file).2.1).2.1).2.1.length ≤ _
  omega

/-- A round that takes the length of a whole record is complete. -/
theorem complete_of_length
    (h : 8 + (r.take file).size.toNat + (r.take file).file.length = file.length) :
    Complete r file := by
  have hlen₁ := fread_length r.errors.1 4 file
  have hle₁ := length_fread r.errors.1 4 file
  have hlen₂ := fread_length r.errors.2.1 4 (fread r.errors.1 4 file).2.1
  have hle₂ := length_fread r.errors.2.1 4 (fread r.errors.1 4 file).2.1
  set size := word r.oldSize (fread r.errors.2.1 4 (fread r.errors.1 4 file).2.1).1 with hsize
  have hlen₃ := fread_length r.errors.2.2 size.toNat
    (fread r.errors.2.1 4 (fread r.errors.1 4 file).2.1).2.1
  have hle₃ := length_fread r.errors.2.2 size.toNat
    (fread r.errors.2.1 4 (fread r.errors.1 4 file).2.1).2.1
  replace h : 8 + size.toNat + (fread r.errors.2.2 size.toNat
    (fread r.errors.2.1 4 (fread r.errors.1 4 file).2.1).2.1).2.1.length = file.length := h
  -- none of the three reads gets less than it is asked for
  have h₁ : Completes r.errors.1 4 file := hle₁.2 (by omega)
  have h₂ := hle₂.2 (by omega)
  have h₃ := hle₃.2 (by omega)
  rw [fread_of_completes h₁] at h₂ h₃ hsize
  rw [fread_of_completes h₂] at h₃ hsize
  refine ⟨h₁, h₂, ?_⟩
  have hword : ((file.drop 4).take 4).length = 4 := by
    rw [List.length_take, Nat.min_eq_left h₂.1]
  unfold word at hsize
  rw [if_pos hword] at hsize
  rwa [hsize] at h₃

variable {ρ : Type} {s : Reader ρ}

theorem length_encode (p : Packet) : (Write.encode p).length = 8 + p.2.length := by
  unfold Write.encode
  rw [List.length_append, List.length_append, Bytes.length_toBE, Bytes.length_toBE]

/-- **A record is what the file held** if and only if the reads of the round are complete. -/
theorem whole_iff : s.file = Write.encode ((r.take s.file).time, payload r s) ++
    (r.take s.file).file ↔ Complete r s.file := by
  constructor
  · -- the record has as many bytes as have gone from the file
    intro h
    have hlen := congrArg List.length h
    rw [List.length_append, length_encode, payload, length_read] at hlen
    exact complete_of_length hlen.symm
  · intro h
    have htake := h.take_eq
    have hfst : (s.file.take 4).length = 4 := by
      rw [List.length_take, Nat.min_eq_left h.time.1]
    have hsnd : ((s.file.drop 4).take 4).length = 4 := by
      rw [List.length_take, Nat.min_eq_left h.size.1]
    -- so the buffer holds nothing else up to the size
    have hthd : (r.take s.file).bytes.length = (r.take s.file).size.toNat := by
      have hsize : (r.take s.file).size =
          UInt32.ofNat (Bytes.ofBE ((s.file.drop 4).take 4)) := by
        rw [htake]
        exact if_pos hsnd
      have hbytes := h.bytes.1
      rw [← hsize] at hbytes
      rw [htake] at hbytes ⊢
      rw [List.length_take, Nat.min_eq_left hbytes]
    have hpayload : payload r s = (r.take s.file).bytes := by
      unfold payload
      rw [← hthd, read_write]
    unfold Write.encode
    rw [hpayload, hthd, UInt32.ofNat_toNat, htake]
    simp only
    rw [toBE_word _ hfst, toBE_word _ hsnd, List.append_assoc, List.append_assoc,
      List.take_append_drop, List.take_append_drop, List.take_append_drop]

/-- A round in which nothing is read and no flag is set is one in which all reads fail. -/
theorem stuck_iff (r : Round) (file : List UInt8) :
    ((r.take file).file.length = file.length ∧ (r.take file).eof = false) ↔ Fails r := by
  set f₁ := fread r.errors.1 4 file with hf₁
  set f₂ := fread r.errors.2.1 4 f₁.2.1 with hf₂
  set f₃ := fread r.errors.2.2 (word r.oldSize f₂.1).toNat f₂.2.1 with hf₃
  have hfile : (r.take file).file = f₃.2.1 := rfl
  have heof : (r.take file).eof = (f₁.2.2 || f₂.2.2 || f₃.2.2) := rfl
  have hlen₁ : f₁.1.length + f₁.2.1.length = file.length := fread_length _ _ _
  have hlen₂ : f₂.1.length + f₂.2.1.length = f₁.2.1.length := fread_length _ _ _
  have hlen₃ : f₃.1.length + f₃.2.1.length = f₂.2.1.length := fread_length _ _ _
  have hstuck₁ : (f₁.2.1.length = file.length ∧ f₁.2.2 = false) ↔
      4 = 0 ∨ r.errors.1 = some 0 := fread_stuck_iff
  have hstuck₂ : (f₂.2.1.length = f₁.2.1.length ∧ f₂.2.2 = false) ↔
      4 = 0 ∨ r.errors.2.1 = some 0 := fread_stuck_iff
  have hstuck₃ : (f₃.2.1.length = f₂.2.1.length ∧ f₃.2.2 = false) ↔
      (word r.oldSize f₂.1).toNat = 0 ∨ r.errors.2.2 = some 0 := fread_stuck_iff
  -- a word of which nothing is read is what it was
  have hold : f₂.1.length = 0 → (word r.oldSize f₂.1).toNat = r.oldSize.toNat := by
    intro hzero
    unfold word
    rw [if_neg (by omega)]
  have hsize : r.oldSize.toNat = 0 ↔ r.oldSize = 0 := by
    rw [← UInt32.toNat_inj]
    rfl
  rw [hfile, heof, Bool.or_eq_false_iff, Bool.or_eq_false_iff]
  unfold Fails
  rw [← hsize]
  constructor
  · -- the lengths add up, so none of the three reads has got anything
    rintro ⟨hlen, ⟨h₁, h₂⟩, h₃⟩
    have hfst := hstuck₁.mp ⟨by omega, h₁⟩
    have hsnd := hstuck₂.mp ⟨by omega, h₂⟩
    have hthd := hstuck₃.mp ⟨by omega, h₃⟩
    rw [hold (by omega)] at hthd
    exact ⟨hfst.resolve_left (by decide), hsnd.resolve_left (by decide), hthd⟩
  · rintro ⟨hfst, hsnd, hthd⟩
    obtain ⟨hlen₁', h₁⟩ := hstuck₁.mpr (Or.inr hfst)
    obtain ⟨hlen₂', h₂⟩ := hstuck₂.mpr (Or.inr hsnd)
    rw [← hold (by omega)] at hthd
    obtain ⟨hlen₃', h₃⟩ := hstuck₃.mpr hthd
    exact ⟨by omega, ⟨h₁, h₂⟩, h₃⟩

end Reads

section Iteration

variable {ρ : Type} {R : ByteRing ρ ringbufSize} {C : OscChecker} {stale : Stale}
  {module : ModulePtr} {r : Round} {s : Reader ρ}

/-- **An iteration is sound** if and only if it meets the condition. -/
theorem sound_iff : Sound C r s ↔ Ok C r s := by
  have hpassed : (∀ p ∈ passed C r s, s.file = Write.encode p ++ (r.take s.file).file) ↔
      (C.IsMessage (payload r s) → Complete r s.file) := by
    unfold passed
    split
    · next hm =>
      rw [List.forall_mem_singleton, whole_iff]
      exact ⟨fun h _ => h, fun h => h ((C.accepts_iff _).mp hm)⟩
    · next hm =>
      refine iff_of_true (fun p hp => absurd hp List.not_mem_nil) ?_
      exact fun h => absurd ((C.accepts_iff _).mpr h) hm
  constructor
  · rintro ⟨hbounded, hwhole⟩
    exact ⟨hbounded, hpassed.mp hwhole⟩
  · rintro ⟨hsize, hcomplete⟩
    exact ⟨hsize, hpassed.mpr hcomplete⟩

end Iteration

section Runs

variable {ρ : Type} {R : ByteRing ρ ringbufSize} {C : OscChecker} {stale : Stale}
  {module : ModulePtr} {ω : ℕ → Round} {s : Reader ρ} {k : ℕ}

theorem after_succ : after R C stale module ω s (k + 1) =
    (after R C stale module ω s k).body R C stale module (ω k) := rfl

theorem file_le (k : ℕ) : (after R C stale module ω s (k + 1)).file.length ≤
    (after R C stale module ω s k).file.length := take_file_le (ω k) _

/-- An iteration behind which the flag is not set, and which has read nothing, has failed. -/
theorem fails_of_stuck (hfile : (after R C stale module ω s (k + 1)).file.length =
      (after R C stale module ω s k).file.length)
    (heof : (after R C stale module ω s (k + 1)).eof = false) : Fails (ω k) :=
  (stuck_iff (ω k) _).mp ⟨hfile, (Bool.or_eq_false_iff.mp heof).2⟩

/-- **A loop that does not end** comes to an iteration from which on all reads fail and the
pipe has room. -/
theorem terminates_iff : (∃ k, ¬ Runs R C stale module ω s k) ↔
    ¬ ∃ k, Runs R C stale module ω s k ∧
      ∀ j ≥ k, Fails (ω j) ∧ bufSize < R.writeSpace (after R C stale module ω s j).pipe := by
  rw [← not_forall, not_iff_not]
  constructor
  · intro hruns
    have hguard : ∀ j, (after R C stale module ω s j).Guard R := fun j => hruns j j (le_refl j)
    -- the rest of the file cannot get shorter for ever
    set rest := fun j => (after R C stale module ω s j).file.length with hrest
    have hanti : Antitone rest := antitone_nat_of_succ_le file_le
    set k := Function.argmin rest with hk
    have hmin : ∀ j ≥ k, rest j = rest k :=
      fun j hj => Nat.le_antisymm (hanti hj) (Function.argmin_le rest j)
    refine ⟨k, hruns k, fun j hj => ⟨?_, (hguard j).2⟩⟩
    refine fails_of_stuck ?_ (hguard (j + 1)).1
    calc rest (j + 1) = rest k := hmin (j + 1) (hj.trans (Nat.le_succ j))
      _ = rest j := (hmin j hj).symm
  · rintro ⟨k, hruns, hstuck⟩
    -- behind the iteration the flag stays as it is
    have heof : ∀ j ≥ k, (after R C stale module ω s j).eof = false := by
      intro j hj
      induction j, hj using Nat.le_induction with
      | base => exact (hruns k (le_refl k)).1
      | succ j hj ih =>
        have hflag := ((stuck_iff (ω j) (after R C stale module ω s j).file).mpr
          (hstuck j hj).1).2
        exact Bool.or_eq_false_iff.mpr ⟨ih, hflag⟩
    -- so the guard holds up to there by assumption, and from there on
    intro n j _
    rcases Nat.le_total j k with hj | hj
    · exact hruns j hj
    · exact ⟨heof j hj, (hstuck j hj).2⟩

/-- **When a call of `_asio` is robust.** -/
theorem robust_iff : Robust R C stale module ω s ↔
    (∀ k, Runs R C stale module ω s k → Ok C (ω k) (after R C stale module ω s k)) ∧
      ¬ ∃ k, Runs R C stale module ω s k ∧
        ∀ j ≥ k, Fails (ω j) ∧ bufSize < R.writeSpace (after R C stale module ω s j).pipe := by
  rw [← terminates_iff]
  constructor
  · rintro ⟨hends, hsound⟩
    exact ⟨fun k hk => sound_iff.mp (hsound k hk), hends⟩
  · rintro ⟨hok, hends⟩
    exact ⟨hends, fun k hk => sound_iff.mpr (hok k hk)⟩

end Runs

/-- The module after `add`, on a file with these bytes behind its header. -/
def start (file : List UInt8) : Reader (ByteRing.Fifo ringbufSize) where
  file
  eof := false
  buffer _ := 0
  pipe := ByteRing.Fifo.empty ringbufSize ringbufSize_pos

/-- No read fails, and the pipe is not drained. -/
def quiet (oldTime oldSize : UInt32) : Round := ⟨(none, none, none), oldTime, oldSize, ([], [])⟩

/-- All reads fail. -/
def failing : Round := ⟨(some 0, some 0, some 0), 0, 0, ([], [])⟩

/-- Rounds that fail leave the pipe empty. -/
theorem after_failing (k : ℕ) :
    let t := after (ByteRing.fifo ringbufSize) Replay.plainChecker ⟨0, 0, 0, 0⟩ 1
      (fun _ => failing) (start [0, 0, 0, 1]) k
    t.file = [0, 0, 0, 1] ∧ t.pipe = ByteRing.Fifo.empty ringbufSize ringbufSize_pos := by
  induction k with
  | zero => exact ⟨rfl, rfl⟩
  | succ k ih =>
    obtain ⟨hfile, hpipe⟩ := ih
    have htake : failing.take [0, 0, 0, 1] = ⟨0, 0, [], [0, 0, 0, 1], false⟩ := rfl
    rw [after_succ]
    unfold body passed payload
    rw [hfile, htake, hpipe]
    exact ⟨rfl, rfl⟩

/-- **Three ways to go wrong.** A size of 65536 bytes in the file, a file that ends behind
the two words of its second record, where the bytes of the first are used again, and a
device that fails. -/
theorem not_robust :
    let R := ByteRing.fifo ringbufSize
    let robust := Robust R Replay.plainChecker ⟨0, 0, 0, 0⟩ 1
    ¬ robust (fun _ => quiet 0 0) (start [0, 0, 0, 1, 0, 1, 0, 0]) ∧
      ¬ robust (fun _ => quiet 0 0)
        (start [0, 0, 0, 1, 0, 0, 0, 8, 47, 97, 0, 0, 44, 0, 0, 0, 0, 0, 0, 2, 0, 0, 0, 8]) ∧
      ¬ robust (fun _ => failing) (start [0, 0, 0, 1]) := by
  intro R robust
  refine ⟨?_, ?_, ?_⟩
  · -- 65536 bytes are read into the buffer
    intro h
    have hruns : Runs R Replay.plainChecker ⟨0, 0, 0, 0⟩ 1 (fun _ => quiet 0 0)
        (start [0, 0, 0, 1, 0, 1, 0, 0]) 0 := by
      intro j hj
      obtain rfl := Nat.le_zero.mp hj
      exact ⟨rfl, by decide⟩
    exact absurd (h.sound 0 hruns).bounded (by decide)
  · intro h
    have hruns : Runs R Replay.plainChecker ⟨0, 0, 0, 0⟩ 1 (fun _ => quiet 0 0)
        (start [0, 0, 0, 1, 0, 0, 0, 8, 47, 97, 0, 0, 44, 0, 0, 0, 0, 0, 0, 2, 0, 0, 0, 8]) 1 := by
      intro j hj
      rcases Nat.le_one_iff_eq_zero_or_eq_one.mp hj with rfl | rfl
      · exact ⟨rfl, by decide⟩
      · exact ⟨by decide +kernel, by decide +kernel⟩
    -- the bytes of the first iteration, with the time and the size of the second
    have hwhole := (h.sound 1 hruns).whole (2, [47, 97, 0, 0, 44, 0, 0, 0]) (by decide +kernel)
    exact absurd hwhole (by decide +kernel)
  · -- `feof` never holds
    intro h
    refine terminates_iff.mp h.terminates ⟨0, ?_, ?_⟩
    · intro j hj
      obtain rfl := Nat.le_zero.mp hj
      exact ⟨rfl, by decide⟩
    · intro j _
      refine ⟨⟨rfl, rfl, Or.inl rfl⟩, ?_⟩
      rw [(after_failing j).2]
      decide

end Reader

/-- The module `read` without the counters of the replay machine. -/
def Replay.reader {ρ : Type} (s : Replay ρ) : Reader ρ := ⟨s.file, s.eof, s.buffer, s.pipe⟩

/-- **The iteration of the replay machine** is that of a round without errors. -/
theorem Replay.reader_body {ρ : Type} (R : ByteRing ρ ringbufSize) (C : OscChecker)
    (stale : Stale) (module : ModulePtr) (s : Replay ρ) (oldTime oldSize : UInt32) :
    (s.body R C stale module oldTime oldSize).reader =
      s.reader.body R C stale module (Reader.quiet oldTime oldSize) := by
  have hword : ∀ old file, freadWord old file = (word old (fread none 4 file).1,
      (fread none 4 file).2.1, (fread none 4 file).2.2) := by
    intro old file
    unfold freadWord fread word
    simp only [List.length_take]
    by_cases hlen : 4 ≤ file.length
    · rw [if_pos hlen, if_pos (Nat.min_eq_left hlen), decide_eq_false (Nat.not_lt.mpr hlen)]
    · have hdrop : file.drop 4 = [] := List.drop_eq_nil_iff.mpr (by omega)
      rw [if_neg hlen, if_neg (by omega), decide_eq_true (Nat.lt_of_not_le hlen), hdrop]
  -- the machine sets the flag after every read, and the round once
  have heof : ∀ a b c d : Bool, (((a || b) || c) || d) = (a || ((b || c) || d)) := by decide
  unfold Replay.body
  simp only [hword]
  split
  · next hm =>
    have hpassed : Reader.passed C (Reader.quiet oldTime oldSize) s.reader = [_] := if_pos hm
    unfold Reader.body
    rw [hpassed]
    apply Reader.ext
    · rfl
    · exact heof ..
    · rfl
    · rfl
  · next hm =>
    have hpassed : Reader.passed C (Reader.quiet oldTime oldSize) s.reader = [] := if_neg hm
    unfold Reader.body
    rw [hpassed]
    apply Reader.ext
    · rfl
    · exact heof ..
    · rfl
    · rfl

end Tjost
