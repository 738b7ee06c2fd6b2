import Mathlib.Data.List.Basic
import Mathlib.Tactic.Common
import Mathlib.Tactic.Ring

/-!
# Byte ring buffers

A ring buffer of `size` bytes keeps one byte free and moves bytes first in,
first out. `ByteRing ρ size` is the interface of such a buffer over a type `ρ`
of states: its operations, the byte string a state holds (`contents`, which no
program reads), and the laws that relate the two. Programs are verified against
the interface, so a result holds of every implementation.

* A transfer moves as many bytes as fit (`write`) or are there (`read`, `peek`).
* `readAdvance` drops bytes that are there. Past the end of the readable bytes
  it is unspecified.
* `getReadVector` shows the readable bytes in two pieces, the second of them
  being what lies behind the wrap of the underlying array.

`Fifo size` implements the interface with a list and the index of its first
byte in the underlying array (`fifo`).
-/

/-- A ring buffer of `size` bytes over the states `ρ`. -/
structure ByteRing (ρ : Type) (size : ℕ) where
  /-- The bytes a state holds, oldest first. -/
  contents : ρ → List UInt8
  /-- Number of bytes that can be written. -/
  writeSpace : ρ → ℕ
  /-- Number of bytes that can be read. -/
  readSpace : ρ → ℕ
  /-- Write what fits. Also answers how much that was. -/
  write : ρ → List UInt8 → ρ × ℕ
  /-- Look at up to `n` bytes without consuming them. -/
  peek : ρ → ℕ → List UInt8
  /-- Drop `n` bytes. -/
  readAdvance : ρ → ℕ → ρ
  /-- Consume up to `n` bytes. -/
  read : ρ → ℕ → ρ × List UInt8
  /-- The readable bytes, split where the array wraps. -/
  getReadVector : ρ → List UInt8 × List UInt8
  contents_length_lt : ∀ r, (contents r).length < size
  writeSpace_eq : ∀ r, writeSpace r = size - 1 - (contents r).length
  readSpace_eq : ∀ r, readSpace r = (contents r).length
  contents_write : ∀ r bs, contents (write r bs).1 = contents r ++ bs.take (writeSpace r)
  write_count : ∀ r bs, (write r bs).2 = min bs.length (writeSpace r)
  peek_eq : ∀ r n, peek r n = (contents r).take n
  contents_readAdvance : ∀ r n, n ≤ readSpace r →
    contents (readAdvance r n) = (contents r).drop n
  contents_read : ∀ r n, contents (read r n).1 = (contents r).drop n
  read_eq : ∀ r n, (read r n).2 = (contents r).take n
  getReadVector_eq : ∀ r, (getReadVector r).1 ++ (getReadVector r).2 = contents r

namespace ByteRing

variable {ρ : Type} {size : ℕ} (R : ByteRing ρ size) {r : ρ} {bs : List UInt8}

/-- A write that fits appends the whole string. -/
theorem contents_write_of_fits (h : bs.length ≤ R.writeSpace r) :
    R.contents (R.write r bs).1 = R.contents r ++ bs := by
  rw [R.contents_write, List.take_of_length_le h]

theorem write_count_of_fits (h : bs.length ≤ R.writeSpace r) :
    (R.write r bs).2 = bs.length := by
  rw [R.write_count, Nat.min_eq_left h]

/-- Room for two strings leaves room for the second one after the first. -/
theorem fits_after_write {bs' : List UInt8}
    (h : bs.length + bs'.length ≤ R.writeSpace r) :
    bs'.length ≤ R.writeSpace (R.write r bs).1 := by
  have hfit : bs.length ≤ R.writeSpace r := by omega
  rw [R.writeSpace_eq] at h ⊢
  rw [R.contents_write_of_fits hfit, List.length_append]
  omega

/-- Bytes in front of the readable string are read off whole. -/
theorem read_append {rest : List UInt8} (h : R.contents r = bs ++ rest) :
    R.contents (R.read r bs.length).1 = rest ∧ (R.read r bs.length).2 = bs := by
  rw [R.contents_read, R.read_eq, h, List.drop_left, List.take_left]
  exact ⟨rfl, rfl⟩

theorem peek_append {rest : List UInt8} (h : R.contents r = bs ++ rest) :
    R.peek r bs.length = bs := by
  rw [R.peek_eq, h, List.take_left]

theorem readAdvance_append {rest : List UInt8} (h : R.contents r = bs ++ rest) :
    R.contents (R.readAdvance r bs.length) = rest := by
  rw [R.contents_readAdvance, h, List.drop_left]
  rw [R.readSpace_eq, h, List.length_append]
  exact Nat.le_add_right _ _

/-! ### An implementation -/

/-- A list of bytes that leaves one byte of the array free, with the array index
of its first byte. -/
structure Fifo (size : ℕ) where
  data : List UInt8
  start : ℕ
  length_lt : data.length < size

/-- The empty buffer. -/
def Fifo.empty (size : ℕ) (h : 0 < size) : Fifo size := ⟨[], 0, h⟩

/-- Drop `n` bytes and move the start along the array. -/
def Fifo.drop (f : Fifo size) (n : ℕ) : Fifo size where
  data := f.data.drop n
  start := (f.start + n) % size
  length_lt := by
    have := f.length_lt
    rw [List.length_drop]
    omega

/-- Append as much of `bs` as fits. -/
def Fifo.append (f : Fifo size) (bs : List UInt8) : Fifo size where
  data := f.data ++ bs.take (size - 1 - f.data.length)
  start := f.start
  length_lt := by
    have := f.length_lt
    rw [List.length_append, List.length_take]
    omega

/-- The list implementation meets the interface. -/
def fifo (size : ℕ) : ByteRing (Fifo size) size where
  contents f := f.data
  writeSpace f := size - 1 - f.data.length
  readSpace f := f.data.length
  write f bs := (f.append bs, min bs.length (size - 1 - f.data.length))
  peek f n := f.data.take n
  readAdvance f n := f.drop n
  read f n := (f.drop n, f.data.take n)
  getReadVector f := (f.data.take (size - f.start), f.data.drop (size - f.start))
  contents_length_lt f := f.length_lt
  writeSpace_eq _ := rfl
  readSpace_eq _ := rfl
  contents_write _ _ := rfl
  write_count _ _ := rfl
  peek_eq _ _ := rfl
  contents_readAdvance _ _ _ := rfl
  contents_read _ _ := rfl
  read_eq _ _ := rfl
  getReadVector_eq _ := List.take_append_drop _ _

end ByteRing
