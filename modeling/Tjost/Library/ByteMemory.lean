import Mathlib.Data.List.Basic
import Mathlib.Data.List.Range
import Mathlib.Order.Interval.Set.Basic
import Mathlib.Tactic.Common

/-!
# Byte memory

A memory is a function from addresses to bytes. `write` puts a string at an
address and `read` takes the bytes of a range. `SameOutside p q` is the frame of a
piece of code that works on the addresses from `p` up to `q`.
-/

namespace ByteMemory

abbrev Memory := ℕ → UInt8

/-- Put the string `bs` at the address `p`. -/
def write (mem : Memory) (p : ℕ) (bs : List UInt8) : Memory :=
  fun i => if p ≤ i then (bs[i - p]?).getD (mem i) else mem i

/-- The `n` bytes at the address `p`. -/
def read (mem : Memory) (p n : ℕ) : List UInt8 := (List.range' p n).map mem

variable {mem mem' mem'' : Memory} {p q : ℕ} {bs : List UInt8}

@[simp] theorem length_read (mem : Memory) (p n : ℕ) : (read mem p n).length = n := by
  simp [read]

theorem write_of_lt {i : ℕ} (h : i < p) : write mem p bs i = mem i := if_neg (Nat.not_le.mpr h)

theorem write_of_ge {i : ℕ} (h : p + bs.length ≤ i) : write mem p bs i = mem i := by
  have hnone : bs[i - p]? = none := List.getElem?_eq_none (by omega)
  unfold write
  rw [if_pos (by omega), hnone]
  rfl

theorem getElem?_read {n i : ℕ} (h : i < n) : (read mem p n)[i]? = some (mem (p + i)) := by
  unfold read
  rw [List.getElem?_map, List.getElem?_range' h, Nat.one_mul]
  rfl

theorem read_succ (mem : Memory) (p n : ℕ) : read mem p (n + 1) = mem p :: read mem (p + 1) n := rfl

theorem read_add (mem : Memory) (p m n : ℕ) :
    read mem p (m + n) = read mem p m ++ read mem (p + m) n := by
  unfold read
  rw [← List.map_append, ← List.range'_append_1]

/-- The same bytes at two addresses. -/
theorem read_eq_read {n : ℕ} (h : ∀ i < n, mem (p + i) = mem' (q + i)) :
    read mem p n = read mem' q n := by
  refine List.ext_getElem? fun i => ?_
  by_cases hi : i < n
  · rw [getElem?_read hi, getElem?_read hi, h i hi]
  · rw [List.getElem?_eq_none (by rw [length_read]; omega),
      List.getElem?_eq_none (by rw [length_read]; omega)]

theorem take_read {m n : ℕ} (h : m ≤ n) (mem : Memory) (p : ℕ) :
    (read mem p n).take m = read mem p m := by
  have hlen := length_read mem p m
  calc (read mem p n).take m = (read mem p m ++ read mem (p + m) (n - m)).take m := by
        rw [← read_add, Nat.add_sub_of_le h]
    _ = (read mem p m).take m := List.take_append_of_le_length hlen.ge
    _ = read mem p m := List.take_of_length_le hlen.le

/-- A byte is stored. -/
theorem read_update (mem : Memory) (p i n : ℕ) (byte : UInt8) :
    read (Function.update mem (p + i) byte) p n = (read mem p n).set i byte := by
  refine List.ext_getElem? fun j => ?_
  by_cases hj : j < n
  · rw [getElem?_read hj, List.getElem?_set]
    by_cases hij : i = j
    · rw [if_pos hij, if_pos (by rw [length_read]; omega), hij, Function.update_self]
    · rw [if_neg hij, getElem?_read hj, Function.update_of_ne (by omega)]
  · rw [List.getElem?_eq_none (by rw [length_read]; omega),
      List.getElem?_eq_none (by rw [List.length_set, length_read]; omega)]

theorem write_nil (mem : Memory) (p : ℕ) : write mem p [] = mem := by
  funext i
  unfold write
  split <;> rfl

/-- Two writes one after the other. -/
theorem write_append (mem : Memory) (p : ℕ) (as bs : List UInt8) :
    write mem p (as ++ bs) = write (write mem p as) (p + as.length) bs := by
  funext i
  by_cases hlo : i < p + as.length
  · rw [write_of_lt hlo]
    unfold write
    split
    · rw [List.getElem?_append_left (by omega)]
    · rfl
  · have hi : i - p - as.length = i - (p + as.length) := by omega
    have hsame : write mem p as i = mem i := write_of_ge (by omega)
    unfold write at hsame ⊢
    rw [if_pos (by omega), if_pos (by omega), List.getElem?_append_right (by omega), hi, hsame]

/-- A write in front of another one. -/
theorem write_front (mem : Memory) (p : ℕ) (as bs : List UInt8) :
    write (write mem (p + as.length) bs) p as = write mem p (as ++ bs) := by
  rw [write_append]
  funext i
  by_cases hlo : i < p + as.length
  · rw [write_of_lt hlo]
    unfold write
    split
    · rw [if_neg (by omega)]
    · rw [if_neg (by omega)]
  · rw [write_of_ge (by omega)]
    unfold write
    rw [if_pos (by omega), if_pos (by omega), if_pos (by omega),
      List.getElem?_eq_none (l := as) (by omega)]
    rfl

/-- What has been written is read. -/
theorem read_write (mem : Memory) (p : ℕ) (bs : List UInt8) :
    read (write mem p bs) p bs.length = bs := by
  refine List.ext_getElem? fun i => ?_
  by_cases hi : i < bs.length
  · rw [getElem?_read hi, List.getElem?_eq_getElem hi]
    unfold write
    rw [if_pos (Nat.le_add_right p i), Nat.add_sub_cancel_left, List.getElem?_eq_getElem hi]
    rfl
  · rw [List.getElem?_eq_none (by rw [length_read]; omega), List.getElem?_eq_none (by omega)]

/-! ### Frames -/

/-- The memories differ between `p` and `q` at most. -/
def SameOutside (p q : ℕ) (mem mem' : Memory) : Prop := ∀ i, i < p ∨ q ≤ i → mem' i = mem i

theorem SameOutside.refl (p q : ℕ) (mem : Memory) : SameOutside p q mem mem := fun _ _ => rfl

theorem SameOutside.write (mem : Memory) {r : ℕ} (hlo : r ≤ p) (hhi : p + bs.length ≤ q) :
    SameOutside r q mem (write mem p bs) := by
  intro i hi
  rcases hi with hi | hi
  · exact write_of_lt (by omega)
  · exact write_of_ge (by omega)

theorem SameOutside.trans (h : SameOutside p q mem mem') (h' : SameOutside p q mem' mem'') :
    SameOutside p q mem mem'' := fun i hi => (h' i hi).trans (h i hi)

theorem SameOutside.mono {r t : ℕ} (h : SameOutside p q mem mem') (hr : r ≤ p) (ht : q ≤ t) :
    SameOutside r t mem mem' := fun i hi => h i (by omega)

/-! ### Agreement -/

/-- A string written into two memories: they agree on it, too. -/
theorem eqOn_write {S : Set ℕ} (h : Set.EqOn mem mem' S) (p : ℕ) (bs : List UInt8) :
    Set.EqOn (write mem p bs) (write mem' p bs) (S ∪ Set.Ico p (p + bs.length)) := by
  intro i hi
  by_cases hin : p ≤ i ∧ i < p + bs.length
  · have hbyte : bs[i - p]? = some bs[i - p] := List.getElem?_eq_getElem (by omega)
    unfold write
    rw [if_pos hin.1, if_pos hin.1, hbyte]
    rfl
  · have hmem : mem i = mem' i := h (hi.resolve_right hin)
    rcases Nat.lt_or_ge i p with hlt | hge
    · rw [write_of_lt hlt, write_of_lt hlt, hmem]
    · have hend : p + bs.length ≤ i := by omega
      rw [write_of_ge hend, write_of_ge hend, hmem]

/-- Bytes that agree are read alike. -/
theorem read_congr {n : ℕ} (h : Set.EqOn mem mem' (Set.Ico p (p + n))) :
    read mem p n = read mem' p n := by
  unfold read
  refine List.map_congr_left fun i hi => h ?_
  obtain ⟨hlo, hhi⟩ := List.mem_range'_1.mp hi
  exact ⟨hlo, hhi⟩

end ByteMemory
