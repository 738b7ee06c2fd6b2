import Tjost.Library.ByteMemory
import Tjost.Library.Bytes

/-!
# Words in byte memory

A word is eight bytes, the least significant one first. Words at different multiples of eight do
not overlap, so a store changes none of the others. `clear` takes the bits of a mask out of a word;
a mask of low bits rounds it down (`clear_mask`).
-/

namespace ByteMemory

/-- The word at the address `p`. -/
def loadWord (mem : Memory) (p : ℕ) : ℕ := Bytes.ofLE (read mem p 8)

/-- Put `x`, modulo `2 ^ 64`, at the address `p`. -/
def storeWord (mem : Memory) (p x : ℕ) : Memory := write mem p (Bytes.toLE 8 x)

variable {mem mem' : Memory} {p q x i : ℕ}

theorem loadWord_lt (mem : Memory) (p : ℕ) : loadWord mem p < 2 ^ 64 := by
  have hlt := Bytes.ofLE_lt (read mem p 8)
  rw [length_read] at hlt
  exact hlt

theorem loadWord_storeWord (mem : Memory) (p : ℕ) (h : x < 2 ^ 64) :
    loadWord (storeWord mem p x) p = x := by
  have hread : read (storeWord mem p x) p 8 = Bytes.toLE 8 x := by
    have hwritten := read_write mem p (Bytes.toLE 8 x)
    rwa [Bytes.length_toLE] at hwritten
  unfold loadWord
  rw [hread]
  exact Bytes.ofLE_toLE_of_lt h

/-- A store keeps the other bytes. -/
theorem storeWord_of_outside (h : i < p ∨ p + 8 ≤ i) : storeWord mem p x i = mem i := by
  rcases h with h | h
  · exact write_of_lt h
  · exact write_of_ge (by rw [Bytes.length_toLE]; exact h)

/-- The second of two stores is left. -/
theorem storeWord_storeWord (mem : Memory) (p x y : ℕ) :
    storeWord (storeWord mem p x) p y = storeWord mem p y := by
  funext i
  by_cases hin : p ≤ i ∧ i < p + 8
  · have hbyte : ∀ z, (Bytes.toLE 8 z)[i - p]? ≠ none := fun z hnone => by
      rw [List.getElem?_eq_none_iff, Bytes.length_toLE] at hnone
      omega
    obtain ⟨b, hb⟩ := Option.ne_none_iff_exists'.mp (hbyte y)
    unfold storeWord write
    simp only [if_pos hin.1, hb, Option.getD_some]
  · rw [storeWord_of_outside (by omega), storeWord_of_outside (by omega),
      storeWord_of_outside (by omega)]

/-- Memories that agree on eight bytes have the same word there. -/
theorem loadWord_congr (h : ∀ i, p ≤ i → i < p + 8 → mem i = mem' i) :
    loadWord mem p = loadWord mem' p := by
  unfold loadWord
  rw [read_congr fun i hi => h i hi.1 hi.2]

theorem loadWord_storeWord_of_apart (h : p + 8 ≤ q ∨ q + 8 ≤ p) :
    loadWord (storeWord mem p x) q = loadWord mem q := by
  refine loadWord_congr fun i hlo hhi => storeWord_of_outside ?_
  omega

/-- **Words at different multiples of eight** do not meet. -/
theorem loadWord_storeWord_of_ne (hp : 8 ∣ p) (hq : 8 ∣ q) (h : q ≠ p) :
    loadWord (storeWord mem p x) q = loadWord mem q := by
  refine loadWord_storeWord_of_apart ?_
  omega

/-! ### Masks -/

/-- The word without the bits of the mask: `w & ~b`. -/
def clear (w b : ℕ) : ℕ := w &&& (2 ^ 64 - 1 - b)

theorem testBit_clear {w b : ℕ} (hw : w < 2 ^ 64) (hb : b < 2 ^ 64) (i : ℕ) :
    (clear w b).testBit i = (w.testBit i && !b.testBit i) := by
  have hsub : 2 ^ 64 - 1 - b = 2 ^ 64 - (b + 1) := by omega
  unfold clear
  rw [Nat.testBit_and, hsub, Nat.testBit_two_pow_sub_succ hb]
  by_cases hi : i < 64
  · simp [hi]
  · have hzero : w.testBit i = false :=
      Nat.testBit_lt_two_pow (lt_of_lt_of_le hw (Nat.pow_le_pow_right (by decide) (by omega)))
    simp [hzero]

/-- A mask of low bits rounds down. -/
theorem clear_mask {w k : ℕ} (hw : w < 2 ^ 64) (hk : k ≤ 64) :
    clear w (2 ^ k - 1) = w / 2 ^ k * 2 ^ k := by
  have hmask : 2 ^ k - 1 < 2 ^ 64 :=
    lt_of_lt_of_le (Nat.sub_one_lt (Nat.pos_iff_ne_zero.mp (Nat.two_pow_pos k)))
      (Nat.pow_le_pow_right (by decide) hk)
  refine Nat.eq_of_testBit_eq fun i => ?_
  rw [testBit_clear hw hmask, Nat.testBit_two_pow_sub_one, Nat.testBit_mul_two_pow,
    Nat.testBit_div_two_pow]
  by_cases hi : i < k
  · simp [hi, Nat.not_le.mpr hi]
  · simp [hi, Nat.le_of_not_lt hi]

end ByteMemory
