import Mathlib.Tactic.Common

/-!
# Bitmaps

A word as a set of small numbers. Setting and clearing a bit, and cutting off the bits below one,
say for every bit what becomes of it. The number of trailing zeros is the least member
(`ctz_mem`, `ctz_le`), and what is left of the leading zeros is the binary logarithm
(`sub_clz_eq_log2`).
-/

namespace Bitmap

variable {w i j : ℕ} {m : BitVec w}

theorem getLsbD_set (m : BitVec w) (hi : i < w) :
    (m ||| (1#w <<< i)).getLsbD j = (decide (j = i) || m.getLsbD j) := by
  rw [BitVec.getLsbD_or, BitVec.getLsbD_shiftLeft, BitVec.getLsbD_one]
  rcases Nat.lt_trichotomy j i with h | rfl | h
  · simp [h, Nat.ne_of_lt h]
  · simp [hi, Nat.lt_of_le_of_lt (Nat.zero_le j) hi]
  · simp [Nat.ne_of_gt h, Nat.sub_ne_zero_of_lt h]

theorem getLsbD_clear (m : BitVec w) (hi : i < w) :
    (m &&& ~~~(1#w <<< i)).getLsbD j = (!decide (j = i) && m.getLsbD j) := by
  rw [BitVec.getLsbD_and, BitVec.getLsbD_not, BitVec.getLsbD_shiftLeft, BitVec.getLsbD_one]
  by_cases hj : j < w
  · rcases Nat.lt_trichotomy j i with h | rfl | h
    · simp [h, Nat.ne_of_lt h, hj]
    · simp [hi, Nat.lt_of_le_of_lt (Nat.zero_le j) hi]
    · simp [Nat.ne_of_gt h, Nat.sub_ne_zero_of_lt h, hj]
  · simp [BitVec.getLsbD_of_ge m j (Nat.le_of_not_lt hj)]

theorem getLsbD_from (m : BitVec w) (i : ℕ) :
    (m &&& (BitVec.allOnes w <<< i)).getLsbD j = (decide (i ≤ j) && m.getLsbD j) := by
  rw [BitVec.getLsbD_and, BitVec.getLsbD_shiftLeft, BitVec.getLsbD_allOnes]
  by_cases hj : j < w
  · by_cases hij : i ≤ j
    · simp [hj, hij, Nat.not_lt.mpr hij, Nat.lt_of_le_of_lt (Nat.sub_le j i) hj]
    · simp [hj, hij, Nat.lt_of_not_le hij]
  · simp [BitVec.getLsbD_of_ge m j (Nat.le_of_not_lt hj)]

theorem eq_zero_iff : m = 0 ↔ ∀ j, m.getLsbD j = false := by
  rw [BitVec.eq_of_getLsbD_eq_iff]
  constructor
  · intro h j
    by_cases hj : j < w
    · simpa using h j hj
    · exact BitVec.getLsbD_of_ge m j (Nat.le_of_not_lt hj)
  · intro h j _
    simpa using h j

theorem ne_zero_iff : m ≠ 0 ↔ ∃ j, m.getLsbD j = true := by
  rw [Ne, eq_zero_iff]
  push Not
  simp

theorem and_single_ne_zero_iff (m : BitVec w) (i : ℕ) :
    m &&& (1#w <<< i) ≠ 0 ↔ m.getLsbD i = true := by
  have hbit : ∀ j, (m &&& (1#w <<< i)).getLsbD j = (m.getLsbD j && decide (j = i)) := by
    intro j
    rw [BitVec.getLsbD_and, BitVec.getLsbD_shiftLeft, BitVec.getLsbD_one]
    by_cases hj : j < w
    · rcases Nat.lt_trichotomy j i with h | rfl | h
      · simp [h, Nat.ne_of_lt h]
      · simp [hj, Nat.lt_of_le_of_lt (Nat.zero_le j) hj]
      · simp [Nat.ne_of_gt h, Nat.sub_ne_zero_of_lt h]
    · simp [BitVec.getLsbD_of_ge m j (Nat.le_of_not_lt hj)]
  rw [ne_zero_iff]
  constructor
  · rintro ⟨j, hj⟩
    rw [hbit, Bool.and_eq_true, decide_eq_true_eq] at hj
    exact hj.2 ▸ hj.1
  · intro hi
    exact ⟨i, by rw [hbit, hi, decide_eq_true rfl, Bool.and_self]⟩

/-! ### Scans -/

theorem ctz_mem (h : m ≠ 0) : m.getLsbD m.ctz.toNat = true := BitVec.getLsbD_true_ctz_of_ne_zero h

theorem ctz_le (hj : m.getLsbD j = true) : m.ctz.toNat ≤ j := by
  by_contra hlt
  rw [BitVec.getLsbD_false_of_lt_ctz (Nat.lt_of_not_le hlt)] at hj
  cases hj

theorem ctz_lt (h : m ≠ 0) : m.ctz.toNat < w := by
  by_contra hge
  have hbit := ctz_mem h
  rw [BitVec.getLsbD_of_ge m _ (Nat.le_of_not_lt hge)] at hbit
  cases hbit

/-- The highest bit. -/
theorem sub_clz_eq_log2 (hw : 0 < w) (h : m ≠ 0) : w - m.clz.toNat = m.toNat.log2 + 1 := by
  have hne : m.toNat ≠ 0 := fun hz => h (BitVec.eq_of_toNat_eq (hz.trans rfl))
  have hlo := BitVec.two_pow_sub_clz_le_toNat_of_ne_zero hw h
  have hhi := BitVec.toNat_lt_two_pow_sub_clz (x := m)
  obtain ⟨k, hk⟩ : ∃ k, w - m.clz.toNat = k + 1 := by
    refine Nat.exists_eq_succ_of_ne_zero fun hz => hne ?_
    rw [hz, Nat.pow_zero] at hhi
    omega
  have hk' : w - 1 - m.clz.toNat = k := by omega
  rw [hk'] at hlo
  rw [hk] at hhi ⊢
  rw [(Nat.log2_eq_iff hne).mpr ⟨hlo, hhi⟩]

end Bitmap
