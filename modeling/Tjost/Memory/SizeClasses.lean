import Mathlib.Tactic.IntervalCases
import Mathlib.Tactic.Linarith
import Mathlib.Tactic.NormNum
import Tjost.Library.Bitmap
import Tjost.Library.Words

/-!
# The size classes of the allocator

`tlsf.c` keeps its free blocks in lists by size class: a first index for the power of two, and a
second one for the 32 equal parts of it. Blocks of less than 256 bytes have the first index `0`, and
a class for every multiple of eight. The constants are those of a 64-bit build.

`mapping_insert` is the class of a size, which begins with the size `least fl sl`. The classes are
ordered by it (`least_le_iff`). `mapping_search` rounds up, so that every block of the class it
finds, and of every later one, is large enough (`le_least_mappingSearch`).

The bit scans of `tlsfbits.h` have a generic form for compilers without such an instruction. Both
forms agree (`flsGeneric_eq`, `ffsGeneric_eq`).
-/

namespace Tjost.TwoLevel

open ByteMemory

/-! ### Bit scans -/

/-- `tlsf_ffs`: the lowest bit, or `-1`. -/
def ffs (word : BitVec 32) : ℤ := if word = 0 then -1 else word.ctz.toNat

/-- `tlsf_fls`: the highest bit, or `-1`. -/
def fls (word : BitVec 32) : ℤ :=
  let bit : ℤ := if word ≠ 0 then 32 - (word.clz.toNat : ℤ) else 0
  bit - 1

/-- `tlsf_fls_sizet`. -/
def flsSizet (size : ℕ) : ℤ :=
  let high := BitVec.ofNat 32 (size >>> 32)
  if high ≠ 0 then 32 + fls high else fls (BitVec.ofNat 32 size)

/-- `if (!(word & mask)) { word <<= k; bit -= k; }`, with a mask of the `k` highest bits. -/
def flsGenericStep (k : ℕ) (wb : BitVec 32 × ℤ) : BitVec 32 × ℤ :=
  if wb.1 &&& (BitVec.allOnes 32 <<< (32 - k)) = 0 then (wb.1 <<< k, wb.2 - k) else wb

/-- `tlsf_fls_generic`. -/
def flsGeneric (word : BitVec 32) : ℤ :=
  let bit : ℤ := if word = 0 then 32 - 1 else 32
  ([16, 8, 4, 2, 1].foldl (fun wb k => flsGenericStep k wb) (word, bit)).2

/-! ### Sizes -/

/-- `align_up`. -/
def alignUp (x align : ℕ) : ℕ := clear (x + (align - 1)) (align - 1)

/-- `align_down`. -/
def alignDown (x align : ℕ) : ℕ := x - (x &&& (align - 1))

/-- `adjust_request_size`. The least size of a block is 24, and the largest one `2 ^ 32`. -/
def adjustRequestSize (size align : ℕ) : ℕ :=
  if size ≠ 0 ∧ size < 2 ^ 32 then max (alignUp size align) 24 else 0

/-- `mapping_insert`. -/
def mappingInsert (size : ℕ) : ℕ × ℕ :=
  if size < 256 then
    -- small blocks are in the first list
    (0, size / 8)
  else
    let fl := (flsSizet size).toNat
    (fl - 7, (size >>> (fl - 5)) ^^^ 32)

/-- `mapping_search`. -/
def mappingSearch (size : ℕ) : ℕ × ℕ :=
  if 32 ≤ size then
    let round := 2 ^ ((flsSizet size).toNat - 5) - 1
    mappingInsert (size + round)
  else mappingInsert size

/-! ### The bit scans agree -/

section Scans

variable {word : BitVec 32} {size : ℕ}

theorem fls_eq_log2 (h : word ≠ 0) : fls word = (word.toNat.log2 : ℤ) := by
  have hlog := Bitmap.sub_clz_eq_log2 (by decide) h
  unfold fls
  rw [if_pos h]
  change (32 - (word.clz.toNat : ℤ)) - 1 = _
  omega

/-- The highest bit of a `size_t`. -/
theorem flsSizet_eq_log2 (hlt : size < 2 ^ 64) (h : size ≠ 0) :
    flsSizet size = (size.log2 : ℤ) := by
  have hhigh : (BitVec.ofNat 32 (size >>> 32)).toNat = size / 2 ^ 32 := by
    rw [BitVec.toNat_ofNat, Nat.shiftRight_eq_div_pow, Nat.mod_eq_of_lt]
    omega
  unfold flsSizet
  by_cases hne : BitVec.ofNat 32 (size >>> 32) = 0
  · have hzero : size / 2 ^ 32 = 0 := by rw [← hhigh, hne]; rfl
    have hlow : (BitVec.ofNat 32 size).toNat = size := by
      rw [BitVec.toNat_ofNat, Nat.mod_eq_of_lt]
      omega
    have hne' : BitVec.ofNat 32 size ≠ 0 := fun hz => h (by rw [← hlow, hz]; rfl)
    rw [if_neg (not_not.mpr hne), fls_eq_log2 hne', hlow]
  · have hpos : size / 2 ^ 32 ≠ 0 := fun hz => hne (BitVec.eq_of_toNat_eq (hhigh.trans hz))
    have hlog : size.log2 = 32 + (size / 2 ^ 32).log2 := by
      obtain ⟨hlo, hhi⟩ := (Nat.log2_eq_iff hpos).mp rfl
      refine (Nat.log2_eq_iff h).mpr ⟨?_, ?_⟩
      · rw [pow_add]
        omega
      · rw [add_assoc, pow_add]
        omega
    rw [if_pos hne, fls_eq_log2 hne, hhigh, hlog]
    push_cast
    rfl

/-- What one step of the generic scan does: it keeps the position of the highest bit, and brings
it to the upper `k` ones if it was among the upper `2 * k` ones. -/
theorem flsGenericStep_spec {k m : ℕ} {wb : BitVec 32 × ℤ} (hk : k + m = 32) (h : wb.1 ≠ 0)
    (hlog : m ≤ wb.1.toNat.log2 + k) :
    (flsGenericStep k wb).1 ≠ 0 ∧ m ≤ (flsGenericStep k wb).1.toNat.log2 ∧
      ((flsGenericStep k wb).1.toNat.log2 : ℤ) + (flsGenericStep k wb).2 =
        (wb.1.toNat.log2 : ℤ) + wb.2 := by
  have hne : wb.1.toNat ≠ 0 := fun hz => h (BitVec.eq_of_toNat_eq hz)
  obtain ⟨hlo, hhi⟩ := (Nat.log2_eq_iff hne).mp rfl
  have hm : 32 - k = m := by omega
  unfold flsGenericStep
  rw [hm]
  split
  · next hzero =>
    -- none of the upper bits is set, so none is shifted out
    have hlt : wb.1.toNat < 2 ^ m := by
      refine Nat.lt_pow_two_of_testBit _ fun i hi => ?_
      have hbit := Bitmap.eq_zero_iff.mp hzero i
      rw [Bitmap.getLsbD_from, decide_eq_true hi, Bool.true_and] at hbit
      exact hbit
    have hval : (wb.1 <<< k).toNat = wb.1.toNat * 2 ^ k := by
      rw [BitVec.toNat_shiftLeft, Nat.shiftLeft_eq, Nat.mod_eq_of_lt]
      calc wb.1.toNat * 2 ^ k < 2 ^ m * 2 ^ k := Nat.mul_lt_mul_of_pos_right hlt (Nat.two_pow_pos k)
        _ = 2 ^ 32 := by rw [← pow_add, Nat.add_comm m k, hk]
    have hlog' : (wb.1 <<< k).toNat.log2 = wb.1.toNat.log2 + k := by
      rw [hval]
      refine (Nat.log2_eq_iff (Nat.mul_ne_zero hne (Nat.two_pow_pos k).ne')).mpr ⟨?_, ?_⟩
      · rw [pow_add]
        exact Nat.mul_le_mul_right _ hlo
      · rw [Nat.add_right_comm, pow_add]
        exact Nat.mul_lt_mul_of_pos_right hhi (Nat.two_pow_pos k)
    refine ⟨fun hz => ?_, ?_, ?_⟩
    · have hz' : (wb.1 <<< k).toNat = 0 := congrArg BitVec.toNat hz
      exact Nat.mul_ne_zero hne (Nat.two_pow_pos k).ne' (hval.symm.trans hz')
    · simp only [hlog']
      exact hlog
    · simp only [hlog']
      push_cast
      omega
  · next hsome =>
    refine ⟨h, ?_, rfl⟩
    obtain ⟨i, hi⟩ := Bitmap.ne_zero_iff.mp hsome
    rw [Bitmap.getLsbD_from, Bool.and_eq_true, decide_eq_true_eq] at hi
    exact hi.1.trans ((Nat.le_log2 hne).mpr (Nat.ge_two_pow_of_testBit hi.2))

/-- The generic scan from the highest bit. -/
theorem flsGeneric_eq (word : BitVec 32) : flsGeneric word - 1 = fls word := by
  by_cases h : word = 0
  · subst h
    decide
  · have hne : word.toNat ≠ 0 := fun hz => h (BitVec.eq_of_toNat_eq hz)
    have hword : word.toNat.log2 < 32 := (Nat.log2_lt hne).mpr word.isLt
    rw [fls_eq_log2 h]
    unfold flsGeneric
    rw [if_neg h]
    simp only [List.foldl_cons, List.foldl_nil]
    -- the highest bit comes to the upper 16 ones, 8 ones, and so on
    obtain ⟨h₁, l₁, e₁⟩ := @flsGenericStep_spec 16 16 (word, 32) rfl h
      (by simp only; omega)
    obtain ⟨h₂, l₂, e₂⟩ := flsGenericStep_spec (k := 8) (m := 24) rfl h₁ (by omega)
    obtain ⟨h₃, l₃, e₃⟩ := flsGenericStep_spec (k := 4) (m := 28) rfl h₂ (by omega)
    obtain ⟨h₄, l₄, e₄⟩ := flsGenericStep_spec (k := 2) (m := 30) rfl h₃ (by omega)
    obtain ⟨h₅, l₅, e₅⟩ := flsGenericStep_spec (k := 1) (m := 31) rfl h₄ (by omega)
    have hlast := (Nat.log2_lt (fun hz => h₅ (BitVec.eq_of_toNat_eq hz))).mpr (BitVec.isLt _)
    simp only at e₁
    omega

/-- `word & (~word + 1)` is the lowest bit. -/
theorem and_neg_eq (h : word ≠ 0) : word &&& (~~~word + 1) = 1#32 <<< word.ctz.toNat := by
  have hlt := Bitmap.ctz_lt h
  have hmem := Bitmap.ctz_mem h
  refine BitVec.eq_of_getLsbD_eq fun i hi => ?_
  have hshift := Bitmap.getLsbD_set (j := i) (0#32) hlt
  rw [BitVec.zero_or, BitVec.getLsbD_zero, Bool.or_false] at hshift
  have hneg : ~~~word + 1 = -word := (BitVec.neg_eq_not_add word).symm
  rw [hshift, hneg, BitVec.getLsbD_and, BitVec.getLsbD_neg, decide_eq_true hi,
    Bool.true_and]
  rcases Nat.lt_trichotomy i word.ctz.toNat with hlo | rfl | hhi
  · rw [BitVec.getLsbD_false_of_lt_ctz hlo, Bool.false_and, decide_eq_false (by omega)]
  · have hnone : ¬ ∃ j < word.ctz.toNat, word.getLsbD j = true := by
      rintro ⟨j, hj, hbit⟩
      exact absurd (Bitmap.ctz_le hbit) (by omega)
    rw [hmem, decide_eq_false hnone]
    simp
  · rw [decide_eq_true ⟨word.ctz.toNat, hhi, hmem⟩, decide_eq_false (by omega)]
    cases word.getLsbD i <;> rfl

/-- The generic scan from the lowest bit. -/
theorem ffsGeneric_eq (word : BitVec 32) :
    flsGeneric (word &&& (~~~word + 1)) - 1 = ffs word := by
  by_cases h : word = 0
  · subst h
    decide
  · have hlt := Bitmap.ctz_lt h
    have hval : (1#32 <<< word.ctz.toNat).toNat = 2 ^ word.ctz.toNat := by
      have hpow : 2 ^ word.ctz.toNat < 2 ^ 32 := Nat.pow_lt_pow_right (by decide) hlt
      rw [BitVec.toNat_shiftLeft, Nat.shiftLeft_eq]
      change 1 * 2 ^ word.ctz.toNat % 2 ^ 32 = _
      rw [Nat.one_mul, Nat.mod_eq_of_lt hpow]
    have hne : 1#32 <<< word.ctz.toNat ≠ 0 := by
      intro hz
      rw [hz] at hval
      exact absurd hval.symm (Nat.two_pow_pos _).ne'
    rw [flsGeneric_eq, and_neg_eq h, fls_eq_log2 hne, hval, Nat.log2_two_pow]
    unfold ffs
    rw [if_neg h]

end Scans

/-! ### The classes -/

section Classes

variable {size size' fl sl : ℕ}

/-- The least size of the class. -/
def least (fl sl : ℕ) : ℕ := if fl = 0 then 8 * sl else 2 ^ (fl + 7) + sl * 2 ^ (fl + 2)

/-- The order in which the search goes through the classes. -/
def ClassLE (c c' : ℕ × ℕ) : Prop := c.1 < c'.1 ∨ c.1 = c'.1 ∧ c.2 ≤ c'.2

instance (c c' : ℕ × ℕ) : Decidable (ClassLE c c') := inferInstanceAs (Decidable (_ ∨ _))

private theorem xor_of_le : ∀ v < 64, 32 ≤ v → v ^^^ 32 = v - 32 := by decide

/-- The class of a size from 256 on, by its logarithm. -/
theorem mappingInsert_of_ge (hlt : size < 2 ^ 64) (h : 256 ≤ size) :
    8 ≤ size.log2 ∧ mappingInsert size = (size.log2 - 7, size / 2 ^ (size.log2 - 5) - 32) ∧
      32 ≤ size / 2 ^ (size.log2 - 5) ∧ size / 2 ^ (size.log2 - 5) < 64 := by
  have hne : size ≠ 0 := by omega
  obtain ⟨hlo, hhi⟩ := (Nat.log2_eq_iff hne).mp rfl
  have h8 : 8 ≤ size.log2 := (Nat.le_log2 hne).mpr h
  obtain ⟨k, hk⟩ := Nat.exists_eq_add_of_le' (show 5 ≤ size.log2 by omega)
  have hk5 : size.log2 - 5 = k := by omega
  rw [hk] at hlo hhi
  have hpos := Nat.two_pow_pos k
  have h32 : 32 ≤ size / 2 ^ k := by
    rw [Nat.le_div_iff_mul_le hpos, Nat.mul_comm]
    rwa [pow_add] at hlo
  have h64 : size / 2 ^ k < 64 := by
    rw [Nat.div_lt_iff_lt_mul hpos, Nat.mul_comm]
    rwa [show k + 5 + 1 = k + 6 from rfl, pow_add] at hhi
  refine ⟨h8, ?_, by rw [hk5]; exact h32, by rw [hk5]; exact h64⟩
  unfold mappingInsert
  rw [if_neg (by omega)]
  simp only [flsSizet_eq_log2 hlt hne, Int.toNat_natCast, Nat.shiftRight_eq_div_pow, hk5]
  rw [xor_of_le _ h64 h32]

/-- **The range of a class.** -/
theorem mappingInsert_range (hlt : size < 2 ^ 64) :
    (mappingInsert size).2 < 32 ∧
      least (mappingInsert size).1 (mappingInsert size).2 ≤ size ∧
      size < least (mappingInsert size).1 ((mappingInsert size).2 + 1) := by
  by_cases h : size < 256
  · -- the first list, in steps of eight bytes
    unfold mappingInsert
    rw [if_pos h]
    unfold least
    rw [if_pos rfl, if_pos rfl]
    simp only
    omega
  · -- the leading five bits behind the highest one are the second index
    obtain ⟨h8, hclass, h32, h64⟩ := mappingInsert_of_ge hlt (Nat.le_of_not_lt h)
    have hne : size ≠ 0 := by omega
    obtain ⟨k, hk⟩ := Nat.exists_eq_add_of_le' h8
    have hk5 : size.log2 - 5 = k + 3 := by omega
    have hk7 : size.log2 - 7 = k + 1 := by omega
    have hpos := Nat.two_pow_pos (k + 3)
    have hsum : 2 ^ (k + 8) = 32 * 2 ^ (k + 3) := by rw [pow_add, pow_add]; omega
    have hdiv := Nat.div_add_mod size (2 ^ (k + 3))
    have hmod := Nat.mod_lt size hpos
    rw [hk5] at hclass h32 h64
    rw [hclass, hk7]
    obtain ⟨v, hv⟩ := Nat.exists_eq_add_of_le' h32
    have hv' : size / 2 ^ (k + 3) - 32 = v := by omega
    rw [hv] at hdiv
    have hexp : 2 ^ (k + 3) * (v + 32) = v * 2 ^ (k + 3) + 2 ^ (k + 8) := by rw [hsum]; ring
    unfold least
    rw [if_neg (Nat.succ_ne_zero k), if_neg (Nat.succ_ne_zero k), hv']
    simp only [show k + 1 + 7 = k + 8 from rfl, show k + 1 + 2 = k + 3 from rfl]
    refine ⟨by omega, by omega, ?_⟩
    rw [Nat.add_mul, Nat.one_mul]
    omega

/-- The first index is in the table of 25 for sizes below `2 ^ 32`, and for no others. -/
theorem mappingInsert_fst_lt (hlt : size < 2 ^ 64) :
    (mappingInsert size).1 < 25 ↔ size < 2 ^ 32 := by
  by_cases h : size < 256
  · unfold mappingInsert
    rw [if_pos h]
    simp only
    omega
  · obtain ⟨h8, hclass, -, -⟩ := mappingInsert_of_ge hlt (Nat.le_of_not_lt h)
    have hlog : size.log2 < 32 ↔ size < 2 ^ 32 := Nat.log2_lt (by omega)
    rw [hclass, ← hlog]
    simp only
    omega

theorem least_le_of_le (h : sl ≤ 32) : least fl sl ≤ 2 ^ (fl + 8) := by
  unfold least
  split
  · next hzero =>
    subst hzero
    omega
  · have hsum : 2 ^ (fl + 7) + 32 * 2 ^ (fl + 2) = 2 ^ (fl + 8) := by ring
    have hmul := Nat.mul_le_mul_right (2 ^ (fl + 2)) h
    omega

theorem two_pow_le_least (h : fl ≠ 0) : 2 ^ (fl + 7) ≤ least fl sl := by
  unfold least
  rw [if_neg h]
  exact Nat.le_add_right _ _

/-- Later classes have larger sizes. -/
theorem least_mono {c c' : ℕ × ℕ} (h : ClassLE c c') (hc : c.2 ≤ 32) :
    least c.1 c.2 ≤ least c'.1 c'.2 := by
  obtain ⟨fl, sl⟩ := c
  obtain ⟨fl', sl'⟩ := c'
  rcases h with h | ⟨h, hsl⟩
  · simp only at h
    have hpow : 2 ^ (fl + 8) ≤ 2 ^ (fl' + 7) := Nat.pow_le_pow_right (by decide) (by omega)
    exact (least_le_of_le hc).trans (hpow.trans (two_pow_le_least (by omega)))
  · simp only at h hsl
    subst h
    unfold least
    split
    · exact Nat.mul_le_mul_left 8 hsl
    · exact Nat.add_le_add_left (Nat.mul_le_mul_right _ hsl) _

/-- **The classes are ordered by size.** -/
theorem least_le_iff (hlt : size < 2 ^ 64) (hsl : sl < 32) :
    least fl sl ≤ size ↔ ClassLE (fl, sl) (mappingInsert size) := by
  obtain ⟨h32, hlo, hhi⟩ := mappingInsert_range hlt
  constructor
  · intro hle
    by_contra hnot
    -- the next class after the one of the size is not behind the given one
    have hnext : ClassLE ((mappingInsert size).1, (mappingInsert size).2 + 1) (fl, sl) := by
      unfold ClassLE at hnot ⊢
      simp only at hnot ⊢
      omega
    have hmono := least_mono hnext (by simp only; omega)
    simp only at hmono
    omega
  · intro hle
    exact (least_mono hle (by simp only; omega)).trans hlo

/-- The sizes of a class of a later list. -/
theorem least_succ (hfl : fl ≠ 0) : least fl (sl + 1) = least fl sl + 2 ^ (fl + 2) := by
  unfold least
  rw [if_neg hfl, if_neg hfl, Nat.add_mul, Nat.one_mul, Nat.add_assoc]

/-- **A block of an earlier class** is not larger by more than eight bytes, or a part in 32. -/
theorem lt_of_classLE (hlt : size < 2 ^ 64) (hlt' : size' < 2 ^ 64)
    (h : ClassLE (mappingInsert size) (mappingInsert size')) :
    size < size' + max 8 (size' / 32) := by
  obtain ⟨h32, hlo, hhi⟩ := mappingInsert_range hlt
  obtain ⟨h32', hlo', hhi'⟩ := mappingInsert_range hlt'
  by_cases hnext : ClassLE ((mappingInsert size).1, (mappingInsert size).2 + 1)
      (mappingInsert size')
  · have hmono := least_mono hnext (by simp only; omega)
    simp only at hmono
    omega
  · -- both are in one class
    have hsame : mappingInsert size = mappingInsert size' := by
      unfold ClassLE at h hnext
      simp only at hnext
      ext <;> omega
    rw [hsame] at hhi
    by_cases hfl : (mappingInsert size').1 = 0
    · -- a class of the first list has eight bytes
      unfold least at hlo' hhi
      rw [if_pos hfl] at hlo' hhi
      omega
    · obtain ⟨c, hc⟩ : ∃ c, mappingInsert size' = c := ⟨_, rfl⟩
      rw [hc] at hhi hlo' hfl
      -- a class of a later one is a part in 32 of its least size
      have hpart : 2 ^ (c.1 + 2) ≤ size' / 32 := by
        rw [Nat.le_div_iff_mul_le (by decide)]
        calc 2 ^ (c.1 + 2) * 32 = 2 ^ (c.1 + 7) := by ring
          _ ≤ least c.1 c.2 := two_pow_le_least hfl
          _ ≤ size' := hlo'
      calc size < least c.1 (c.2 + 1) := hhi
        _ = least c.1 c.2 + 2 ^ (c.1 + 2) := least_succ hfl
        _ ≤ size' + size' / 32 := Nat.add_le_add hlo' hpart
        _ ≤ size' + max 8 (size' / 32) := Nat.add_le_add_left (le_max_right 8 _) size'

/-- The size that `mapping_search` looks for. -/
theorem mappingSearch_eq (hlt : size < 2 ^ 64) (h : 32 ≤ size) :
    mappingSearch size = mappingInsert (size + (2 ^ (size.log2 - 5) - 1)) := by
  unfold mappingSearch
  rw [if_pos h]
  simp only [flsSizet_eq_log2 hlt (by omega : size ≠ 0), Int.toNat_natCast]

theorem mappingSearch_snd_lt (hle : size ≤ 2 ^ 32) : (mappingSearch size).2 < 32 := by
  by_cases h : 32 ≤ size
  · have hpow : 2 ^ (size.log2 - 5) ≤ 2 ^ 32 := Nat.pow_le_pow_right (by decide) (by
      have hlog : size.log2 < 33 := (Nat.log2_lt (by omega)).mpr (by omega)
      omega)
    rw [mappingSearch_eq (by omega) h]
    exact (mappingInsert_range (by omega)).1
  · unfold mappingSearch
    rw [if_neg h]
    exact (mappingInsert_range (by omega)).1

/-- Rounding up adds less than a part in 32. -/
theorem round_lt (h : 32 ≤ size) : 2 ^ (size.log2 - 5) - 1 < size / 32 := by
  have hne : size ≠ 0 := by omega
  obtain ⟨hlo, -⟩ := (Nat.log2_eq_iff hne).mp rfl
  obtain ⟨k, hk⟩ := Nat.exists_eq_add_of_le' ((Nat.le_log2 (k := 5) hne).mpr h)
  have hpos := Nat.two_pow_pos k
  rw [hk, pow_add] at hlo
  rw [hk, Nat.add_sub_cancel]
  omega

/-- **The search rounds up.** Every block of the class that it starts with is large enough. -/
theorem le_least_mappingSearch (h8 : 8 ∣ size) (hlt : size ≤ 2 ^ 32) :
    size ≤ least (mappingSearch size).1 (mappingSearch size).2 := by
  by_cases h32 : size < 32
  · -- too small to be rounded: a multiple of eight is the least size of its class
    have hclass : mappingSearch size = (0, size / 8) := by
      unfold mappingSearch mappingInsert
      rw [if_neg (by omega), if_pos (by omega)]
    rw [hclass]
    unfold least
    rw [if_pos rfl]
    omega
  · have hne : size ≠ 0 := by omega
    obtain ⟨hlo, hhi⟩ := (Nat.log2_eq_iff hne).mp rfl
    obtain ⟨k, hk⟩ := Nat.exists_eq_add_of_le'
      ((Nat.le_log2 (k := 5) hne).mpr (Nat.le_of_not_lt h32))
    have hround := round_lt (Nat.le_of_not_lt h32)
    have hpos := Nat.two_pow_pos k
    rw [mappingSearch_eq (by omega) (Nat.le_of_not_lt h32)]
    rw [hk] at hlo hhi
    rw [hk, Nat.add_sub_cancel] at hround ⊢
    by_cases h256 : size + (2 ^ k - 1) < 256
    · -- the parts have eight bytes or less
      have hk2 : k ≤ 2 := by
        by_contra hgt
        have hpow : 2 ^ 8 ≤ 2 ^ (k + 5) := Nat.pow_le_pow_right (by decide) (by omega)
        omega
      have hparts : 2 ^ k ≤ 2 ^ 2 := Nat.pow_le_pow_right (by decide) hk2
      unfold mappingInsert least
      rw [if_pos h256, if_pos rfl]
      simp only
      omega
    · obtain ⟨h8', hclass, h32', h64'⟩ := @mappingInsert_of_ge (size + (2 ^ k - 1))
        (by omega) (Nat.le_of_not_lt h256)
      obtain ⟨hlo', hhi'⟩ := (Nat.log2_eq_iff (by omega : size + (2 ^ k - 1) ≠ 0)).mp rfl
      generalize hL : (size + (2 ^ k - 1)).log2 = L at *
      have hmono : k + 5 ≤ L := by
        by_contra hgt
        have hpow : 2 ^ (L + 1) ≤ 2 ^ (k + 5) := Nat.pow_le_pow_right (by decide) (by omega)
        omega
      rw [hclass]
      rcases Nat.eq_or_lt_of_le hmono with hL5 | hL5
      · -- the rounded size is in the same list: its class is the next multiple of `2 ^ k`
        subst hL5
        have hdiv := Nat.div_add_mod (size + (2 ^ k - 1)) (2 ^ k)
        have hmod := Nat.mod_lt (size + (2 ^ k - 1)) hpos
        rw [Nat.add_sub_cancel] at h32' ⊢
        obtain ⟨v, hv⟩ := Nat.exists_eq_add_of_le' h32'
        rw [hv] at hdiv
        have hsum : 2 ^ k * (v + 32) = 2 ^ (k + 5) + v * 2 ^ k := by ring
        unfold least
        simp only
        rw [if_neg (by omega), hv, Nat.add_sub_cancel, show k + 5 - 7 + 7 = k + 5 by omega,
          show k + 5 - 7 + 2 = k by omega]
        omega
      · -- the rounded size is in a later list than the size itself
        have hpow : 2 ^ (k + 5 + 1) ≤ 2 ^ L := Nat.pow_le_pow_right (by decide) hL5
        have hle := @two_pow_le_least (L - 7) ((size + (2 ^ k - 1)) / 2 ^ (L - 5) - 32)
          (by omega)
        rw [show L - 7 + 7 = L by omega] at hle
        simp only
        omega

/-- The search looks in the table for requests of up to `2 ^ 32 - 2 ^ 26` bytes, and for no larger
ones. -/
theorem mappingSearch_fst_lt (hlt : size ≤ 2 ^ 32) :
    (mappingSearch size).1 < 25 ↔ size ≤ 2 ^ 32 - 2 ^ 26 := by
  by_cases h32 : size < 32
  · unfold mappingSearch
    rw [if_neg (by omega), mappingInsert_fst_lt (by omega)]
    omega
  · have hround := round_lt (Nat.le_of_not_lt h32)
    rw [mappingSearch_eq (by omega) (Nat.le_of_not_lt h32), mappingInsert_fst_lt (by omega)]
    have hne : size ≠ 0 := by omega
    have hlog : size.log2 < 31 ↔ size < 2 ^ 31 := Nat.log2_lt hne
    have hlog' : size.log2 < 32 ↔ size < 2 ^ 32 := Nat.log2_lt hne
    by_cases h31 : size < 2 ^ 31
    · omega
    · by_cases hmax : size = 2 ^ 32
      · omega
      · have hL : size.log2 = 31 := by omega
        rw [hL]
        omega

end Classes

/-! ### Adjusted sizes -/

section Adjust

variable {x size : ℕ}

theorem alignUp_eight (h : x + 7 < 2 ^ 64) : alignUp x 8 = (x + 7) / 8 * 8 :=
  clear_mask (k := 3) h (by decide)

theorem alignDown_eight (x : ℕ) : alignDown x 8 = x / 8 * 8 := by
  have hmod : x &&& (8 - 1) = x % 8 := Nat.and_two_pow_sub_one_eq_mod x 3
  have hdiv := Nat.div_add_mod x 8
  unfold alignDown
  rw [hmod]
  omega

/-- What is looked for in the place of a request that is neither empty nor too large. -/
theorem adjustRequestSize_eq (hne : size ≠ 0) (hlt : size < 2 ^ 32) :
    adjustRequestSize size 8 = max ((size + 7) / 8 * 8) 24 := by
  unfold adjustRequestSize
  rw [if_pos ⟨hne, hlt⟩, alignUp_eight (by omega)]

theorem adjustRequestSize_eq_zero (h : size = 0 ∨ 2 ^ 32 ≤ size) : adjustRequestSize size 8 = 0 :=
  if_neg (by omega)

/-- An adjusted size is one that a block can have. -/
theorem adjustRequestSize_spec (hne : size ≠ 0) (hle : size ≤ 2 ^ 32 - 2 ^ 26) :
    8 ∣ adjustRequestSize size 8 ∧ 24 ≤ adjustRequestSize size 8 ∧
      size ≤ adjustRequestSize size 8 ∧ adjustRequestSize size 8 ≤ 2 ^ 32 - 2 ^ 26 := by
  rw [adjustRequestSize_eq hne (by omega)]
  omega

end Adjust

end Tjost.TwoLevel
