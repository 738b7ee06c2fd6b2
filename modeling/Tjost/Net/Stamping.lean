import Mathlib.Algebra.Order.Floor.Div
import Mathlib.Data.Rat.Floor
import Mathlib.Tactic.Linarith
import Mathlib.Tactic.NormNum
import Mathlib.Tactic.Positivity
import Mathlib.Tactic.Push
import Mathlib.Tactic.Ring
import Tjost.Lua.Interface

/-!
# Time stamps from the network

`_inject_stamp` of `mod_net.c` makes a JACK time of the timetag of a bundle, with a pair of
clocks that `mod_net_sync` has read together. The arithmetic is that of doubles in the code; here
it is exact, and only the conversion to a `jack_time_t` truncates, modulo `2^64`.

A timetag has 32 bits of seconds, the clock 64, and the code takes the difference of the two. So
it is right up to the year 2036 (`Stamp.dvd_of_era_zero`), when the seconds of timetags start
again (`Stamp.dvd_of_later_era`). A time before the start of JACK is negative, and wraps.

`Stamp.ordered_iff`: two timetags get the times that they should, and so in their order, if and
only if the clock is before 2036 and neither is a microsecond or more before the start of JACK,
up to coincidences in the distant future.
-/

namespace Tjost

namespace Stamp

/-- What `mod_net_sync` has recorded: the seconds since 1900 and nanoseconds of the wall clock,
and the time of JACK in microseconds. -/
structure Sync where
  sec : ℕ
  nsec : ℕ
  jack : ℕ
  sec_lt : sec < 2 ^ 63
  nsec_lt : nsec < 10 ^ 9
  jack_lt : jack < 2 ^ 63

/-- `SLICE`. -/
def slice : ℚ := 1 / 2 ^ 32

/-- `tstamp_sec`. -/
def tstampSec (tstamp : UInt64) : ℕ := tstamp.toNat / 2 ^ 32

/-- `tstamp_frac`. -/
def tstampFrac (tstamp : UInt64) : ℕ := tstamp.toNat % 2 ^ 32

variable (net : Sync) (tstamp : UInt64)

/-- `diff`. -/
def diff : ℚ :=
  let sec : ℚ :=
    if net.sec ≤ tstampSec tstamp then ((tstampSec tstamp : ℤ) - net.sec : ℤ)
    else -((net.sec : ℤ) - tstampSec tstamp : ℤ)
  sec + tstampFrac tstamp * slice - net.nsec * (1 / 10 ^ 9)

/-- A number without its fraction. -/
def truncate (x : ℚ) : ℤ := if 0 ≤ x then ⌊x⌋ else ⌈x⌉

/-- The conversion to a `jack_time_t`. -/
def toJackTime (x : ℚ) : UInt64 := UInt64.ofNat (truncate x % 2 ^ 64).toNat

/-- `future`. -/
def future : UInt64 := toJackTime (net.jack + diff net tstamp * 10 ^ 6)

/-- `_inject_stamp`: the time that is converted to frames, or `none` for immediate execution. -/
def injectStamp : Option UInt64 :=
  if tstamp = oscImmediate then none else some (future net tstamp)

/-! ### The time of an instant -/

/-- The NTP era of the clock. -/
def Sync.era : ℕ := net.sec / 2 ^ 32

/-- The clock, in seconds since 1900. -/
def Sync.clock : ℚ := net.sec + net.nsec / 10 ^ 9

/-- The instant that a timetag denotes in the era of the clock. -/
def instant : ℚ := net.era * 2 ^ 32 + tstampSec tstamp + tstampFrac tstamp / 2 ^ 32

/-- Its time, in microseconds of JACK. -/
def due : ℚ := net.jack + 10 ^ 6 * (instant net tstamp - net.clock)

/-- The time is rounded down, or `0` where it is negative. -/
def Right : Prop := ∀ time ∈ injectStamp net tstamp, (time.toNat : ℤ) = max 0 ⌊due net tstamp⌋

/-- **The stamps are monotone**, and each is the time of its instant. -/
def Ordered (T₁ T₂ : UInt64) : Prop :=
  (∀ t₁ ∈ injectStamp net T₁, ∀ t₂ ∈ injectStamp net T₂, t₁ ≤ t₂) ∧ Right net T₁ ∧ Right net T₂

/-- Microseconds from the start of the first era to that of the era of the clock. -/
def Sync.offset : ℤ := 10 ^ 6 * 2 ^ 32 * net.era

/-- The clock is in the first era, and the instant less than a microsecond before the start of
JACK, if it is before it. Or the clock is in one of the eras whose number is a multiple of `2^26`,
and the time is a whole number of microseconds, or in one where the microseconds of the eras and
those before the start of JACK, a multiple of `2^38`, add up to a multiple of `2^64`. -/
def Timely : Prop :=
  net.sec < 2 ^ 32 ∧ -1 < due net tstamp ∨
    2 ^ 32 ≤ net.sec ∧
      (0 ≤ due net tstamp ∧ (⌊due net tstamp⌋ : ℚ) = due net tstamp ∧ 2 ^ 26 ∣ net.era ∨
        due net tstamp < 0 ∧ ∃ k < 2 ^ 14,
          ⌈due net tstamp⌉ = -(k * 2 ^ 38 : ℕ) ∧ 2 ^ 26 ∣ 15625 * net.era + k)

section Stamps

variable {net tstamp}

theorem Sync.sec_eq : net.sec = net.era * 2 ^ 32 + net.sec % 2 ^ 32 := by
  unfold Sync.era
  omega

/-- The code is off by the eras before that of the clock. -/
theorem jack_add_diff : net.jack + diff net tstamp * 10 ^ 6 = due net tstamp - net.offset := by
  have hsec : (if net.sec ≤ tstampSec tstamp then (((tstampSec tstamp : ℤ) - net.sec : ℤ) : ℚ)
      else -((net.sec : ℤ) - tstampSec tstamp : ℤ)) = tstampSec tstamp - net.sec := by
    split <;> push_cast <;> ring
  unfold diff due instant Sync.clock Sync.offset slice
  simp only
  rw [hsec]
  push_cast
  ring

/-- The instant of a timetag is in the era of the clock, so it is not far from it. -/
theorem due_bounds : -(2 : ℚ) ^ 52 < due net tstamp ∧ due net tstamp < 2 ^ 63 + 2 ^ 52 := by
  have hjack : (net.jack : ℚ) < 2 ^ 63 := by exact_mod_cast net.jack_lt
  have hjack₀ : (0 : ℚ) ≤ net.jack := Nat.cast_nonneg _
  have hnsec : (net.nsec : ℚ) / 10 ^ 9 < 1 := by
    rw [div_lt_one (by positivity)]
    exact_mod_cast net.nsec_lt
  have hnsec₀ : (0 : ℚ) ≤ net.nsec / 10 ^ 9 := by positivity
  have hfrac : (tstampFrac tstamp : ℚ) / 2 ^ 32 < 1 := by
    rw [div_lt_one (by positivity)]
    exact_mod_cast Nat.mod_lt tstamp.toNat (by decide : 0 < 2 ^ 32)
  have hfrac₀ : (0 : ℚ) ≤ tstampFrac tstamp / 2 ^ 32 := by positivity
  -- whole seconds of the era, for both
  have hsec : (tstampSec tstamp : ℚ) + 1 ≤ 2 ^ 32 := by
    have hlt := tstamp.toNat_lt
    have hle : tstampSec tstamp + 1 ≤ 2 ^ 32 := by
      unfold tstampSec
      omega
    exact_mod_cast hle
  have hsec₀ : (0 : ℚ) ≤ tstampSec tstamp := Nat.cast_nonneg _
  have hrest : ((net.sec % 2 ^ 32 : ℕ) : ℚ) + 1 ≤ 2 ^ 32 := by
    exact_mod_cast Nat.mod_lt net.sec (by decide : 0 < 2 ^ 32)
  have hrest₀ : (0 : ℚ) ≤ ((net.sec % 2 ^ 32 : ℕ) : ℚ) := Nat.cast_nonneg _
  have hclock : (net.sec : ℚ) = net.era * 2 ^ 32 + ((net.sec % 2 ^ 32 : ℕ) : ℚ) := by
    exact_mod_cast net.sec_eq
  have hgap : instant net tstamp - net.clock =
      (tstampSec tstamp + tstampFrac tstamp / 2 ^ 32) -
        (((net.sec % 2 ^ 32 : ℕ) : ℚ) + net.nsec / 10 ^ 9) := by
    unfold instant Sync.clock
    rw [hclock]
    ring
  -- from here on it is a matter of four bounded numbers
  generalize ((net.sec % 2 ^ 32 : ℕ) : ℚ) = rest at hrest hrest₀ hgap
  generalize (net.nsec : ℚ) / 10 ^ 9 = nsec at hnsec hnsec₀ hgap
  generalize (tstampFrac tstamp : ℚ) / 2 ^ 32 = frac at hfrac hfrac₀ hgap
  unfold due
  rw [hgap]
  constructor <;> linarith

/-- What the code should answer. -/
theorem right_bounds : 0 ≤ max 0 ⌊due net tstamp⌋ ∧ max 0 ⌊due net tstamp⌋ < 2 ^ 64 := by
  have hlt : ⌊due net tstamp⌋ < 2 ^ 64 := by
    refine Int.floor_lt.mpr ?_
    push_cast
    linarith [(@due_bounds net tstamp).2]
  exact ⟨le_max_left _ _, max_lt (by decide) hlt⟩

/-- The conversion answers a number if it differs from it by a multiple of `2^64`. -/
theorem toNat_toJackTime (x : ℚ) {n : ℤ} (h₀ : 0 ≤ n) (h : n < 2 ^ 64) :
    ((toJackTime x).toNat : ℤ) = n ↔ (2 : ℤ) ^ 64 ∣ truncate x - n := by
  have hmod : 0 ≤ truncate x % 2 ^ 64 := Int.emod_nonneg _ (by decide)
  have hlt : truncate x % 2 ^ 64 < 2 ^ 64 := Int.emod_lt_of_pos _ (by decide)
  have hnat : ((toJackTime x).toNat : ℤ) = truncate x % 2 ^ 64 := by
    unfold toJackTime
    rw [UInt64.toNat_ofNat', Nat.mod_eq_of_lt (by omega)]
    exact Int.toNat_of_nonneg hmod
  rw [hnat]
  omega

/-- A time that is rounded down or `0` is right if what the code rounds differs from it by a
multiple of `2^64`. -/
theorem right_iff_dvd (h : tstamp ≠ oscImmediate) :
    Right net tstamp ↔
      (2 : ℤ) ^ 64 ∣ truncate (due net tstamp - net.offset) - max 0 ⌊due net tstamp⌋ := by
  obtain ⟨h₀, hlt⟩ := @right_bounds net tstamp
  have hstamp : injectStamp net tstamp = some (toJackTime (due net tstamp - net.offset)) := by
    unfold injectStamp future
    rw [if_neg h, jack_add_diff]
  unfold Right
  rw [hstamp, ← toNat_toJackTime _ h₀ hlt]
  exact ⟨fun hright => hright _ rfl, fun hright time htime => Option.some.inj htime ▸ hright⟩

/-- **In the first era** the code rounds the time itself. What is lost is a sign. -/
theorem dvd_of_era_zero (h : net.sec < 2 ^ 32) :
    (2 : ℤ) ^ 64 ∣ truncate (due net tstamp - net.offset) - max 0 ⌊due net tstamp⌋ ↔
      -1 < due net tstamp := by
  have hera : net.era = 0 := Nat.div_eq_of_lt h
  have hoffset : due net tstamp - net.offset = due net tstamp := by
    unfold Sync.offset
    rw [hera]
    push_cast
    ring
  rw [hoffset]
  unfold truncate
  by_cases hpos : 0 ≤ due net tstamp
  · -- both round down
    rw [if_pos hpos, max_eq_right (Int.floor_nonneg.mpr hpos), sub_self]
    exact iff_of_true (dvd_zero _) (by linarith)
  · have hneg : due net tstamp < 0 := not_le.mp hpos
    have hfloor : ⌊due net tstamp⌋ < 0 := Int.floor_lt.mpr (by exact_mod_cast hneg)
    rw [if_neg hpos, max_eq_left hfloor.le, sub_zero]
    -- the time is more than `-2^52`, so only `0` is a multiple
    have hlo : -2 ^ 52 < ⌈due net tstamp⌉ := by
      refine Int.lt_ceil.mpr ?_
      push_cast
      exact (@due_bounds net tstamp).1
    have hhi : ⌈due net tstamp⌉ ≤ 0 := Int.ceil_le.mpr (by exact_mod_cast hneg.le)
    have hceil : (-1 : ℤ) < ⌈due net tstamp⌉ ↔ -1 < due net tstamp := by
      rw [Int.lt_ceil]
      push_cast
      rfl
    rw [← hceil]
    omega

/-- The eras before that of the clock, in microseconds, are a multiple of `2^38`. -/
theorem Sync.offset_ge (h : 2 ^ 32 ≤ net.sec) : 2 ^ 38 ≤ net.offset := by
  have hera : 1 ≤ net.era := (Nat.le_div_iff_mul_le (by decide)).mpr (by rwa [Nat.one_mul])
  unfold Sync.offset
  omega

/-- **In a later era** the code is off by the eras before. -/
theorem dvd_of_later_era (h : 2 ^ 32 ≤ net.sec) :
    (2 : ℤ) ^ 64 ∣ truncate (due net tstamp - net.offset) - max 0 ⌊due net tstamp⌋ ↔
      (2 : ℤ) ^ 64 ∣ net.offset - (⌈due net tstamp⌉ - max 0 ⌊due net tstamp⌋) := by
  have hoffset := Sync.offset_ge h
  unfold truncate
  by_cases hpos : 0 ≤ due net tstamp - net.offset
  · -- a time behind that many eras is less than `2^64`, and so are they
    have hle : net.offset ≤ ⌊due net tstamp⌋ := by
      refine Int.le_floor.mpr ?_
      linarith
    have hlt := (@right_bounds net tstamp).2
    have hmax : max 0 ⌊due net tstamp⌋ = ⌊due net tstamp⌋ := max_eq_right (by omega)
    have hceil := Int.floor_le_ceil (due net tstamp)
    have hceil' := Int.ceil_le_floor_add_one (due net tstamp)
    rw [hmax] at hlt
    rw [if_pos hpos, Int.floor_sub_intCast, hmax]
    refine iff_of_false ?_ ?_ <;> omega
  · -- the difference is negative, so the code rounds it up
    rw [if_neg hpos, Int.ceil_sub_intCast, ← dvd_neg]
    refine iff_of_eq (congrArg _ ?_)
    ring

/-- **The eras that are lost.** There are `2^6 * 15625` microseconds in a second and `2^32` seconds
in an era, so `2^38` divides what is lost. -/
theorem later_era_iff :
    (2 : ℤ) ^ 64 ∣ net.offset - (⌈due net tstamp⌉ - max 0 ⌊due net tstamp⌋) ↔
      0 ≤ due net tstamp ∧ (⌊due net tstamp⌋ : ℚ) = due net tstamp ∧ 2 ^ 26 ∣ net.era ∨
        due net tstamp < 0 ∧ ∃ k < 2 ^ 14,
          ⌈due net tstamp⌉ = -(k * 2 ^ 38 : ℕ) ∧ 2 ^ 26 ∣ 15625 * net.era + k := by
  unfold Sync.offset
  by_cases hpos : 0 ≤ due net tstamp
  · have hfloor : 0 ≤ ⌊due net tstamp⌋ := Int.floor_nonneg.mpr hpos
    rw [max_eq_right hfloor, or_iff_left fun h => absurd hpos (not_le.mpr h.1),
      and_iff_right hpos]
    by_cases hwhole : (⌊due net tstamp⌋ : ℚ) = due net tstamp
    · have hceil : ⌈due net tstamp⌉ = ⌊due net tstamp⌋ := by
        rw [← hwhole, Int.ceil_intCast, Int.floor_intCast]
      rw [and_iff_right hwhole, hceil]
      omega
    · -- it is rounded up and down, by one in all, and the microseconds of the eras are even
      have hceil : ⌈due net tstamp⌉ = ⌊due net tstamp⌋ + 1 := by
        refine le_antisymm (Int.ceil_le_floor_add_one _) ?_
        refine Int.add_one_le_iff.mpr (Int.lt_ceil.mpr ?_)
        exact lt_of_le_of_ne (Int.floor_le _) hwhole
      rw [hceil]
      refine iff_of_false ?_ fun h => hwhole h.1
      omega
  · have hneg : due net tstamp < 0 := not_le.mp hpos
    have hfloor : ⌊due net tstamp⌋ < 0 := Int.floor_lt.mpr (by exact_mod_cast hneg)
    have hlo : -2 ^ 52 < ⌈due net tstamp⌉ := by
      refine Int.lt_ceil.mpr ?_
      push_cast
      exact (@due_bounds net tstamp).1
    have hhi : ⌈due net tstamp⌉ ≤ 0 := Int.ceil_le.mpr (by exact_mod_cast hneg.le)
    rw [max_eq_left hfloor.le, or_iff_right fun h => hpos h.1, and_iff_right hneg]
    constructor
    · intro hdvd
      refine ⟨(-⌈due net tstamp⌉).toNat / 2 ^ 38, ?_, ?_, ?_⟩ <;> omega
    · rintro ⟨k, hk, hceil, hdvd⟩
      rw [hceil]
      omega

/-- **When a timetag gets the time that it should.** -/
theorem right_iff (h : tstamp ≠ oscImmediate) : Right net tstamp ↔ Timely net tstamp := by
  rw [right_iff_dvd h]
  unfold Timely
  rcases Nat.lt_or_ge net.sec (2 ^ 32) with hlt | hge
  · rw [dvd_of_era_zero hlt]
    constructor
    · exact fun htime => Or.inl ⟨hlt, htime⟩
    · rintro (⟨-, htime⟩ | ⟨hge, -⟩)
      · exact htime
      · exact absurd hlt (Nat.not_lt.mpr hge)
  · rw [dvd_of_later_era hge, later_era_iff]
    constructor
    · exact fun htime => Or.inr ⟨hge, htime⟩
    · rintro (⟨hlt, -⟩ | ⟨-, htime⟩)
      · exact absurd hlt (Nat.not_lt.mpr hge)
      · exact htime

/-- The instants of timetags are in their order. -/
theorem instant_mono {T₁ T₂ : UInt64} (h : T₁ ≤ T₂) : instant net T₁ ≤ instant net T₂ := by
  have hvalue : ∀ T, instant net T = net.era * 2 ^ 32 + (T.toNat : ℚ) / 2 ^ 32 := by
    intro T
    have hsplit : (T.toNat : ℚ) = tstampSec T * 2 ^ 32 + tstampFrac T := by
      exact_mod_cast (Nat.div_add_mod' T.toNat (2 ^ 32)).symm
    unfold instant
    rw [hsplit]
    ring
  have hle : (T₁.toNat : ℚ) ≤ T₂.toNat := by exact_mod_cast UInt64.le_iff_toNat_le.mp h
  rw [hvalue, hvalue]
  linarith

theorem due_mono {T₁ T₂ : UInt64} (h : T₁ ≤ T₂) : due net T₁ ≤ due net T₂ := by
  have hle := @instant_mono net T₁ T₂ h
  unfold due
  linarith

variable (net) in
/-- **When time stamps from the network are monotone.** -/
theorem ordered_iff {T₁ T₂ : UInt64} (h : T₁ ≤ T₂) (h₁ : T₁ ≠ oscImmediate)
    (h₂ : T₂ ≠ oscImmediate) : Ordered net T₁ T₂ ↔ Timely net T₁ ∧ Timely net T₂ := by
  rw [← right_iff h₁, ← right_iff h₂]
  unfold Ordered
  refine and_iff_right_of_imp ?_
  -- the times of the two instants are in order, so right answers are
  rintro ⟨hright₁, hright₂⟩ t₁ ht₁ t₂ ht₂
  have hfloor : ⌊due net T₁⌋ ≤ ⌊due net T₂⌋ := Int.floor_mono (due_mono h)
  have hle : (t₁.toNat : ℤ) ≤ t₂.toNat := by
    rw [hright₁ t₁ ht₁, hright₂ t₂ ht₂]
    exact max_le_max_left 0 hfloor
  exact UInt64.le_iff_toNat_le.mpr (by exact_mod_cast hle)

end Stamps

/-- An afternoon in 2014, five seconds after the start of JACK. -/
def afternoon : Sync := ⟨3600000000, 500000000, 5000000, by decide, by decide, by decide⟩

/-- A timetag of that many seconds and half a second. -/
def half (sec : ℕ) : UInt64 := UInt64.ofNat (sec * 2 ^ 32 + 2 ^ 31)

/-- The present, and half a second later. -/
theorem ordered_iff_afternoon : Ordered afternoon (half 3600000000) (half 3600000001) := by
  refine (ordered_iff afternoon (by decide) (by decide) (by decide)).mpr ⟨?_, ?_⟩ <;>
    exact Or.inl ⟨by decide, by decide +kernel⟩

/-- **Ten seconds before**, which is five seconds before the start of JACK: the time of the
bundle is behind that of one which is due now. -/
theorem before_start :
    injectStamp afternoon (half 3599999990) = some (UInt64.ofNat (2 ^ 64 - 5000000)) ∧
      injectStamp afternoon (half 3600000000) = some 5000000 ∧
      ¬ Ordered afternoon (half 3599999990) (half 3600000000) := by
  have hbefore : injectStamp afternoon (half 3599999990) = some (UInt64.ofNat (2 ^ 64 - 5000000)) := by
    decide +kernel
  have hnow : injectStamp afternoon (half 3600000000) = some 5000000 := by
    decide +kernel
  refine ⟨hbefore, hnow, fun h => ?_⟩
  exact absurd (h.1 _ hbefore _ hnow) (by decide)

end Stamp

end Tjost
