import Mathlib.Algebra.GroupWithZero.Nat
import Mathlib.Data.Set.Insert
import Mathlib.Tactic.Common

/-!
# Boundary tags

A heap is divided into blocks that follow each other. In front of every block is a header of `w`
bytes with the size of the block, whether it is free, and whether the block in front of it is
(`Tag`). A heap has one or more regions, each of which ends with a block of size `0` that is never
free. `Tags` is a heap as the map from the addresses of the headers to what they say.

`Laid` is what makes such a map a heap, and `Covers` relates it to its regions. Four operations keep
both: `mark` changes the state of a block, `cut` divides a block into two, `join` takes a block and
the one behind it together, and `extend` adds a region.

`Coalesced`: no two blocks that are next to each other are free, with exceptions while a block is
on its way. A region of a coalesced heap in which no block is in use is one free block
(`Covers.first_next_sentinel`).

A walk from the first header of a region meets all of its blocks (`Covers.exists_chain`).
-/

namespace BoundaryTags

/-- What a header says. -/
@[ext] structure Tag where
  size : ℕ
  free : Bool
  /-- The block in front is free. -/
  prevFree : Bool
  deriving DecidableEq, Repr

/-- The tags by the addresses of their headers. -/
abbrev Tags := ℕ → Option Tag

/-- From the first header to the last one. -/
structure Region where
  start : ℕ
  stop : ℕ
  deriving DecidableEq, Repr

/-- **A heap.** The block behind the one at `a` has its header at `a + w + t.size`. -/
structure Laid (w : ℕ) (T : Tags) : Prop where
  apart : ∀ {a b t u}, T a = some t → T b = some u → a < b → a + w + t.size ≤ b
  next : ∀ {a t}, T a = some t → t.size ≠ 0 →
    ∃ n, T (a + w + t.size) = some n ∧ n.prevFree = t.free
  prev : ∀ {a t}, T a = some t → t.prevFree = true →
    ∃ p u, T p = some u ∧ u.free = true ∧ u.size ≠ 0 ∧ p + w + u.size = a
  last : ∀ {a t}, T a = some t → t.size = 0 → t.free = false

/-- **The regions of a heap.** -/
structure Covers (w : ℕ) (R : List Region) (T : Tags) : Prop where
  inside : ∀ {a t}, T a = some t → ∃ r ∈ R, r.start ≤ a ∧
    (t.size ≠ 0 → a + w + t.size ≤ r.stop) ∧ (t.size = 0 → a = r.stop)
  lt : ∀ {r}, r ∈ R → r.start < r.stop
  first : ∀ {r}, r ∈ R → ∃ t, T r.start = some t ∧ t.size ≠ 0 ∧ t.prevFree = false
  sentinel : ∀ {r}, r ∈ R → ∃ t, T r.stop = some t ∧ t.size = 0
  disjoint : ∀ {r r'}, r ∈ R → r' ∈ R → r ≠ r' → r.stop + w ≤ r'.start ∨ r'.stop + w ≤ r.start

/-- No two free blocks follow each other, but for the second ones in `S`. -/
def Coalesced (S : Set ℕ) (T : Tags) : Prop :=
  ∀ a t, T a = some t → a ∉ S → t.free = true → t.prevFree = false

/-! ### Entries of a map -/

/-- An entry of a map that has lost one. -/
theorem update_none_eq_some {α : Type*} {entries : ℕ → Option α} {a b : ℕ} {v : α} :
    Function.update entries a none b = some v ↔ b ≠ a ∧ entries b = some v := by
  by_cases hb : b = a
  · rw [hb, Function.update_self]
    exact iff_of_false nofun fun hc => hc.1 rfl
  · rw [Function.update_of_ne hb]
    exact (and_iff_right hb).symm

/-- An entry of a map that has got one. -/
theorem update_some_eq_some {α : Type*} {entries : ℕ → Option α} {a b : ℕ} {v w : α} :
    Function.update entries a (some w) b = some v ↔
      b = a ∧ v = w ∨ b ≠ a ∧ entries b = some v := by
  by_cases hb : b = a
  · rw [hb, Function.update_self, Option.some.injEq]
    constructor
    · exact fun hw => Or.inl ⟨rfl, hw.symm⟩
    · rintro (⟨-, rfl⟩ | ⟨hc, -⟩)
      · rfl
      · exact absurd rfl hc
  · rw [Function.update_of_ne hb]
    constructor
    · exact fun he => Or.inr ⟨hb, he⟩
    · rintro (⟨hc, -⟩ | ⟨-, he⟩)
      · exact absurd hc hb
      · exact he

/-! ### The operations -/

variable (w : ℕ) (T : Tags)

/-- Free the block at `a`, or take it into use. Its tag is `t`, and `n` the one behind. -/
def mark (a : ℕ) (t n : Tag) (f : Bool) : Tags := fun x =>
  if x = a then some { t with free := f }
  else if x = a + w + t.size then some { n with prevFree := f }
  else T x

/-- Divide the block at `a`: `s` bytes stay, and the rest becomes a block of its own. -/
def cut (a : ℕ) (t n : Tag) (s : ℕ) (f : Bool) : Tags := fun x =>
  if x = a then some { t with size := s }
  else if x = a + w + s then some ⟨t.size - s - w, f, t.free⟩
  else if x = a + w + t.size then some { n with prevFree := f }
  else T x

/-- Take the block at `a` and the one behind it together, whose tag is `n`. The one behind both
is `m`. -/
def join (a : ℕ) (t n m : Tag) : Tags := fun x =>
  if x = a then some { t with size := t.size + w + n.size }
  else if x = a + w + t.size then none
  else if x = a + w + t.size + w + n.size then some { m with prevFree := t.free }
  else T x

/-- Add a region with a free block. -/
def extend (r : Region) : Tags := fun x =>
  if x = r.start then some ⟨r.stop - r.start - w, true, false⟩
  else if x = r.stop then some ⟨0, false, true⟩
  else T x

/-- Remove a region. -/
def discard (r : Region) : Tags := fun x => if x = r.start ∨ x = r.stop then none else T x

theorem mark_eq_update (a : ℕ) (t n : Tag) (f : Bool) :
    mark w T a t n f = Function.update
      (Function.update T (a + w + t.size) (some { n with prevFree := f })) a
      (some { t with free := f }) := by
  funext x
  unfold mark
  by_cases hxa : x = a
  · rw [if_pos hxa, hxa, Function.update_self]
  · rw [if_neg hxa, Function.update_of_ne hxa]
    by_cases hxn : x = a + w + t.size
    · rw [if_pos hxn, hxn, Function.update_self]
    · rw [if_neg hxn, Function.update_of_ne hxn]

theorem extend_eq_update (r : Region) (hlt : r.start < r.stop) :
    extend w T r = Function.update
      (Function.update T r.start (some ⟨r.stop - r.start - w, true, false⟩)) r.stop
      (some ⟨0, false, true⟩) := by
  funext x
  unfold extend
  by_cases hxs : x = r.stop
  · rw [if_neg (by omega), if_pos hxs, hxs, Function.update_self]
  · rw [Function.update_of_ne hxs, if_neg hxs]
    by_cases hxr : x = r.start
    · rw [if_pos hxr, hxr, Function.update_self]
    · rw [if_neg hxr, Function.update_of_ne hxr]

variable {w T}
variable {a b s : ℕ} {t u n m : Tag} {f : Bool} {R : List Region} {r : Region} {S : Set ℕ}

namespace Laid

/-- A block is behind one other block at most. -/
theorem next_inj (h : Laid w T) (hw : 0 < w) (ha : T a = some t) (hb : T b = some u)
    (hnext : a + w + t.size = b + w + u.size) : a = b := by
  rcases Nat.lt_trichotomy a b with hlt | heq | hgt
  · have := h.apart ha hb hlt
    omega
  · exact heq
  · have := h.apart hb ha hgt
    omega

/-- Between two headers that follow each other is no other one. -/
theorem none_between (h : Laid w T) (ha : T a = some t) (hlo : a < b) (hhi : b < a + w + t.size) :
    T b = none := by
  by_contra hsome
  obtain ⟨u, hu⟩ := Option.ne_none_iff_exists'.mp hsome
  have := h.apart ha hu hlo
  omega

/-- The state of a block is the one that the block behind it knows. -/
theorem prevFree_eq (h : Laid w T) (ha : T a = some t) (hs : t.size ≠ 0)
    (hn : T (a + w + t.size) = some n) : n.prevFree = t.free := by
  obtain ⟨n', hn', hfree⟩ := h.next ha hs
  rw [Option.some.inj (hn.symm.trans hn'), hfree]

theorem size_ne_zero (h : Laid w T) (ha : T a = some t) (hfree : t.free = true) : t.size ≠ 0 := by
  intro hzero
  rw [h.last ha hzero] at hfree
  cases hfree

/-- **The state of a block.** The block behind it is told, and no other. -/
theorem mark (h : Laid w T) (hw : 0 < w) (ha : T a = some t) (hs : t.size ≠ 0)
    (hn : T (a + w + t.size) = some n) : Laid w (mark w T a t n f) where
  apart {x y t' u'} hx hy hlt := by
    have hapart := @h.apart
    unfold BoundaryTags.mark at hx hy
    grind
  next {x t'} hx hs' := by
    have hinj := @next_inj w T x a
    have hnext := @h.next
    have hapart := @h.apart
    unfold BoundaryTags.mark at hx ⊢
    grind
  prev {x t'} hx hp := by
    unfold BoundaryTags.mark at hx
    split at hx
    · next hxa =>
      -- the block in front of it is neither itself nor the one behind
      obtain rfl := Option.some.inj hx
      obtain ⟨p, u, hu, hfree, hsize, hpx⟩ := h.prev ha hp
      refine ⟨p, u, ?_, hfree, hsize, hpx.trans hxa.symm⟩
      unfold BoundaryTags.mark
      rw [if_neg (by omega), if_neg (by omega), hu]
    · next hxa =>
      split at hx
      · next hxn =>
        obtain rfl := Option.some.inj hx
        refine ⟨a, { t with free := f }, ?_, hp, hs, hxn.symm⟩
        unfold BoundaryTags.mark
        rw [if_pos rfl]
      · next hxn =>
        obtain ⟨p, u, hu, hfree, hsize, hpx⟩ := h.prev hx hp
        have hpa : p ≠ a := by
          rintro rfl
          obtain rfl := Option.some.inj (hu.symm.trans ha)
          exact hxn hpx.symm
        unfold BoundaryTags.mark
        by_cases hpn : p = a + w + t.size
        · subst hpn
          obtain rfl := Option.some.inj (hu.symm.trans hn)
          refine ⟨a + w + t.size, { u with prevFree := f }, ?_, hfree, hsize, hpx⟩
          rw [if_neg hpa, if_pos rfl]
        · refine ⟨p, u, ?_, hfree, hsize, hpx⟩
          rw [if_neg hpa, if_neg hpn, hu]
  last {x t'} hx hzero := by
    have hlast := @h.last
    unfold BoundaryTags.mark at hx
    grind

/-- **Two blocks out of one.** -/
theorem cut (h : Laid w T) (hw : 0 < w) (ha : T a = some t) (hn : T (a + w + t.size) = some n)
    (hs : s ≠ 0) (hrest : s + w < t.size) : Laid w (cut w T a t n s f) where
  apart {x y t' u'} hx hy hlt := by
    have hapart := @h.apart
    unfold BoundaryTags.cut at hx hy
    grind
  next {x t'} hx hs' := by
    have hinj := @next_inj w T x a
    have hnext := @h.next
    have hapart := @h.apart
    unfold BoundaryTags.cut at hx ⊢
    grind
  prev {x t'} hx hp := by
    have hhead : BoundaryTags.cut w T a t n s f a = some { t with size := s } := if_pos rfl
    have hmid : BoundaryTags.cut w T a t n s f (a + w + s) =
        some ⟨t.size - s - w, f, t.free⟩ := by
      unfold BoundaryTags.cut
      rw [if_neg (by omega), if_pos rfl]
    have hother : ∀ {p u}, T p = some u → p ≠ a → p ≠ a + w + t.size →
        BoundaryTags.cut w T a t n s f p = some u := by
      intro p u hu hpa hpn
      have hps : p ≠ a + w + s := by
        rintro rfl
        rw [h.none_between ha (by omega) (by omega)] at hu
        cases hu
      unfold BoundaryTags.cut
      rw [if_neg hpa, if_neg hps, if_neg hpn, hu]
    unfold BoundaryTags.cut at hx
    split at hx
    · next hxa =>
      obtain rfl := Option.some.inj hx
      obtain ⟨p, u, hu, hfree, hsize, hpx⟩ := h.prev ha hp
      exact ⟨p, u, hother hu (by omega) (by omega), hfree, hsize, hpx.trans hxa.symm⟩
    · split at hx
      · next hxs =>
        -- the rest is behind what stays
        obtain rfl := Option.some.inj hx
        exact ⟨a, _, hhead, hp, hs, hxs.symm⟩
      · split at hx
        · next hxn =>
          -- and the block behind is behind the rest
          obtain rfl := Option.some.inj hx
          refine ⟨a + w + s, _, hmid, hp, ?_, ?_⟩ <;> simp only <;> omega
        · next hxa hxs hxn =>
          obtain ⟨p, u, hu, hfree, hsize, hpx⟩ := h.prev hx hp
          have hpa : p ≠ a := by
            rintro rfl
            obtain rfl := Option.some.inj (hu.symm.trans ha)
            exact hxn hpx.symm
          by_cases hpn : p = a + w + t.size
          · subst hpn
            obtain rfl := Option.some.inj (hu.symm.trans hn)
            refine ⟨a + w + t.size, { u with prevFree := f }, ?_, hfree, hsize, hpx⟩
            unfold BoundaryTags.cut
            rw [if_neg hpa, if_neg (by omega), if_pos rfl]
          · exact ⟨p, u, hother hu hpa hpn, hfree, hsize, hpx⟩
  last {x t'} hx hzero := by
    have hlast := @h.last
    unfold BoundaryTags.cut at hx
    grind

/-- **One block out of two.** -/
theorem join (h : Laid w T) (hw : 0 < w) (ha : T a = some t) (hs : t.size ≠ 0)
    (hn : T (a + w + t.size) = some n) (hns : n.size ≠ 0)
    (hm : T (a + w + t.size + w + n.size) = some m) : Laid w (join w T a t n m) where
  apart {x y t' u'} hx hy hlt := by
    have hapart := @h.apart
    unfold BoundaryTags.join at hx hy
    grind
  next {x t'} hx hs' := by
    unfold BoundaryTags.join at hx
    split at hx
    · next hxa =>
      obtain rfl := Option.some.inj hx
      refine ⟨{ m with prevFree := t.free }, ?_, rfl⟩
      have hpos : x + w + (t.size + w + n.size) = a + w + t.size + w + n.size := by omega
      unfold BoundaryTags.join
      rw [hpos, if_neg (by omega), if_neg (by omega), if_pos rfl]
    · split at hx
      · cases hx
      · split at hx
        · next hxm =>
          obtain rfl := Option.some.inj hx
          obtain ⟨k, hk, hfree⟩ := h.next hm hs'
          refine ⟨k, ?_, hfree⟩
          unfold BoundaryTags.join
          rw [hxm, if_neg (by omega), if_neg (by omega), if_neg (by omega)]
          exact hk
        · next hxa hxn hxm =>
          obtain ⟨k, hk, hfree⟩ := h.next hx hs'
          -- only `a` and the block behind it stand in front of the two that change
          have hkn : x + w + t'.size ≠ a + w + t.size := fun he => hxa (h.next_inj hw hx ha he)
          have hkm : x + w + t'.size ≠ a + w + t.size + w + n.size := fun he =>
            hxn (h.next_inj hw hx hn he)
          unfold BoundaryTags.join
          by_cases hka : x + w + t'.size = a
          · rw [hka] at hk ⊢
            obtain rfl := Option.some.inj (hk.symm.trans ha)
            exact ⟨{ k with size := k.size + w + n.size }, if_pos rfl, hfree⟩
          · exact ⟨k, by rw [if_neg hka, if_neg hkn, if_neg hkm, hk], hfree⟩
  prev {x t'} hx hp := by
    have hhead : BoundaryTags.join w T a t n m a =
        some { t with size := t.size + w + n.size } := if_pos rfl
    have hother : ∀ {p u}, T p = some u → p ≠ a → p ≠ a + w + t.size →
        p ≠ a + w + t.size + w + n.size → BoundaryTags.join w T a t n m p = some u := by
      intro p u hu hpa hpn hpm
      unfold BoundaryTags.join
      rw [if_neg hpa, if_neg hpn, if_neg hpm, hu]
    unfold BoundaryTags.join at hx
    split at hx
    · next hxa =>
      obtain rfl := Option.some.inj hx
      obtain ⟨p, u, hu, hfree, hsize, hpx⟩ := h.prev ha hp
      exact ⟨p, u, hother hu (by omega) (by omega) (by omega), hfree, hsize, hpx.trans hxa.symm⟩
    · split at hx
      · cases hx
      · split at hx
        · next hxm =>
          obtain rfl := Option.some.inj hx
          refine ⟨a, _, hhead, hp, ?_, ?_⟩ <;> simp only <;> omega
        · next hxa hxn hxm =>
          obtain ⟨p, u, hu, hfree, hsize, hpx⟩ := h.prev hx hp
          have hpa : p ≠ a := by
            rintro rfl
            obtain rfl := Option.some.inj (hu.symm.trans ha)
            exact hxn hpx.symm
          have hpn : p ≠ a + w + t.size := by
            rintro rfl
            obtain rfl := Option.some.inj (hu.symm.trans hn)
            exact hxm hpx.symm
          by_cases hpm : p = a + w + t.size + w + n.size
          · subst hpm
            obtain rfl := Option.some.inj (hu.symm.trans hm)
            refine ⟨a + w + t.size + w + n.size, { u with prevFree := t.free }, ?_, hfree, hsize,
              hpx⟩
            unfold BoundaryTags.join
            rw [if_neg hpa, if_neg hpn, if_pos rfl]
          · exact ⟨p, u, hother hu hpa hpn hpm, hfree, hsize, hpx⟩
  last {x t'} hx hzero := by
    have hlast := @h.last
    unfold BoundaryTags.join at hx
    grind

end Laid

/-! ### The regions -/

namespace Covers

/-- Two regions with an address in common are one. -/
theorem region_inj {r' : Region} (hC : Covers w R T) (hr : r ∈ R) (hr' : r' ∈ R) (hlo : r.start ≤ a)
    (hhi : a ≤ r.stop) (hlo' : r'.start ≤ a) (hhi' : a ≤ r'.stop) (hw : 0 < w) : r = r' := by
  by_contra hne
  rcases hC.disjoint hr hr' hne with h | h <;> omega

/-- What is behind a block is in the region of the block, but not at its start. -/
theorem next_ne_start (hC : Covers w R T) (hw : 0 < w) (ha : T a = some t) (hs : t.size ≠ 0)
    (hr : r ∈ R) : a + w + t.size ≠ r.start := by
  intro he
  obtain ⟨r', hr', hlo, hhi, -⟩ := hC.inside ha
  have hstop := hhi hs
  have hlt := hC.lt hr
  obtain rfl := hC.region_inj (a := r.start) hr hr' le_rfl (by omega) (by omega) (by omega) hw
  omega

/-- Blocks keep their places and sizes. -/
theorem mark (hC : Covers w R T) (hw : 0 < w) (ha : T a = some t) (hs : t.size ≠ 0)
    (hn : T (a + w + t.size) = some n) : Covers w R (mark w T a t n f) where
  inside {x t'} hx := by
    have hinside := @hC.inside
    unfold BoundaryTags.mark at hx
    grind
  lt := hC.lt
  first {r} hr := by
    obtain ⟨u, hu, hsize, hprev⟩ := hC.first hr
    -- a first block is not behind the one that changes, so it keeps its `prevFree`
    have hne := hC.next_ne_start hw ha hs hr
    unfold BoundaryTags.mark
    by_cases hra : r.start = a
    · rw [hra] at hu ⊢
      obtain rfl := Option.some.inj (hu.symm.trans ha)
      exact ⟨{ u with free := f }, if_pos rfl, hsize, hprev⟩
    · exact ⟨u, by rw [if_neg hra, if_neg (Ne.symm hne), hu], hsize, hprev⟩
  sentinel {r} hr := by
    obtain ⟨u, hu, hzero⟩ := hC.sentinel hr
    unfold BoundaryTags.mark
    by_cases hra : r.stop = a
    · rw [hra] at hu ⊢
      obtain rfl := Option.some.inj (hu.symm.trans ha)
      exact ⟨{ u with free := f }, if_pos rfl, hzero⟩
    · by_cases hrn : r.stop = a + w + t.size
      · rw [hrn] at hu ⊢
        obtain rfl := Option.some.inj (hu.symm.trans hn)
        exact ⟨{ u with prevFree := f }, by rw [if_neg (by omega), if_pos rfl], hzero⟩
      · exact ⟨u, by rw [if_neg hra, if_neg hrn, hu], hzero⟩
  disjoint := hC.disjoint

/-- Both parts are in the region of the block. -/
theorem cut (hC : Covers w R T) (hL : Laid w T) (hw : 0 < w) (ha : T a = some t)
    (hn : T (a + w + t.size) = some n) (hs : s ≠ 0) (hrest : s + w < t.size) :
    Covers w R (cut w T a t n s f) where
  inside {x t'} hx := by
    have hinside := @hC.inside
    unfold BoundaryTags.cut at hx
    grind
  lt := hC.lt
  first {r} hr := by
    obtain ⟨u, hu, hsize, hprev⟩ := hC.first hr
    have hne := hC.next_ne_start hw ha (by omega) hr
    unfold BoundaryTags.cut
    by_cases hra : r.start = a
    · rw [hra] at hu ⊢
      obtain rfl := Option.some.inj (hu.symm.trans ha)
      exact ⟨{ u with size := s }, if_pos rfl, hs, hprev⟩
    · -- no region begins inside of a block
      have hrs : r.start ≠ a + w + s := by
        intro he
        rw [he, hL.none_between ha (by omega) (by omega)] at hu
        cases hu
      exact ⟨u, by rw [if_neg hra, if_neg hrs, if_neg (Ne.symm hne), hu], hsize, hprev⟩
  sentinel {r} hr := by
    obtain ⟨u, hu, hzero⟩ := hC.sentinel hr
    unfold BoundaryTags.cut
    -- the block at `a` has bytes, and a sentinel has none
    have hra : r.stop ≠ a := by
      intro he
      rw [he, ha] at hu
      obtain rfl := Option.some.inj hu
      omega
    have hrs : r.stop ≠ a + w + s := by
      intro he
      rw [he, hL.none_between ha (by omega) (by omega)] at hu
      cases hu
    by_cases hrn : r.stop = a + w + t.size
    · rw [hrn] at hu ⊢
      obtain rfl := Option.some.inj (hu.symm.trans hn)
      exact ⟨{ u with prevFree := f },
        by rw [if_neg (by omega), if_neg (by omega), if_pos rfl], hzero⟩
    · exact ⟨u, by rw [if_neg hra, if_neg hrs, if_neg hrn, hu], hzero⟩
  disjoint := hC.disjoint

/-- The two blocks are in one region. -/
theorem join (hC : Covers w R T) (hw : 0 < w) (ha : T a = some t) (hs : t.size ≠ 0)
    (hn : T (a + w + t.size) = some n) (hns : n.size ≠ 0)
    (hm : T (a + w + t.size + w + n.size) = some m) : Covers w R (join w T a t n m) where
  inside {x t'} hx := by
    have hinside := @hC.inside
    unfold BoundaryTags.join at hx
    split at hx
    · next hxa =>
      -- the region of the first block is the one of the second block
      obtain rfl := Option.some.inj hx
      obtain ⟨r, hr, hlo, hhi, -⟩ := hC.inside ha
      obtain ⟨r', hr', hlo', hhi', -⟩ := hC.inside hn
      have hstop := hhi hs
      have hstop' := hhi' hns
      obtain rfl := hC.region_inj (a := a + w + t.size) hr hr' (by omega) (by omega) hlo'
        (by omega) hw
      refine ⟨r, hr, by omega, fun _ => ?_, fun hzero => ?_⟩
      · simp only
        omega
      · simp only at hzero
        omega
    · grind
  lt := hC.lt
  first {r} hr := by
    obtain ⟨u, hu, hsize, hprev⟩ := hC.first hr
    have hne := hC.next_ne_start hw ha hs hr
    have hne' := hC.next_ne_start hw hn hns hr
    unfold BoundaryTags.join
    by_cases hra : r.start = a
    · rw [hra] at hu ⊢
      obtain rfl := Option.some.inj (hu.symm.trans ha)
      exact ⟨{ u with size := u.size + w + n.size }, if_pos rfl, by simp only; omega, hprev⟩
    · exact ⟨u, by rw [if_neg hra, if_neg (Ne.symm hne), if_neg (Ne.symm hne'), hu], hsize, hprev⟩
  sentinel {r} hr := by
    obtain ⟨u, hu, hzero⟩ := hC.sentinel hr
    have hra : r.stop ≠ a := by
      intro he
      rw [he, ha] at hu
      obtain rfl := Option.some.inj hu
      exact hs hzero
    have hrn : r.stop ≠ a + w + t.size := by
      intro he
      rw [he, hn] at hu
      obtain rfl := Option.some.inj hu
      exact hns hzero
    unfold BoundaryTags.join
    by_cases hrm : r.stop = a + w + t.size + w + n.size
    · rw [hrm] at hu ⊢
      obtain rfl := Option.some.inj (hu.symm.trans hm)
      exact ⟨{ u with prevFree := t.free },
        by rw [if_neg (by omega), if_neg (by omega), if_pos rfl], hzero⟩
    · exact ⟨u, by rw [if_neg hra, if_neg hrn, if_neg hrm, hu], hzero⟩
  disjoint := hC.disjoint

/-- Where a region is added, there are no blocks yet. -/
theorem none_of_apart (hC : Covers w R T) (hw : 0 < w)
    (hr : ∀ r' ∈ R, r.stop + w ≤ r'.start ∨ r'.stop + w ≤ r.start)
    (hlo : r.start ≤ a) (hhi : a ≤ r.stop) : T a = none := by
  by_contra hsome
  obtain ⟨t, ht⟩ := Option.ne_none_iff_exists'.mp hsome
  obtain ⟨r', hr', hlo', hsize, hzero⟩ := hC.inside ht
  have := hr r' hr'
  have := hC.lt hr'
  by_cases hs : t.size = 0
  · have := hzero hs
    omega
  · have := hsize hs
    omega

/-- A block on one side of the region that is added. -/
theorem apart_of_apart (hC : Covers w R T)
    (hr : ∀ r' ∈ R, r.stop + w ≤ r'.start ∨ r'.stop + w ≤ r.start) (ha : T a = some t) :
    r.stop + w ≤ a ∨ a + w + t.size ≤ r.start := by
  obtain ⟨r', hr', hlo', hsize, hzero⟩ := hC.inside ha
  have := hr r' hr'
  have := hC.lt hr'
  by_cases hs : t.size = 0
  · have := hzero hs
    omega
  · have := hsize hs
    omega

/-- One more region. -/
theorem extend (hC : Covers w R T) (hw : 0 < w)
    (hr : ∀ r' ∈ R, r.stop + w ≤ r'.start ∨ r'.stop + w ≤ r.start) (hlt : r.start + w < r.stop) :
    Covers w (r :: R) (extend w T r) where
  inside {x t} hx := by
    unfold BoundaryTags.extend at hx
    split at hx
    · next hxs =>
      obtain rfl := Option.some.inj hx
      refine ⟨r, List.mem_cons_self, hxs.ge, fun _ => ?_, fun hzero => ?_⟩ <;> simp only at * <;>
        omega
    · split at hx
      · next hxs =>
        obtain rfl := Option.some.inj hx
        exact ⟨r, List.mem_cons_self, by omega, fun hne => absurd rfl hne, fun _ => hxs⟩
      · obtain ⟨r', hr', hinside⟩ := hC.inside hx
        exact ⟨r', List.mem_cons_of_mem r hr', hinside⟩
  lt {r'} hr' := by
    rcases List.mem_cons.mp hr' with rfl | hr'
    · omega
    · exact hC.lt hr'
  first {r'} hr' := by
    unfold BoundaryTags.extend
    rcases List.mem_cons.mp hr' with rfl | hr'
    · exact ⟨_, if_pos rfl, by simp only; omega, rfl⟩
    · have := hr r' hr'
      have := hC.lt hr'
      rw [if_neg (by omega), if_neg (by omega)]
      exact hC.first hr'
  sentinel {r'} hr' := by
    unfold BoundaryTags.extend
    rcases List.mem_cons.mp hr' with rfl | hr'
    · exact ⟨_, by rw [if_neg (by omega), if_pos rfl], rfl⟩
    · have := hr r' hr'
      have := hC.lt hr'
      rw [if_neg (by omega), if_neg (by omega)]
      exact hC.sentinel hr'
  disjoint {r₁ r₂} h₁ h₂ hne := by
    rcases List.mem_cons.mp h₁ with rfl | h₁'
    · exact hr r₂ (List.mem_of_ne_of_mem (Ne.symm hne) h₂)
    · rcases List.mem_cons.mp h₂ with rfl | h₂'
      · exact (hr r₁ h₁').symm
      · exact hC.disjoint h₁' h₂' hne

/-- One region less. Its only block is free. -/
theorem discard (hC : Covers w R T) (hL : Laid w T) (hw : 0 < w) (hr : r ∈ R)
    (ha : T r.start = some t) (hstop : r.start + w + t.size = r.stop) :
    Covers w (R.filter (· ≠ r)) (discard T r) := by
  have hother : ∀ {r'}, r' ∈ R.filter (· ≠ r) → r' ∈ R ∧ r' ≠ r := fun hr' => by
    simpa using List.mem_filter.mp hr'
  have hkept : ∀ {r' x}, r' ∈ R.filter (· ≠ r) → r'.start ≤ x → x ≤ r'.stop →
      BoundaryTags.discard T r x = T x := by
    intro r' x hr' hlo hhi
    obtain ⟨hr', hne⟩ := hother hr'
    have := hC.lt hr
    have := hC.disjoint hr hr' (Ne.symm hne)
    exact if_neg (by omega)
  refine ⟨?_, fun hr' => hC.lt (hother hr').1, ?_, ?_,
    fun h₁ h₂ hne => hC.disjoint (hother h₁).1 (hother h₂).1 hne⟩
  · intro x t' hx
    unfold BoundaryTags.discard at hx
    rw [Option.ite_none_left_eq_some] at hx
    obtain ⟨hne, hx⟩ := hx
    obtain ⟨r', hr', hlo, hsize, hzero⟩ := hC.inside hx
    refine ⟨r', List.mem_filter.mpr ⟨hr', ?_⟩, hlo, hsize, hzero⟩
    -- a block of the region would be the first one or the last one
    simp only [decide_eq_true_eq]
    rintro rfl
    have hlt : x < r'.stop := by
      by_cases hs : t'.size = 0
      · exact absurd (Or.inr (hzero hs)) hne
      · have := hsize hs
        omega
    rw [hL.none_between ha (by omega) (by omega)] at hx
    cases hx
  · intro r' hr'
    rw [hkept hr' le_rfl (hC.lt (hother hr').1).le]
    exact hC.first (hother hr').1
  · intro r' hr'
    rw [hkept hr' (hC.lt (hother hr').1).le le_rfl]
    exact hC.sentinel (hother hr').1

end Covers

namespace Laid

/-- A region with one free block. -/
theorem extend (hL : Laid w T) (hC : Covers w R T) (hw : 0 < w)
    (hr : ∀ r' ∈ R, r.stop + w ≤ r'.start ∨ r'.stop + w ≤ r.start) (hlt : r.start + w < r.stop) :
    Laid w (extend w T r) := by
  have hstart : BoundaryTags.extend w T r r.start = some ⟨r.stop - r.start - w, true, false⟩ :=
    if_pos rfl
  have hstop : BoundaryTags.extend w T r r.stop = some ⟨0, false, true⟩ := by
    unfold BoundaryTags.extend
    rw [if_neg (by omega), if_pos rfl]
  have hold : ∀ {x u}, T x = some u → BoundaryTags.extend w T r x = some u := by
    intro x u hx
    have := hC.apart_of_apart hr hx
    unfold BoundaryTags.extend
    rw [if_neg (by omega), if_neg (by omega), hx]
  -- the first block of the region, its sentinel, or a block that lies apart from both
  have hcases : ∀ {x u}, BoundaryTags.extend w T r x = some u →
      (x = r.start ∧ u = ⟨r.stop - r.start - w, true, false⟩) ∨
      (x = r.stop ∧ u = ⟨0, false, true⟩) ∨
      (T x = some u ∧ (r.stop + w ≤ x ∨ x + w + u.size ≤ r.start)) := by
    intro x u hx
    unfold BoundaryTags.extend at hx
    split at hx
    · exact Or.inl ⟨‹_›, (Option.some.inj hx).symm⟩
    · split at hx
      · exact Or.inr (Or.inl ⟨‹_›, (Option.some.inj hx).symm⟩)
      · exact Or.inr (Or.inr ⟨hx, hC.apart_of_apart hr hx⟩)
  refine ⟨?_, ?_, ?_, ?_⟩
  · intro x y u v hx hy hxy
    rcases hcases hx with ⟨rfl, rfl⟩ | ⟨rfl, rfl⟩ | ⟨hx, hx'⟩ <;>
      rcases hcases hy with ⟨rfl, rfl⟩ | ⟨rfl, rfl⟩ | ⟨hy, hy'⟩ <;>
      first
        | exact hL.apart hx hy hxy
        | omega
        | (simp only; omega)
  · intro x u hx hs
    rcases hcases hx with ⟨rfl, rfl⟩ | ⟨rfl, rfl⟩ | ⟨hx, hx'⟩
    · have hpos : r.start + w + (r.stop - r.start - w) = r.stop := by omega
      exact ⟨_, by rw [hpos]; exact hstop, rfl⟩
    · exact absurd rfl hs
    · obtain ⟨k, hk, hfree⟩ := hL.next hx hs
      exact ⟨k, hold hk, hfree⟩
  · intro x u hx hp
    rcases hcases hx with ⟨rfl, rfl⟩ | ⟨rfl, rfl⟩ | ⟨hx, hx'⟩
    · cases hp
    · exact ⟨r.start, _, hstart, rfl, by simp only; omega, by simp only; omega⟩
    · obtain ⟨p, k, hk, hrest⟩ := hL.prev hx hp
      exact ⟨p, k, hold hk, hrest⟩
  · intro x u hx hzero
    rcases hcases hx with ⟨rfl, rfl⟩ | ⟨rfl, rfl⟩ | ⟨hx, hx'⟩
    · simp only at hzero
      omega
    · rfl
    · exact hL.last hx hzero

/-- A region with one free block is removed. -/
theorem discard (hL : Laid w T) (hC : Covers w R T) (hw : 0 < w) (hr : r ∈ R)
    (ha : T r.start = some t) (hs : t.size ≠ 0) (hstop : r.start + w + t.size = r.stop) :
    Laid w (discard T r) := by
  have hold : ∀ {x u}, BoundaryTags.discard T r x = some u →
      (x ≠ r.start ∧ x ≠ r.stop) ∧ T x = some u := by
    intro x u hx
    unfold BoundaryTags.discard at hx
    rw [Option.ite_none_left_eq_some] at hx
    exact ⟨not_or.mp hx.1, hx.2⟩
  have hkept : ∀ {x}, x ≠ r.start → x ≠ r.stop → BoundaryTags.discard T r x = T x :=
    fun h₁ h₂ => if_neg (not_or.mpr ⟨h₁, h₂⟩)
  obtain ⟨n, hn, hzero⟩ := hC.sentinel hr
  refine ⟨?_, ?_, ?_, fun hx hz => hL.last (hold hx).2 hz⟩
  · intro x y u v hx hy hxy
    exact hL.apart (hold hx).2 (hold hy).2 hxy
  · intro x u hx hsize
    obtain ⟨⟨h₁, h₂⟩, hx⟩ := hold hx
    obtain ⟨k, hk, hfree⟩ := hL.next hx hsize
    -- only the block of the region is in front of its sentinel
    have hne : x + w + u.size ≠ r.stop := fun he =>
      h₁ (hL.next_inj hw hx ha (he.trans hstop.symm))
    exact ⟨k, by rw [hkept (hC.next_ne_start hw hx hsize hr) hne, hk], hfree⟩
  · intro x u hx hp
    obtain ⟨⟨h₁, h₂⟩, hx⟩ := hold hx
    obtain ⟨p, k, hk, hfree, hsize, hpx⟩ := hL.prev hx hp
    have hne : p ≠ r.start := by
      rintro rfl
      obtain rfl := Option.some.inj (hk.symm.trans ha)
      exact h₂ (hpx.symm.trans hstop)
    have hne' : p ≠ r.stop := by
      rintro rfl
      obtain rfl := Option.some.inj (hk.symm.trans hn)
      exact hsize hzero
    exact ⟨p, k, by rw [hkept hne hne', hk], hfree, hsize, hpx⟩

end Laid

/-! ### Coalescing -/

namespace Coalesced

/-- Fewer exceptions: one that is not free, or not behind a free block, is none. -/
theorem of_exceptions {S' : Set ℕ} (h : Coalesced S T)
    (hS : ∀ a t, a ∈ S → a ∉ S' → T a = some t → t.free = true → t.prevFree = false) :
    Coalesced S' T := by
  intro x t' hx hxS' hfree
  by_cases hxS : x ∈ S
  · exact hS x t' hxS hxS' hx hfree
  · exact h x t' hx hxS hfree

/-- The block that is freed and the one behind it can be exceptions now. -/
theorem mark_free (h : Coalesced S T) :
    Coalesced (insert a (insert (a + w + t.size) S)) (mark w T a t n true) := by
  intro x t' hx hxS hfree
  simp only [Set.mem_insert_iff, not_or] at hxS
  unfold BoundaryTags.mark at hx
  rw [if_neg hxS.1, if_neg hxS.2.1] at hx
  exact h x t' hx hxS.2.2 hfree

/-- A block that is taken into use is not free, and the one behind it not behind a free one. -/
theorem mark_used (h : Coalesced S T) :
    Coalesced (S \ {a, a + w + t.size}) (mark w T a t n false) := by
  intro x t' hx hxS hfree
  unfold BoundaryTags.mark at hx
  split at hx
  · obtain rfl := Option.some.inj hx
    cases hfree
  · next hxa =>
    split at hx
    · obtain rfl := Option.some.inj hx
      rfl
    · next hxn =>
      refine h x t' hx (fun hmem => hxS ⟨hmem, ?_⟩) hfree
      simp only [Set.mem_insert_iff, Set.mem_singleton_iff, not_or]
      exact ⟨hxa, hxn⟩

/-- The rest of a free block is behind a free block. -/
theorem cut_free (h : Coalesced S T) (hL : Laid w T) (ha : T a = some t) (hs : t.size ≠ 0)
    (hn : T (a + w + t.size) = some n) (htf : t.free = true) :
    Coalesced (insert (a + w + s) S) (cut w T a t n s true) := by
  intro x t' hx hxS hfree
  simp only [Set.mem_insert_iff, not_or] at hxS
  unfold BoundaryTags.cut at hx
  rw [if_neg hxS.1] at hx
  split at hx
  · next hxa =>
    obtain rfl := Option.some.inj hx
    exact h a t ha (hxa ▸ hxS.2) htf
  · split at hx
    · next hxn =>
      -- the block behind knew its neighbour to be free before
      obtain rfl := Option.some.inj hx
      have hprev := h _ n hn (hxn ▸ hxS.2) hfree
      rw [hL.prevFree_eq ha hs hn, htf] at hprev
      cases hprev
    · exact h x t' hx hxS.2 hfree

/-- The rest of a block in use is in front of the block behind it. -/
theorem cut_used (h : Coalesced S T) (htf : t.free = false) :
    Coalesced (insert (a + w + t.size) S) (cut w T a t n s true) := by
  intro x t' hx hxS hfree
  simp only [Set.mem_insert_iff, not_or] at hxS
  unfold BoundaryTags.cut at hx
  rw [if_neg hxS.1] at hx
  split at hx
  · obtain rfl := Option.some.inj hx
    rw [htf] at hfree
    cases hfree
  · split at hx
    · obtain rfl := Option.some.inj hx
      exact htf
    · exact h x t' hx hxS.2 hfree

/-- **A free block that is taken to the one in front of it.** -/
theorem join (h : Coalesced S T) (hL : Laid w T) (hw : 0 < w) (ha : T a = some t)
    (hn : T (a + w + t.size) = some n) (hns : n.size ≠ 0) (hnf : n.free = true)
    (hm : T (a + w + t.size + w + n.size) = some m) :
    Coalesced (S \ {a + w + t.size}) (join w T a t n m) := by
  intro x t' hx hxS hfree
  have hout : x ≠ a + w + t.size → x ∉ S := fun hne hmem => hxS ⟨hmem, hne⟩
  unfold BoundaryTags.join at hx
  split at hx
  · next hxa =>
    obtain rfl := Option.some.inj hx
    have hne : x ≠ a + w + t.size := by omega
    exact h a t ha (hxa ▸ hout hne) hfree
  · split at hx
    · cases hx
    · next hxn =>
      split at hx
      · next hxm =>
        obtain rfl := Option.some.inj hx
        have hprev := h _ m hm (hxm ▸ hout hxn) hfree
        rw [hL.prevFree_eq hn hns hm, hnf] at hprev
        cases hprev
      · exact h x t' hx (hout hxn) hfree

/-- A region that is added has one free block. -/
theorem extend (h : Coalesced S T) : Coalesced S (extend w T r) := by
  intro x t' hx hxS hfree
  unfold BoundaryTags.extend at hx
  split at hx
  · obtain rfl := Option.some.inj hx
    rfl
  · split at hx
    · obtain rfl := Option.some.inj hx
      cases hfree
    · exact h x t' hx hxS hfree

theorem discard (h : Coalesced S T) : Coalesced S (discard T r) := by
  intro x t' hx hxS hfree
  unfold BoundaryTags.discard at hx
  rw [Option.ite_none_left_eq_some] at hx
  exact h x t' hx.2 hxS hfree

/-- In a coalesced heap, the block behind a free one is not free. -/
theorem next_used (h : Coalesced ∅ T) (hL : Laid w T) (ha : T a = some t) (hfree : t.free = true)
    (hn : T (a + w + t.size) = some n) : n.free = false := by
  by_contra hnf
  rw [Bool.not_eq_false] at hnf
  have hprev := h _ n hn (Set.notMem_empty _) hnf
  rw [hL.prevFree_eq ha (hL.size_ne_zero ha hfree) hn, hfree] at hprev
  cases hprev

end Coalesced

/-- **A region without a block in use.** All that is in it is one free block. -/
theorem Covers.first_next_sentinel (hC : Covers w R T) (hL : Laid w T) (hS : Coalesced ∅ T)
    (hr : r ∈ R)
    (hnone : ∀ a t, T a = some t → r.start ≤ a → a < r.stop → t.size ≠ 0 → t.free = true) :
    ∃ t, T r.start = some t ∧ t.free = true ∧ t.size ≠ 0 ∧ r.start + w + t.size = r.stop := by
  obtain ⟨t, ht, hs, -⟩ := hC.first hr
  have hfree := hnone r.start t ht le_rfl (hC.lt hr) hs
  obtain ⟨n, hn, -⟩ := hL.next ht hs
  refine ⟨t, ht, hfree, hs, ?_⟩
  have hused := hS.next_used hL ht hfree hn
  obtain ⟨u, hu, hzero⟩ := hC.sentinel hr
  have hle := hL.apart ht hu (hC.lt hr)
  by_contra hne
  -- the block behind the first one is not free, so it is the last one of another region
  have hns : n.size = 0 := by
    by_contra hns
    rw [hnone _ n hn (by omega) (by omega) hns] at hused
    cases hused
  obtain ⟨r', hr', hlo, -, hlast⟩ := hC.inside hn
  have hstop := hlast hns
  have hne' : r ≠ r' := by
    rintro rfl
    exact hne hstop
  have := hC.disjoint hr hr' hne'
  have := hC.lt hr'
  omega

/-! ### The blocks of a region -/

/-- The blocks from `a` on, one behind the other, up to the header at `stop`. -/
def Chain (w : ℕ) (T : Tags) (stop : ℕ) : ℕ → List (ℕ × Tag) → Prop
  | a, [] => a = stop
  | a, (b, t) :: l => b = a ∧ T b = some t ∧ t.size ≠ 0 ∧ Chain w T stop (b + w + t.size) l

theorem Chain.le {stop : ℕ} {l : List (ℕ × Tag)} (h : Chain w T stop a l) : a ≤ stop := by
  induction l generalizing a with
  | nil => exact le_of_eq h
  | cons p l ih =>
    obtain ⟨hb, -, -, hrest⟩ := h
    have := ih hrest
    omega

/-- Not more blocks than addresses. -/
theorem Chain.length_le {stop : ℕ} {l : List (ℕ × Tag)} (h : Chain w T stop a l) :
    a + l.length ≤ stop := by
  induction l generalizing a with
  | nil => exact le_of_eq h
  | cons p l ih =>
    obtain ⟨hb, -, hs, hrest⟩ := h
    have := ih hrest
    rw [List.length_cons]
    omega

/-- No byte is between them. -/
theorem Chain.sum {stop : ℕ} {l : List (ℕ × Tag)} (h : Chain w T stop a l) :
    a + (l.map fun p => w + p.2.size).sum = stop := by
  induction l generalizing a with
  | nil => exact h
  | cons p l ih =>
    obtain ⟨rfl, -, -, hrest⟩ := h
    have := ih hrest
    rw [List.map_cons, List.sum_cons]
    omega

theorem Covers.exists_chain_from (hC : Covers w R T) (hL : Laid w T) (hw : 0 < w) (hr : r ∈ R)
    (hlo : r.start ≤ a) (hhi : a ≤ r.stop) (ha : T a = some t) :
    ∃ l, Chain w T r.stop a l ∧ ∀ b u, (b, u) ∈ l ↔ T b = some u ∧ a ≤ b ∧ b < r.stop := by
  induction hn : r.stop - a using Nat.strong_induction_on generalizing a t with
  | h n ih =>
    obtain ⟨r', hr', hlo', hstop, hlast⟩ := hC.inside ha
    by_cases hs : t.size = 0
    · obtain rfl : r = r' := hC.region_inj hr hr' hlo hhi hlo' (hlast hs).le hw
      refine ⟨[], hlast hs, fun b u => iff_of_false List.not_mem_nil ?_⟩
      rintro ⟨-, hle, hlt⟩
      exact absurd (hlast hs) (hle.trans_lt hlt).ne
    · have hend := hstop hs
      obtain rfl : r = r' := hC.region_inj hr hr' hlo hhi hlo' (by omega) hw
      obtain ⟨n', hn', -⟩ := hL.next ha hs
      obtain ⟨l, hl, hmem⟩ := ih (r.stop - (a + w + t.size)) (by omega) (by omega) hend hn' rfl
      refine ⟨(a, t) :: l, ⟨rfl, ha, hs, hl⟩, fun b u => ?_⟩
      rw [List.mem_cons, hmem, Prod.mk.injEq]
      constructor
      · rintro (⟨rfl, rfl⟩ | ⟨hb, hle, hlt⟩)
        · exact ⟨ha, le_rfl, by omega⟩
        · exact ⟨hb, by omega, hlt⟩
      · rintro ⟨hb, hle, hlt⟩
        rcases Nat.eq_or_lt_of_le hle with rfl | hgt
        · exact Or.inl ⟨rfl, Option.some.inj (hb.symm.trans ha)⟩
        · exact Or.inr ⟨hb, hL.apart ha hb hgt, hlt⟩

/-- **The blocks of a region**, from its first header to its last one. -/
theorem Covers.exists_chain (hC : Covers w R T) (hL : Laid w T) (hw : 0 < w) (hr : r ∈ R) :
    ∃ l, Chain w T r.stop r.start l ∧
      ∀ b u, (b, u) ∈ l ↔ T b = some u ∧ r.start ≤ b ∧ b < r.stop := by
  obtain ⟨t, ht, -⟩ := hC.first hr
  exact hC.exists_chain_from hL hw hr le_rfl (hC.lt hr).le ht

end BoundaryTags
