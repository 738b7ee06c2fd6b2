import Mathlib.Data.List.Perm.Subperm
import Tjost.Memory.TlsfCalls

/-!
# The checks of the allocator

`tlsf_check` looks at the free lists and their bitmaps, and `tlsf_check_pool` walks over the blocks
of a pool. They count down from `0` for everything that is not as it should be, and the allocator
is sound where both answer `0`.

That they do is what `Intact` promises: `check_spec` and `checkPool_spec`. The walk over a pool
meets its blocks one behind the other (`walkPool_spec`). Without a callback it prints them, so it is
also the way to see from outside what the allocator has (`printPool_spec`).

The loops are bounded by `fuel`. No list and no pool has `2 ^ 64` blocks.
-/

namespace Tjost.TwoLevel

open ByteMemory BoundaryTags

/-! ### The functions -/

/-- `tlsf_insist`. -/
def insist (p : Prop) [Decidable p] (status : ℤ) : ℤ := if p then status else status - 1

/-- `integrity_t`. -/
structure Integrity where
  prevStatus : Bool
  status : ℤ
  deriving DecidableEq, Repr

/-- `integrity_walker`. -/
def integrityWalker (mem : ByteMemory.Memory) (integ : Integrity) (ptr size : ℕ) (_used : Bool) :
    Integrity :=
  let block := blockFromPtr ptr
  let status := insist (integ.prevStatus = blockIsPrevFree mem block) 0
  let status := insist (size = blockSize mem block) status
  { prevStatus := blockIsFree mem block, status := integ.status + status }

/-- The loop of `tlsf_walk_pool`. -/
def walk {σ : Type} (mem : ByteMemory.Memory) (walker : σ → ℕ → ℕ → Bool → σ) :
    ℕ → ℕ → σ → Option σ
  | 0, _, _ => none
  | fuel + 1, block, user =>
    if block = 0 ∨ blockIsLast mem block then some user
    else do
      let user := walker user (blockToPtr block) (blockSize mem block) (!blockIsFree mem block)
      let next ← blockNext mem block
      walk mem walker fuel next user

/-- `tlsf_walk_pool`. -/
def walkPool {σ : Type} (mem : ByteMemory.Memory) (walker : σ → ℕ → ℕ → Bool → σ)
    (fuel pool : ℕ) (user : σ) : Option σ :=
  walk mem walker fuel (pool - 8) user

/-- What a line of `default_walker` says. -/
structure Line where
  ptr : ℕ
  used : Bool
  size : ℕ
  block : ℕ
  deriving DecidableEq, Repr

/-- `default_walker`, with the lines that it prints. -/
def defaultWalker (lines : List Line) (ptr size : ℕ) (used : Bool) : List Line :=
  lines ++ [{ ptr, used, size := size % 2 ^ 32, block := blockFromPtr ptr }]

/-- `tlsf_walk_pool` without a callback. -/
def printPool (mem : ByteMemory.Memory) (fuel pool : ℕ) : Option (List Line) :=
  walkPool mem defaultWalker fuel pool []

/-- `tlsf_check_pool`. -/
def checkPool (mem : ByteMemory.Memory) (fuel pool : ℕ) : Option ℤ :=
  (walkPool mem (integrityWalker mem) fuel pool ⟨false, 0⟩).map Integrity.status

variable (ctl : ℕ)

/-- The loop of `tlsf_check` over one of the lists. -/
def checkList (s : Control) (i j : ℕ) : ℕ → ℕ → ℤ → Option ℤ
  | 0, _, _ => none
  | fuel + 1, block, status =>
    if block = ctl then some status
    else do
      let next ← blockNext s.mem block
      let status := insist (blockIsFree s.mem block) status
      let status := insist (¬ blockIsPrevFree s.mem block) status
      let status := insist (¬ blockIsFree s.mem next) status
      let status := insist (blockIsPrevFree s.mem next) status
      let status := insist (24 ≤ blockSize s.mem block) status
      let status := insist (mappingInsert (blockSize s.mem block) = (i, j)) status
      checkList s i j fuel (nextFree s.mem block) status

/-- What `tlsf_check` does for one of the classes. -/
def checkClass (s : Control) (fuel i j : ℕ) (status : ℤ) : Option ℤ :=
  let slList := s.slBitmap i
  let slMap := slList &&& (1#32 <<< j)
  let block := s.blocks i j
  let status :=
    if s.flBitmap &&& (1#32 <<< i) = 0 then insist (slMap = 0) status else status
  if slMap = 0 then some (insist (block = ctl) status)
  else
    let status := insist (slList ≠ 0) status
    let status := insist (block ≠ ctl) status
    checkList ctl s i j fuel block status

/-- `tlsf_check`. -/
def check (s : Control) (fuel : ℕ) : Option ℤ :=
  (List.range 25).foldlM (fun status i =>
    (List.range 32).foldlM (fun status j => checkClass ctl s fuel i j status) status) 0

variable {ctl}
variable {R : List Region} {D S : Set ℕ} {s : Control} {T : Tags} {mem : ByteMemory.Memory}
  {a b z fl sl size fuel : ℕ} {t n : Tag} {r : Region}

theorem insist_eq {p : Prop} [Decidable p] (h : p) (status : ℤ) : insist p status = status :=
  if_pos h

/-! ### The walk over a pool -/

section Walk

variable {σ : Type} {walker : σ → ℕ → ℕ → Bool → σ} {user : σ} {l : List (ℕ × Tag)} {L : Set ℕ}

/-- The callback for one block after the other. -/
def visit (walker : σ → ℕ → ℕ → Bool → σ) (user : σ) (p : ℕ × Tag) : σ :=
  walker user (p.1 + 16) p.2.size (!p.2.free)

theorem walk_chain {stop : ℕ} (hP : Placed ctl T) (hH : Holds T L mem)
    (hstop : T stop = some ⟨0, false, n.prevFree⟩) (h : Chain 8 T stop a l)
    (hfuel : l.length < fuel) :
    walk mem walker fuel a user = some (l.foldl (visit walker) user) := by
  induction l generalizing a user fuel with
  | nil =>
    -- the sentinel ends the walk
    obtain ⟨fuel, rfl⟩ : ∃ k, fuel = k + 1 := ⟨fuel - 1, by omega⟩
    obtain rfl : a = stop := h
    have hlast := blockIsLast_eq (hH.tag hstop) (hP.four_dvd hstop)
    unfold walk
    rw [if_pos (Or.inr (by rw [hlast]; rfl))]
    rfl
  | cons p l ih =>
    obtain ⟨b, t⟩ := p
    obtain ⟨rfl, ht, hs, hrest⟩ := h
    rw [List.length_cons] at hfuel
    obtain ⟨fuel, rfl⟩ : ∃ k, fuel = k + 1 := ⟨fuel - 1, by omega⟩
    have hnull := (hP.bounds ht).1
    have hlast := blockIsLast_eq (hH.tag ht) (hP.four_dvd ht)
    have hcont : ¬ (b = 0 ∨ blockIsLast mem b = true) := by
      rw [hlast, beq_iff_eq]
      omega
    unfold walk
    rw [if_neg hcont]
    simp only [blockNext_of_holds hP hH ht hs, blockSize_eq (hH.tag ht) (hP.four_dvd ht),
      blockIsFree_eq (hH.tag ht) (hP.four_dvd ht), Option.bind_eq_bind, Option.bind_some]
    exact ih hrest (by omega)

/-- **`tlsf_walk_pool`** meets the blocks of the pool, in their order. -/
theorem walkPool_spec (h : Intact ctl R D S s T) (hr : r ∈ R) (hfuel : 2 ^ 64 ≤ fuel) :
    ∃ l, Chain 8 T r.stop r.start l ∧
      (∀ b u, (b, u) ∈ l ↔ T b = some u ∧ r.start ≤ b ∧ b < r.stop) ∧
      ∀ (walker : σ → ℕ → ℕ → Bool → σ) (user : σ),
        walkPool s.mem walker fuel (r.start + 8) user = some (l.foldl (visit walker) user) := by
  obtain ⟨l, hl, hmem⟩ := h.sound.covers.exists_chain h.sound.laid (by decide) hr
  obtain ⟨n, hn, hzero⟩ := h.sound.covers.sentinel hr
  have hused := h.sound.laid.last hn hzero
  have hend := (h.sound.placed.bounds hn).2
  have hlen := hl.length_le
  refine ⟨l, hl, hmem, fun walker user => ?_⟩
  unfold walkPool
  rw [Nat.add_sub_cancel]
  refine walk_chain h.sound.placed h.holds (n := n) ?_ hl (by omega)
  rw [hn, ← hzero, ← hused]

end Walk

/-- The line of a block. -/
def Line.of (p : ℕ × Tag) : Line := ⟨p.1 + 16, !p.2.free, p.2.size, p.1⟩

theorem foldl_defaultWalker {l : List (ℕ × Tag)} (hsmall : ∀ p ∈ l, p.2.size < 2 ^ 32)
    (lines : List Line) : l.foldl (visit defaultWalker) lines = lines ++ l.map Line.of := by
  induction l generalizing lines with
  | nil => rw [List.foldl_nil, List.map_nil, List.append_nil]
  | cons p l ih =>
    have hone : visit defaultWalker lines p = lines ++ [Line.of p] := by
      unfold visit defaultWalker blockFromPtr Line.of
      rw [Nat.mod_eq_of_lt (hsmall p List.mem_cons_self), Nat.add_sub_cancel]
    rw [List.foldl_cons, hone, ih fun q hq => hsmall q (List.mem_cons_of_mem p hq),
      List.map_cons, List.append_assoc]
    rfl

/-- What is printed of a pool. -/
theorem printPool_spec (h : Intact ctl R D S s T) (hr : r ∈ R) (hfuel : 2 ^ 64 ≤ fuel) :
    ∃ l, Chain 8 T r.stop r.start l ∧
      (∀ b u, (b, u) ∈ l ↔ T b = some u ∧ r.start ≤ b ∧ b < r.stop) ∧
      printPool s.mem fuel (r.start + 8) = some (l.map Line.of) := by
  obtain ⟨l, hl, hmem, hwalk⟩ := walkPool_spec h hr hfuel
  refine ⟨l, hl, hmem, ?_⟩
  have hsmall : ∀ p ∈ l, p.2.size < 2 ^ 32 := fun p hp =>
    h.sound.placed.small ((hmem p.1 p.2).mp hp).1
  unfold printPool
  rw [hwalk, foldl_defaultWalker hsmall, List.nil_append]

/-- A line that does not say `used` is that of a free block. -/
theorem free_of_line {lines : List Line} {x : Line} (h : Intact ctl R D S s T) (hr : r ∈ R)
    (hfuel : 2 ^ 64 ≤ fuel) (hlines : printPool s.mem fuel (r.start + 8) = some lines)
    (hx : x ∈ lines) (hused : x.used = false) :
    ∃ b u, T b = some u ∧ u.free = true ∧ x = Line.of (b, u) := by
  obtain ⟨l, -, hmem, hprint⟩ := printPool_spec h hr hfuel
  obtain rfl := Option.some.inj (hprint.symm.trans hlines)
  obtain ⟨⟨b, u⟩, hp, rfl⟩ := List.mem_map.mp hx
  exact ⟨b, u, ((hmem b u).mp hp).1, by simpa [Line.of] using hused, rfl⟩

/-- Every free block has such a line, in the walk over its pool. -/
theorem line_of_free (h : Intact ctl R D S s T) (hfuel : 2 ^ 64 ≤ fuel) (ha : T a = some t)
    (hfree : t.free = true) : ∃ r ∈ R, ∃ lines, printPool s.mem fuel (r.start + 8) = some lines ∧
      Line.of (a, t) ∈ lines ∧ (Line.of (a, t)).used = false := by
  obtain ⟨r, hr, hlo, hhi, -⟩ := h.sound.covers.inside ha
  have hend := hhi (h.sound.laid.size_ne_zero ha hfree)
  obtain ⟨l, -, hmem, hprint⟩ := printPool_spec h hr hfuel
  refine ⟨r, hr, _, hprint, List.mem_map_of_mem ((hmem a t).mpr ⟨ha, hlo, by omega⟩), ?_⟩
  unfold Line.of
  simp only [hfree, Bool.not_true]

/-- The flag that the walk carries along is what the next header says. -/
theorem integrity_chain {L : Set ℕ} {stop : ℕ} {l : List (ℕ × Tag)} (hL : Laid 8 T)
    (hP : Placed ctl T) (hH : Holds T L mem) (h : Chain 8 T stop a l) (ha : T a = some t)
    (status : ℤ) :
    (l.foldl (visit (integrityWalker mem)) ⟨t.prevFree, status⟩).status = status := by
  induction l generalizing a t with
  | nil => rfl
  | cons p l ih =>
    obtain ⟨b, u⟩ := p
    obtain ⟨rfl, hb, hs, hrest⟩ := h
    obtain rfl := Option.some.inj (hb.symm.trans ha)
    obtain ⟨n, hn, hprev⟩ := hL.next ha hs
    -- nothing is subtracted, and the state of the block is the flag for the next one
    have hone : visit (integrityWalker mem) ⟨u.prevFree, status⟩ (b, u) = ⟨n.prevFree, status⟩ := by
      unfold visit integrityWalker blockFromPtr
      simp only [Nat.add_sub_cancel, blockIsPrevFree_eq (hH.tag ha) (hP.four_dvd ha),
        blockSize_eq (hH.tag ha) (hP.four_dvd ha), blockIsFree_eq (hH.tag ha) (hP.four_dvd ha),
        insist_eq trivial, hprev, add_zero]
    rw [List.foldl_cons, hone]
    exact ih hrest hn

/-- **`tlsf_check_pool`.** -/
theorem checkPool_spec (h : Intact ctl R D S s T) (hr : r ∈ R) (hfuel : 2 ^ 64 ≤ fuel) :
    checkPool s.mem fuel (r.start + 8) = some 0 := by
  obtain ⟨l, hl, -, hwalk⟩ := walkPool_spec h hr hfuel
  obtain ⟨t, ht, -, hprev⟩ := h.sound.covers.first hr
  unfold checkPool
  rw [hwalk, Option.map_some, ← hprev]
  exact congrArg some (integrity_chain h.sound.laid h.sound.placed h.holds hl ht 0)

/-! ### The lists -/

theorem checkList_eq {before : ℕ} {l : List ℕ} (h : Intact ctl R ∅ ∅ s T)
    (hl : LinkedList.Linked (nextFree s.mem) (prevFree s.mem) ctl before a l)
    (hmem : ∀ x ∈ l, Indexed T ∅ fl sl x) (hfuel : l.length < fuel) (status : ℤ) :
    checkList ctl s fl sl fuel a status = some status := by
  have hP := h.sound.placed
  induction l generalizing before a fuel with
  | nil =>
    obtain ⟨fuel, rfl⟩ : ∃ k, fuel = k + 1 := ⟨fuel - 1, by omega⟩
    obtain rfl : a = ctl := hl
    unfold checkList
    rw [if_pos rfl]
  | cons x l ih =>
    obtain ⟨rfl, -, hrest⟩ := hl
    rw [List.length_cons] at hfuel
    obtain ⟨fuel, rfl⟩ : ∃ k, fuel = k + 1 := ⟨fuel - 1, by omega⟩
    obtain ⟨-, t, ht, hfree, hs, hclass⟩ := hmem a List.mem_cons_self
    obtain ⟨n, hn, hprev⟩ := h.sound.laid.next ht hs
    have hnused := h.coalesced.next_used h.sound.laid ht hfree hn
    have hcoalesced := h.coalesced a t ht (Set.notMem_empty a) hfree
    have hleast := hP.least ht hs
    have haway := hP.away ht
    unfold checkList
    rw [if_neg (by omega)]
    -- what the six checks read, as the tags of the block and of the one behind it
    simp only [blockNext_of_holds hP h.holds ht hs, Option.bind_eq_bind, Option.bind_some,
      blockIsFree_eq (h.holds.tag ht) (hP.four_dvd ht), hfree,
      blockIsPrevFree_eq (h.holds.tag ht) (hP.four_dvd ht), hcoalesced,
      blockIsFree_eq (h.holds.tag hn) (hP.four_dvd hn), hnused,
      blockIsPrevFree_eq (h.holds.tag hn) (hP.four_dvd hn), hprev,
      blockSize_eq (h.holds.tag ht) (hP.four_dvd ht), hclass]
    rw [insist_eq trivial, insist_eq hleast, insist_eq trivial, insist_eq (by decide),
      insist_eq (by decide), insist_eq trivial]
    exact ih hrest (fun y hy => hmem y (List.mem_cons_of_mem a hy)) (by omega)

/-- Not more free blocks than addresses. -/
theorem length_lt_of_indexed {l : List ℕ} (hP : Placed ctl T) (hnodup : l.Nodup)
    (hmem : ∀ x ∈ l, Indexed T D fl sl x) : l.length < 2 ^ 64 := by
  -- the pigeonhole: `l` has no entry twice
  have hsub : l ⊆ List.range' 1 (2 ^ 64 - 1) := by
    intro x hx
    obtain ⟨-, t, ht, -⟩ := hmem x hx
    have := hP.bounds ht
    rw [List.mem_range'_1]
    omega
  have hle := (hnodup.subperm hsub).length_le
  rw [List.length_range'] at hle
  omega

theorem checkClass_eq (h : Intact ctl R ∅ ∅ s T) (hfl : fl < 25) (hsl : sl < 32)
    (hfuel : 2 ^ 64 ≤ fuel) (status : ℤ) : checkClass ctl s fuel fl sl status = some status := by
  obtain ⟨l, hl, hnodup, hmem⟩ := h.listed.lists fl sl hfl hsl
  have hsecond := h.listed.second fl sl hfl hsl
  have hfirst := h.listed.first fl
  have hlen := length_lt_of_indexed h.sound.placed hnodup fun x hx => (hmem x).mp hx
  have hnull : ctl ∉ l := by
    intro hc
    obtain ⟨-, t, ht, -⟩ := (hmem ctl).mp hc
    have := h.sound.placed.away ht
    omega
  have hhead := hl.head_eq_null_iff hnull
  unfold checkClass
  by_cases hbit : s.slBitmap fl &&& (1#32 <<< sl) = 0
  · -- the class is empty
    have hnone : l = [] := by
      refine List.eq_nil_iff_forall_not_mem.mpr fun x hx => ?_
      have hx' := hsecond.mpr ⟨x, (hmem x).mp hx⟩
      exact (Bitmap.and_single_ne_zero_iff _ _).mpr hx' hbit
    simp only [hbit, if_true]
    rw [insist_eq (hhead.mpr hnone), insist_eq trivial, ite_self]
  · -- both bits are set, and the list has a block
    have hset := (Bitmap.and_single_ne_zero_iff _ _).mp hbit
    have hne : s.slBitmap fl ≠ 0 := Bitmap.ne_zero_iff.mpr ⟨sl, hset⟩
    have hbit' : s.flBitmap &&& (1#32 <<< fl) ≠ 0 :=
      (Bitmap.and_single_ne_zero_iff _ _).mpr (hfirst.mpr ⟨hfl, hne⟩)
    have hblock : s.blocks fl sl ≠ ctl := by
      rw [Ne, hhead]
      rintro rfl
      obtain ⟨x, hx⟩ := hsecond.mp hset
      exact absurd ((hmem x).mpr hx) List.not_mem_nil
    simp only [if_neg hbit', if_neg hbit]
    rw [insist_eq hne, insist_eq hblock]
    exact checkList_eq h hl (fun x hx => (hmem x).mp hx) (by omega) status

/-- A check that finds nothing for every entry finds nothing. -/
theorem foldlM_eq_some {α : Type} {f : ℤ → α → Option ℤ} {l : List α} (status : ℤ)
    (h : ∀ x ∈ l, ∀ status, f status x = some status) : l.foldlM f status = some status := by
  induction l with
  | nil => rfl
  | cons x l ih =>
    rw [List.foldlM_cons, h x List.mem_cons_self]
    exact ih fun y hy => h y (List.mem_cons_of_mem x hy)

/-- **`tlsf_check`.** -/
theorem check_spec (h : Intact ctl R ∅ ∅ s T) (hfuel : 2 ^ 64 ≤ fuel) :
    check ctl s fuel = some 0 := by
  refine foldlM_eq_some 0 fun i hi status => ?_
  refine foldlM_eq_some status fun j hj status => ?_
  exact checkClass_eq h (List.mem_range.mp hi) (List.mem_range.mp hj) hfuel status

end Tjost.TwoLevel
