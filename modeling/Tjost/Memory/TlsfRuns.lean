import Tjost.Library.Transition
import Tjost.Memory.TlsfChecks

/-!
# Runs of the allocator

A run is a sequence of calls, with the writes of the callers between them. The callers know their
pointers and what they have written, which is a partial map from pointers to arrays of bytes
(`Session.arrays`); it changes by what the calls answer, and without a look at the inside of the
allocator. `Legal` is what the callers have to keep to: a pointer that is given back comes from the
allocator, a write stays inside of its array, and a request has a size that the tables have a class
for.

* `step_spec` — a legal call does not fail, and keeps `Serves`: the allocator is `Intact`, its
  blocks in use are the ones that the callers know of, and their bytes are the ones of the arrays.
* `serves_of_reachable` — so this holds after every run of legal calls.

What follows for every such state is in terms of the callers again. The arrays are apart from each
other and have their bytes (`arrays_independent`), the checks of the allocator find nothing
(`checks_pass`), a walk over the pools meets the arrays (`printPool_arrays`). A request is refused
if and only if such a walk finds no free block that is large enough (`malloc_null_iff`), and
otherwise gets one that is not much larger than the best (`malloc_good_fit`). A pool can be removed
if and only if no array is in it (`removable_iff`); it is then a single free block again
(`printPool_unused`).
-/

namespace Tjost.TwoLevel

open ByteMemory BoundaryTags Transition

/-! ### Arrays in a memory -/

/-- The arrays of the callers are in blocks with the given sizes, one in every block, and their
bytes are in the memory. -/
structure Backed (arrays : ℕ → Option (List UInt8)) (mem : ByteMemory.Memory)
    (sizes : ℕ → Option ℕ) : Prop where
  block : ∀ {ptr bs}, arrays ptr = some bs →
    ∃ a z, ptr = a + 16 ∧ sizes a = some z ∧ bs.length ≤ z
  array : ∀ {a z}, sizes a = some z → ∃ bs, arrays (a + 16) = some bs
  contents : ∀ {ptr bs}, arrays ptr = some bs → read mem ptr bs.length = bs

namespace Backed

variable {arrays : ℕ → Option (List UInt8)} {mem mem' : ByteMemory.Memory} {sizes : ℕ → Option ℕ}
  {a k z : ℕ} {bs : List UInt8}

theorem null (h : Backed arrays mem sizes) : arrays 0 = none := by
  by_contra hc
  obtain ⟨bs, hbs⟩ := Option.ne_none_iff_exists'.mp hc
  obtain ⟨a, z, ha, -⟩ := h.block hbs
  omega

/-- Bytes that are in no block do not matter. -/
theorem congr (h : Backed arrays mem sizes) (heq : Set.EqOn mem' mem (bytes sizes)) :
    Backed arrays mem' sizes where
  block := h.block
  array := h.array
  contents := by
    intro ptr bs hbs
    obtain ⟨a, z, rfl, hz, hlen⟩ := h.block hbs
    refine (read_congr fun i hi => heq ⟨a, z, hz, hi.1, ?_⟩).trans (h.contents hbs)
    have := hi.2
    omega

/-- An array in a block that has none, or in the place of the one that was there. -/
theorem update (h : Backed arrays mem sizes) (hlen : bs.length ≤ k)
    (hbs : read mem (a + 16) bs.length = bs) :
    Backed (Function.update arrays (a + 16) (some bs)) mem (Function.update sizes a (some k)) where
  block := by
    intro ptr bs' hbs'
    obtain ⟨rfl, rfl⟩ | ⟨hptr, hbs'⟩ := update_some_eq_some.mp hbs'
    · exact ⟨a, k, rfl, Function.update_self .., hlen⟩
    · obtain ⟨b, z, rfl, hz, hle⟩ := h.block hbs'
      exact ⟨b, z, rfl, by rw [Function.update_of_ne (by omega), hz], hle⟩
  array := by
    intro b z hz
    obtain ⟨rfl, -⟩ | ⟨hb, hz⟩ := update_some_eq_some.mp hz
    · exact ⟨bs, Function.update_self ..⟩
    · rw [Function.update_of_ne (by omega)]
      exact h.array hz
  contents := by
    intro ptr bs' hbs'
    obtain ⟨rfl, rfl⟩ | ⟨-, hbs'⟩ := update_some_eq_some.mp hbs'
    · exact hbs
    · exact h.contents hbs'

/-- An array that is given back with its block. -/
theorem erase (h : Backed arrays mem sizes) (a : ℕ) :
    Backed (Function.update arrays (a + 16) none) mem (Function.update sizes a none) where
  block := by
    intro ptr bs hbs
    obtain ⟨hptr, hbs⟩ := update_none_eq_some.mp hbs
    obtain ⟨b, z, rfl, hz, hle⟩ := h.block hbs
    exact ⟨b, z, rfl, by rw [Function.update_of_ne (by omega), hz], hle⟩
  array := by
    intro b z hz
    obtain ⟨hb, hz⟩ := update_none_eq_some.mp hz
    rw [Function.update_of_ne (by omega)]
    exact h.array hz
  contents := by
    intro ptr bs hbs
    exact h.contents (update_none_eq_some.mp hbs).2

end Backed

/-! ### The machine -/

/-- An allocator and its callers. -/
structure Session where
  control : Control
  pools : List Region
  /-- The arrays of the callers by their pointers. -/
  arrays : ℕ → Option (List UInt8)

inductive Call
  | malloc (size : ℕ)
  | free (ptr : ℕ)
  | realloc (ptr size : ℕ)
  /-- A caller writes the byte with the given index of its array. -/
  | store (ptr i : ℕ) (byte : UInt8)
  | addPool (area bytes : ℕ)
  | removePool (pool : Region)
  deriving DecidableEq, Repr

/-- The array of an allocation, with the bytes that are there. -/
def granted (arrays : ℕ → Option (List UInt8)) (mem : ByteMemory.Memory) (ptr size : ℕ) :
    ℕ → Option (List UInt8) :=
  if ptr = 0 then arrays else Function.update arrays ptr (some (read mem ptr size))

/-- The array of a reallocation. It begins as the old one, as far as both go; the bytes behind are
the ones that are there. -/
def exchanged (arrays : ℕ → Option (List UInt8)) (mem : ByteMemory.Memory) (ptr size ptr' : ℕ) :
    ℕ → Option (List UInt8) :=
  if ptr' = 0 then if size = 0 then Function.update arrays ptr none else arrays
  else
    let kept := ((arrays ptr).getD []).take size
    Function.update (Function.update arrays ptr none) ptr'
      (some (kept ++ read mem (ptr' + kept.length) (size - kept.length)))

variable (ctl : ℕ)

/-- A call with what the callers learn from its answer. -/
def step (h : Session) : Call → Option Session
  | .malloc size => do
    let (control, ptr) ← malloc ctl h.control size
    some { h with control, arrays := granted h.arrays control.mem ptr size }
  | .free ptr => do
    let control ← free ctl h.control ptr
    some { h with control, arrays := Function.update h.arrays ptr none }
  | .realloc ptr size => do
    let (control, ptr') ← realloc ctl h.control ptr size
    some { h with control, arrays := exchanged h.arrays control.mem ptr size ptr' }
  | .store ptr i byte =>
    some { h with
      control := { h.control with mem := Function.update h.control.mem (ptr + i) byte }
      arrays := Function.update h.arrays ptr ((h.arrays ptr).map fun bs => bs.set i byte) }
  | .addPool area bytes => do
    let (control, pool) ← addPool ctl h.control area bytes
    some { h with
      control, pools := if pool = 0 then h.pools else poolRegion area bytes :: h.pools }
  | .removePool r => do
    let control ← removePool ctl h.control (r.start + 8)
    some { h with control, pools := h.pools.filter (· ≠ r) }

/-- A request for which there is a class, or one that is too large for any. -/
def Classed (size : ℕ) : Prop := size ≤ 2 ^ 32 - 2 ^ 26 ∨ 2 ^ 32 ≤ size

instance (size : ℕ) : Decidable (Classed size) := inferInstanceAs (Decidable (_ ∨ _))

/-- Memory that `tlsf_add_pool` turns down. -/
def Unsuitable (area bytes : ℕ) : Prop :=
  ¬ 8 ∣ area ∨ bytes < 40 ∨ 2 ^ 32 + 24 ≤ bytes ∧ bytes < 2 ^ 64

instance (area bytes : ℕ) : Decidable (Unsuitable area bytes) :=
  inferInstanceAs (Decidable (_ ∨ _))

/-- No array is in the pool. -/
def Session.Unused (h : Session) (r : Region) : Prop :=
  ∀ ptr ∈ List.range' (r.start + 16) (r.stop - r.start), h.arrays ptr = none

instance (h : Session) (r : Region) : Decidable (h.Unused r) :=
  inferInstanceAs (Decidable (∀ ptr ∈ _, _))

/-- What the callers have to keep to. -/
def Legal (h : Session) : Call → Prop
  | .malloc size => Classed size
  | .free ptr => ptr = 0 ∨ (h.arrays ptr).isSome
  | .realloc ptr size =>
    ptr = 0 ∧ Classed size ∨ (h.arrays ptr).isSome ∧ size ≤ 2 ^ 32 - 2 ^ 26
  | .store ptr i _ => i < ((h.arrays ptr).getD []).length
  | .addPool area bytes => Unsuitable area bytes ∨ Room ctl h.pools area bytes
  | .removePool r => r ∈ h.pools ∧ h.Unused r

instance (h : Session) (c : Call) : Decidable (Legal ctl h c) := by
  cases c <;> unfold Legal <;> infer_instance

/-- `tlsf_create_with_pool`, with memory that may have any contents. -/
def create (mem : ByteMemory.Memory) (bytes : ℕ) : Option Session :=
  (createWithPool mem ctl bytes).map fun control =>
    { control, pools := [poolRegion (getPool ctl) (bytes - 6536)], arrays := fun _ => none }

/-- From a pool on that has a size for which there is a class. -/
def machine : Machine Session Call where
  init h := 0 < ctl ∧ 8 ∣ ctl ∧ ∃ mem bytes, 6576 ≤ bytes ∧ bytes < 2 ^ 32 + 6552 ∧
    ctl + bytes ≤ 2 ^ 64 ∧ create ctl mem bytes = some h
  step := step ctl

variable {ctl}
variable {h h' : Session} {T T' : Tags} {R : List Region} {s s' : Control} {c : Call}
  {a b z k ptr size fuel : ℕ} {bs : List UInt8} {r : Region}

/-! ### One call -/

/-- **The invariant of the runs.** -/
structure Serves (ctl : ℕ) (h : Session) (T : Tags) : Prop where
  intact : Intact ctl h.pools ∅ ∅ h.control T
  backed : Backed h.arrays h.control.mem (live T)
  /-- The memory of the pools is not in the control structure. -/
  away : ∀ r ∈ h.pools, r.stop + 16 ≤ ctl ∨ ctl + 6536 ≤ r.start + 8

theorem addPool_refused (s : Control) {area bytes : ℕ} (hun : Unsuitable area bytes) :
    addPool ctl s area bytes = some (s, 0) := by
  unfold addPool
  by_cases h8 : area % 8 = 0
  · rw [if_neg (not_not_intro h8)]
    refine if_pos ?_
    rcases hun with hun | hun | hun
    · omega
    · rw [alignDown_eight]
      omega
    · rw [alignDown_eight]
      omega
  · rw [if_pos h8]

/-- The block of a pointer of the callers. -/
theorem Serves.block (hS : Serves ctl h T) (hbs : (h.arrays ptr).isSome) :
    ∃ a z bs, ptr = a + 16 ∧ live T a = some z ∧ h.arrays ptr = some bs ∧ bs.length ≤ z := by
  obtain ⟨bs, hbs⟩ := Option.isSome_iff_exists.mp hbs
  obtain ⟨a, z, ha, hz, hlen⟩ := hS.backed.block hbs
  exact ⟨a, z, bs, ha, hz, hbs, hlen⟩

theorem step_malloc (hS : Serves ctl h T) (hsize : Classed size) :
    ∃ s ptr T', malloc ctl h.control size = some (s, ptr) ∧
      Serves ctl { h with control := s, arrays := granted h.arrays s.mem ptr size } T' := by
  rcases malloc_spec hS.intact hsize with ⟨-, hm⟩ | ⟨-, s', a, k, T', hm, h', ha, hk, hlive, heq⟩
  · exact ⟨h.control, 0, T, hm, hS.intact, hS.backed, hS.away⟩
  · -- a new array, of the bytes that are there
    refine ⟨s', a + 16, T', hm, h', ?_, hS.away⟩
    have hlen := length_read s'.mem (a + 16) size
    unfold granted
    rw [if_neg (by omega), hlive]
    refine (hS.backed.congr ?_).update (by rw [hlen]; exact hk) (by rw [hlen])
    rw [← used_eq_bytes]
    exact heq

theorem step_free (hS : Serves ctl h T) (hptr : (h.arrays ptr).isSome) :
    ∃ s T', free ctl h.control ptr = some s ∧
      Serves ctl { h with control := s, arrays := Function.update h.arrays ptr none } T' := by
  obtain ⟨a, z, bs, rfl, hz, -, -⟩ := hS.block hptr
  obtain ⟨s', T', hfree, h', hlive, heq⟩ := free_spec hS.intact hz
  refine ⟨s', T', hfree, h', ?_, hS.away⟩
  rw [used_eq_bytes, hlive] at heq
  simp only
  rw [hlive]
  exact (hS.backed.erase a).congr heq

/-- A reallocation of `NULL` is an allocation for the callers, too. -/
theorem exchanged_null {arrays : ℕ → Option (List UInt8)} (hnull : arrays 0 = none)
    (mem : ByteMemory.Memory) (size ptr : ℕ) :
    exchanged arrays mem 0 size ptr = granted arrays mem ptr size := by
  have hidem : Function.update arrays 0 none = arrays := by
    rw [← hnull, Function.update_eq_self]
  unfold exchanged granted
  rw [hidem, hnull, ite_self]
  by_cases hptr : ptr = 0
  · rw [if_pos hptr, if_pos hptr]
  · rw [if_neg hptr, if_neg hptr]
    simp

theorem step_realloc (hS : Serves ctl h T) (hptr : (h.arrays ptr).isSome)
    (hsize : size ≤ 2 ^ 32 - 2 ^ 26) :
    ∃ s ptr' T', realloc ctl h.control ptr size = some (s, ptr') ∧
      Serves ctl { h with control := s, arrays := exchanged h.arrays s.mem ptr size ptr' } T' := by
  obtain ⟨a, z, bs, rfl, hz, hbs, hlen⟩ := hS.block hptr
  by_cases hzero : size = 0
  · -- a length of zero frees the block
    obtain ⟨s', T', hfree, hS'⟩ := step_free hS hptr
    refine ⟨s', 0, T', ?_, ?_⟩
    · unfold realloc
      rw [if_pos ⟨by omega, hzero⟩, hfree]
      rfl
    · unfold exchanged
      rw [if_pos rfl, if_pos hzero]
      exact hS'
  rcases realloc_spec hS.intact hz hzero hsize with ⟨-, -, hre⟩ | ⟨s', b, hre, hR⟩
  · -- refused: the array stays as it is
    refine ⟨h.control, 0, T, hre, ?_⟩
    unfold exchanged
    rw [if_pos rfl, if_neg hzero]
    exact hS
  · obtain ⟨k, T', h', hk, hlive, -⟩ := hR.intact
    refine ⟨s', b + 16, T', hre, h', ?_, hS.away⟩
    have hkept : (bs.take size).length ≤ size := List.length_take_le size bs
    unfold exchanged
    rw [if_neg (by omega), hbs]
    simp only [Option.getD_some]
    rw [hlive]
    have hlength : (bs.take size ++ read s'.mem (b + 16 + (bs.take size).length)
        (size - (bs.take size).length)).length = size := by
      rw [List.length_append, length_read]
      omega
    refine ((hS.backed.erase a).congr hR.others).update (hlength.trans_le hk) ?_
    have hcommon : (bs.take size).length ≤ bs.length := by
      rw [List.length_take]
      omega
    -- the new block begins with what was in the old one
    have hprefix : read s'.mem (b + 16) (bs.take size).length = bs.take size := by
      calc read s'.mem (b + 16) (bs.take size).length
          = read h.control.mem (a + 16) (bs.take size).length :=
            read_eq_read fun i hi => hR.kept i (by omega)
        _ = (read h.control.mem (a + 16) bs.length).take (bs.take size).length :=
            (take_read hcommon _ _).symm
        _ = bs.take (bs.take size).length := by rw [hS.backed.contents hbs]
        _ = bs.take size := by rw [List.length_take, ← List.take_eq_take_min]
    rw [hlength]
    calc read s'.mem (b + 16) size
        = read s'.mem (b + 16) ((bs.take size).length + (size - (bs.take size).length)) := by
          rw [Nat.add_sub_of_le hkept]
      _ = _ := by rw [read_add, hprefix]

theorem step_store {i : ℕ} (hS : Serves ctl h T) (hbs : h.arrays ptr = some bs)
    (hi : i < bs.length) (byte : UInt8) :
    Serves ctl { h with
      control := { h.control with mem := Function.update h.control.mem (ptr + i) byte }
      arrays := Function.update h.arrays ptr (some (bs.set i byte)) } T := by
  have hP := hS.intact.sound.placed
  obtain ⟨a, z, rfl, hz, hlen⟩ := hS.backed.block hbs
  have hused : a + 16 + i ∈ Used T := by
    rw [used_eq_bytes]
    exact ⟨a, z, hz, by omega, by omega⟩
  refine ⟨hS.intact.write _ fun x hx => ?_, ?_, hS.away⟩
  · exact Function.update_of_ne (fun he : x = a + 16 + i => hx (he ▸ hused)) _ _
  have hsame : Function.update (live T) a (some z) = live T := by
    rw [← hz, Function.update_eq_self]
  have hother : Backed (Function.update h.arrays (a + 16) none)
      (Function.update h.control.mem (a + 16 + i) byte) (Function.update (live T) a none) := by
    refine (hS.backed.erase a).congr fun x ⟨c, y, hy, hlo, hhi⟩ => ?_
    refine Function.update_of_ne ?_ _ _
    rintro rfl
    -- the byte that is stored is in the block at `a`, and in no other one
    obtain ⟨hca, hy⟩ := update_none_eq_some.mp hy
    exact hca (hP.byte_inj hy hz hlo hhi (by omega) (by omega))
  have hset : (bs.set i byte).length = bs.length := List.length_set
  have hread : read (Function.update h.control.mem (a + 16 + i) byte) (a + 16)
      (bs.set i byte).length = bs.set i byte := by
    rw [hset, read_update, hS.backed.contents hbs]
  have hnew := hother.update (hset.trans_le hlen) hread
  rwa [Function.update_idem, Function.update_idem, hsame] at hnew

theorem step_addPool {area bytes : ℕ} (hS : Serves ctl h T) (hr : Room ctl h.pools area bytes) :
    ∃ s T', addPool ctl h.control area bytes = some (s, area) ∧
      Serves ctl { h with control := s, pools := poolRegion area bytes :: h.pools } T' := by
  obtain ⟨s', hadd, h', hlive, heq⟩ := addPool_spec hS.intact hr
  refine ⟨s', _, hadd, h', ?_, List.forall_mem_cons.mpr ⟨hr.pool_away, hS.away⟩⟩
  rw [used_eq_bytes] at heq
  exact hlive ▸ hS.backed.congr heq

/-- The arrays of a pool are its blocks in use. -/
theorem Serves.empty_iff (hS : Serves ctl h T) (r : Region) : Empty T r ↔ h.Unused r := by
  constructor
  · intro hempty ptr hptr
    obtain ⟨hlo, hhi⟩ := List.mem_range'_1.mp hptr
    by_contra hc
    obtain ⟨bs, hbs⟩ := Option.ne_none_iff_exists'.mp hc
    obtain ⟨a, z, rfl, hz, -⟩ := hS.backed.block hbs
    exact hempty a z hz ⟨by omega, by omega⟩
  · intro hunused a z hz hin
    obtain ⟨bs, hbs⟩ := hS.backed.array hz
    have hnone := hunused (a + 16) (List.mem_range'_1.mpr ⟨by omega, by omega⟩)
    rw [hnone] at hbs
    cases hbs

theorem step_removePool (hS : Serves ctl h T) (hr : r ∈ h.pools) (hunused : h.Unused r) :
    ∃ s T', removePool ctl h.control (r.start + 8) = some s ∧
      Serves ctl { h with control := s, pools := h.pools.filter (· ≠ r) } T' := by
  obtain ⟨s', hrem, h', hlive, heq⟩ :=
    removePool_spec hS.intact hr ((hS.empty_iff r).mpr hunused)
  refine ⟨s', _, hrem, h', ?_, fun r' hr' => hS.away r' (List.mem_filter.mp hr').1⟩
  rw [used_eq_bytes] at heq
  exact hlive ▸ hS.backed.congr heq

/-- **A legal call** does not fail, and keeps the invariant. -/
theorem step_spec (hS : Serves ctl h T) (hlegal : Legal ctl h c) :
    ∃ h' T', step ctl h c = some h' ∧ Serves ctl h' T' := by
  cases c with
  | malloc size =>
    obtain ⟨s, ptr, T', hm, hS'⟩ := step_malloc hS hlegal
    exact ⟨_, T', by simp only [step, hm, Option.bind_eq_bind, Option.bind_some], hS'⟩
  | free ptr =>
    rcases hlegal with rfl | hptr
    · -- there is no array at `NULL`
      refine ⟨h, T, ?_, hS⟩
      have hidem : Function.update h.arrays 0 none = h.arrays := by
        rw [← hS.backed.null, Function.update_eq_self]
      simp only [step, free, if_true, Option.bind_eq_bind, Option.bind_some, hidem]
    · obtain ⟨s, T', hfree, hS'⟩ := step_free hS hptr
      exact ⟨_, T', by simp only [step, hfree, Option.bind_eq_bind, Option.bind_some], hS'⟩
  | realloc ptr size =>
    rcases hlegal with ⟨rfl, hsize⟩ | ⟨hptr, hsize⟩
    · obtain ⟨s, ptr, T', hm, hS'⟩ := step_malloc hS hsize
      refine ⟨_, T', ?_, hS'⟩
      simp only [step, realloc_null, hm, Option.bind_eq_bind, Option.bind_some,
        exchanged_null hS.backed.null]
    · obtain ⟨s, ptr', T', hre, hS'⟩ := step_realloc hS hptr hsize
      exact ⟨_, T', by simp only [step, hre, Option.bind_eq_bind, Option.bind_some], hS'⟩
  | store ptr i byte =>
    -- an index that is in bounds says that there is an array
    have hsome : (h.arrays ptr).isSome := by
      by_contra hc
      rw [Option.not_isSome_iff_eq_none] at hc
      rw [Legal, hc] at hlegal
      exact absurd hlegal (Nat.not_lt_zero i)
    obtain ⟨bs, hbs⟩ := Option.isSome_iff_exists.mp hsome
    have hi : i < bs.length := by
      rw [Legal, hbs] at hlegal
      exact hlegal
    exact ⟨_, T, by simp only [step, hbs, Option.map_some], step_store hS hbs hi byte⟩
  | addPool area bytes =>
    rcases hlegal with hun | hr
    · refine ⟨h, T, ?_, hS⟩
      simp only [step, addPool_refused h.control hun, Option.bind_eq_bind, Option.bind_some,
        if_true]
    · obtain ⟨s, T', hadd, hS'⟩ := step_addPool hS hr
      refine ⟨_, T', ?_, hS'⟩
      have hpos := hr.pos
      simp only [step, hadd, Option.bind_eq_bind, Option.bind_some]
      rw [if_neg (by omega)]
  | removePool r =>
    obtain ⟨s, T', hrem, hS'⟩ := step_removePool hS hlegal.1 hlegal.2
    exact ⟨_, T', by simp only [step, hrem, Option.bind_eq_bind, Option.bind_some], hS'⟩

/-! ### Runs -/

theorem serves_init (h₀ : (machine ctl).init h) : ∃ T, Serves ctl h T := by
  obtain ⟨hpos, h8, mem, bytes, hlo, hhi, hend, hcreate⟩ := h₀
  obtain ⟨s', T, hcreate', hintact, hlive⟩ := createWithPool_spec mem h8 hpos hlo hhi hend
  unfold create at hcreate
  rw [hcreate', Option.map_some] at hcreate
  obtain rfl := Option.some.inj hcreate
  refine ⟨T, hintact, ?_, ?_⟩
  · simp only [hlive]
    exact ⟨nofun, nofun, nofun⟩
  · -- the first pool begins behind the control structure
    intro r hr
    rw [List.mem_singleton.mp hr]
    unfold poolRegion getPool
    simp only
    omega

/-- **The invariant holds after every run of legal calls.** -/
theorem serves_of_reachable (hreach : (machine ctl).ReachableUnder (Legal ctl) h) :
    ∃ T, Serves ctl h T := by
  refine Machine.ReachableUnder.invariant (fun h hinit => serves_init hinit) ?_ hreach
  rintro h c h' ⟨T, hS⟩ hlegal hstep
  obtain ⟨h'', T', hstep', hS'⟩ := step_spec hS hlegal
  obtain rfl := Option.some.inj (hstep'.symm.trans hstep)
  exact ⟨T', hS'⟩

/-- **No call of a run fails**, as long as the callers keep to what is legal. -/
theorem exec_legal {cs : List Call} (hinit : (machine ctl).init h)
    (hlegal : (machine ctl).Meets (Legal ctl) h cs) :
    ∃ h', (machine ctl).exec h cs = some h' ∧ ∃ T, Serves ctl h' T := by
  refine Machine.exists_exec (I := fun h => ∃ T, Serves ctl h T) ?_ (serves_init hinit) hlegal
  rintro h c ⟨T, hS⟩ hc
  obtain ⟨h', T', hstep, hS'⟩ := step_spec hS hc
  exact ⟨h', hstep, T', hS'⟩

/-! ### A small pool -/

/-- A pool with one block of 448 bytes. -/
def smallPool : Session := (create 8 (fun _ => 0) 7000).get (by decide +kernel)

/-- The second block is in the way of the first one, which therefore moves. -/
def moveCalls : List Call := [.malloc 100, .store 6552 3 7, .malloc 24, .realloc 6552 200]

theorem smallPool_init : (machine 8).init smallPool :=
  ⟨by decide, by decide, _, 7000, by decide, by decide, by decide, (Option.some_get _).symm⟩

theorem exec_legal_moveCalls :
    ∃ h', (machine 8).exec smallPool moveCalls = some h' ∧ ∃ T, Serves 8 h' T :=
  exec_legal smallPool_init (by decide +kernel)

/-- After the move. -/
def moved : Session := ((machine 8).exec smallPool moveCalls).get (by decide +kernel)

theorem moved_reachable : (machine 8).ReachableUnder (Legal 8) moved :=
  ⟨smallPool, moveCalls, smallPool_init, by decide +kernel, (Option.some_get _).symm⟩

def returnCalls : List Call := [.malloc 100, .malloc 24, .free 6552, .free 6664]

/-- After all has been given back. -/
def returned : Session := ((machine 8).exec smallPool returnCalls).get (by decide +kernel)

theorem returned_reachable : (machine 8).ReachableUnder (Legal 8) returned :=
  ⟨smallPool, returnCalls, smallPool_init, by decide +kernel, (Option.some_get _).symm⟩

/-! ### What the callers have -/

section Reachable

variable (hreach : (machine ctl).ReachableUnder (Legal ctl) h)
include hreach

/-- **The arrays are independent.** The bytes of an array are what its owner has written, it lies in
a pool, and no other array and not the control structure, of 6536 bytes, has a byte of it. -/
theorem arrays_independent (hbs : h.arrays ptr = some bs) :
    read h.control.mem ptr bs.length = bs ∧ 8 ∣ ptr ∧
      (∃ r ∈ h.pools, r.start + 16 ≤ ptr ∧ ptr + bs.length ≤ r.stop + 8) ∧
      (ptr + bs.length ≤ ctl ∨ ctl + 6536 ≤ ptr) ∧
      ∀ ptr' bs', h.arrays ptr' = some bs' → ptr' ≠ ptr →
        ptr + bs.length ≤ ptr' ∨ ptr' + bs'.length ≤ ptr := by
  obtain ⟨T, hS⟩ := serves_of_reachable hreach
  have hP := hS.intact.sound.placed
  obtain ⟨a, z, rfl, hz, hlen⟩ := hS.backed.block hbs
  obtain ⟨hstatus, hne⟩ := live_eq_some_iff.mp hz
  obtain ⟨t, ht, he⟩ := Option.map_eq_some_iff.mp hstatus
  obtain ⟨rfl, -⟩ := Prod.mk.inj he
  obtain ⟨r, hr, hlo, hhi, -⟩ := hS.intact.sound.covers.inside ht
  have hend := hhi hne
  have hal := (hP.aligned ht).1
  have haway := hS.away r hr
  refine ⟨hS.backed.contents hbs, by omega, ⟨r, hr, by omega, by omega⟩, by omega, ?_⟩
  intro ptr' bs' hbs' hptr
  obtain ⟨b, y, rfl, hy, hlen'⟩ := hS.backed.block hbs'
  have hapart := hP.live_apart (show a ≠ b by omega) hz hy
  omega

omit hreach in
theorem arrays_independent_moved :
    ∃ bs, moved.arrays 6696 = some bs ∧ bs[3]? = some 7 ∧
      read moved.control.mem 6696 bs.length = bs := by
  obtain ⟨bs, hbs⟩ : ∃ bs, moved.arrays 6696 = some bs :=
    Option.isSome_iff_exists.mp (by decide +kernel)
  have hbyte : ((moved.arrays 6696).bind fun bs => bs[3]?) = some 7 := by decide +kernel
  rw [hbs] at hbyte
  exact ⟨bs, hbs, hbyte, (arrays_independent moved_reachable hbs).1⟩

/-- **The checks find nothing.** -/
theorem checks_pass (hfuel : 2 ^ 64 ≤ fuel) : check ctl h.control fuel = some 0 ∧
    ∀ r ∈ h.pools, checkPool h.control.mem fuel (r.start + 8) = some 0 := by
  obtain ⟨T, hS⟩ := serves_of_reachable hreach
  exact ⟨check_spec hS.intact hfuel, fun r hr => checkPool_spec hS.intact hr hfuel⟩

omit hreach in
theorem checks_pass_moved : check 8 moved.control (2 ^ 64) = some 0 :=
  (checks_pass moved_reachable le_rfl).1

/-- **A walk over a pool.** The blocks fill the pool, and the ones in use are the arrays. -/
theorem printPool_arrays (hr : r ∈ h.pools) (hfuel : 2 ^ 64 ≤ fuel) :
    ∃ lines, printPool h.control.mem fuel (r.start + 8) = some lines ∧
      r.start + (lines.map fun x => 8 + x.size).sum = r.stop ∧
      ∀ ptr, (∃ x ∈ lines, x.ptr = ptr ∧ x.used = true) ↔
        (h.arrays ptr).isSome ∧ r.start + 16 ≤ ptr ∧ ptr < r.stop + 16 := by
  obtain ⟨T, hS⟩ := serves_of_reachable hreach
  obtain ⟨l, hl, hmem, hprint⟩ := printPool_spec hS.intact hr hfuel
  refine ⟨_, hprint, ?_, fun ptr => ?_⟩
  · rw [List.map_map]
    exact hl.sum
  · constructor
    · rintro ⟨x, hx, rfl, hused⟩
      obtain ⟨⟨b, u⟩, hp, rfl⟩ := List.mem_map.mp hx
      obtain ⟨hb, hlo, hhi⟩ := (hmem b u).mp hp
      have hfree : u.free = false := by simpa [Line.of] using hused
      -- a block without bytes ends its pool, and the walk does not report it
      have hne : u.size ≠ 0 := by
        intro hzero
        obtain ⟨r', hr', hlo', -, hlast⟩ := hS.intact.sound.covers.inside hb
        have hstop := hlast hzero
        obtain rfl := hS.intact.sound.covers.region_inj hr hr' hlo hhi.le hlo' hstop.le (by decide)
        omega
      obtain ⟨bs, hbs⟩ := hS.backed.array (live_eq_some_iff.mpr ⟨hfree ▸ status_of hb, hne⟩)
      exact ⟨Option.isSome_iff_exists.mpr ⟨bs, hbs⟩, Nat.add_le_add_right hlo 16,
        Nat.add_lt_add_right hhi 16⟩
    · rintro ⟨hsome, hlo, hhi⟩
      obtain ⟨a, z, bs, rfl, hz, -, -⟩ := hS.block hsome
      obtain ⟨t, ht, he⟩ := Option.map_eq_some_iff.mp (live_eq_some_iff.mp hz).1
      obtain ⟨-, hfree⟩ := Prod.mk.inj he
      refine ⟨Line.of (a, t), List.mem_map_of_mem ((hmem a t).mpr ⟨ht, by omega, by omega⟩),
        rfl, ?_⟩
      unfold Line.of
      simp only [hfree, Bool.not_false]

omit hreach in
theorem printPool_arrays_moved : ∃ lines, printPool moved.control.mem (2 ^ 64) 6544 = some lines ∧
    ∃ x ∈ lines, x.ptr = 6696 ∧ x.used = true := by
  obtain ⟨lines, hprint, -, hlines⟩ :=
    printPool_arrays moved_reachable (r := ⟨6536, 6992⟩) (by decide +kernel) le_rfl
  exact ⟨lines, hprint, (hlines 6696).mpr (by decide +kernel)⟩

/-- **When a request is refused.** -/
theorem malloc_null_iff (size : ℕ) (hsize : Classed size) (hfuel : 2 ^ 64 ≤ fuel) :
    (∃ s, malloc ctl h.control size = some (s, 0)) ↔ size = 0 ∨ 2 ^ 32 ≤ size ∨
      ∀ r ∈ h.pools, ∀ lines, printPool h.control.mem fuel (r.start + 8) = some lines →
        ∀ x ∈ lines, x.used = false →
          x.size < least (mappingSearch (adjustRequestSize size 8)).1
            (mappingSearch (adjustRequestSize size 8)).2 := by
  obtain ⟨T, hS⟩ := serves_of_reachable hreach
  have hrefused : (∃ s, malloc ctl h.control size = some (s, 0)) ↔ Refused T size := by
    rcases malloc_spec hS.intact hsize with ⟨hyes, hm⟩ | ⟨hno, s', a, k, T', hm, -⟩
    · exact iff_of_true ⟨_, hm⟩ hyes
    · refine iff_of_false ?_ hno
      rintro ⟨s, hs⟩
      have hpair := (Prod.mk.inj (Option.some.inj (hs.symm.trans hm))).2
      omega
  rw [hrefused]
  refine or_congr_right (or_congr_right ⟨fun hall r hr lines hlines x hx hx' => ?_,
    fun hall a t ha hfree => ?_⟩)
  · obtain ⟨b, u, hb, hfree, rfl⟩ := free_of_line hS.intact hr hfuel hlines hx hx'
    exact hall b u hb hfree
  · obtain ⟨r, hr, lines, hprint, hline, hused⟩ := line_of_free hS.intact hfuel ha hfree
    exact hall r hr lines hprint (Line.of (a, t)) hline hused

omit hreach in
theorem malloc_null_iff_moved : ¬ ∀ r ∈ moved.pools, ∀ lines,
    printPool moved.control.mem (2 ^ 64) (r.start + 8) = some lines →
      ∀ x ∈ lines, x.used = false → x.size < least (mappingSearch (adjustRequestSize 50 8)).1
        (mappingSearch (adjustRequestSize 50 8)).2 := by
  intro hall
  obtain ⟨s, hs⟩ := (malloc_null_iff moved_reachable 50 (by decide) le_rfl).mpr
    (Or.inr (Or.inr hall))
  have hsome : (malloc 8 moved.control 50).map Prod.snd ≠ some 0 := by decide +kernel
  exact hsome (by rw [hs]; rfl)

/-- **Where the search stays inside of its tables.** -/
theorem malloc_isSome_iff (size : ℕ) : (malloc ctl h.control size).isSome ↔ Classed size := by
  obtain ⟨T, hS⟩ := serves_of_reachable hreach
  by_cases hsize : Classed size
  · refine iff_of_true ?_ hsize
    rcases malloc_spec hS.intact hsize with ⟨-, hm⟩ | ⟨-, s', a, k, T', hm, -⟩
    · rw [hm]
      rfl
    · rw [hm]
      rfl
  · refine iff_of_false ?_ hsize
    obtain ⟨hlo, hhi⟩ := not_or.mp hsize
    rw [malloc_eq_none h.control (Nat.lt_of_not_le hlo) (Nat.lt_of_not_le hhi)]
    exact Bool.false_ne_true

omit hreach in
theorem malloc_isSome_iff_moved : malloc 8 moved.control (2 ^ 32 - 2 ^ 26 + 1) = none :=
  Option.not_isSome_iff_eq_none.mp fun hc =>
    absurd ((malloc_isSome_iff moved_reachable _).mp hc) (by decide)

/-- **Good fit.** The block that is granted was a free one, larger than no other one that the search
accepts by more than eight bytes or a part in 32. What is more of it than a minimal block is given
back. -/
theorem malloc_good_fit (size : ℕ) (hsize : Classed size) (hfuel : 2 ^ 64 ≤ fuel)
    (hm : malloc ctl h.control size = some (s', ptr)) (hptr : ptr ≠ 0) :
    (∃ r ∈ h.pools, ∃ lines, printPool h.control.mem fuel (r.start + 8) = some lines ∧
      ∃ x ∈ lines, x.ptr = ptr ∧ x.used = false ∧ size ≤ x.size ∧
        ∀ r' ∈ h.pools, ∀ lines', printPool h.control.mem fuel (r'.start + 8) = some lines' →
          ∀ y ∈ lines', y.used = false →
            least (mappingSearch (adjustRequestSize size 8)).1
              (mappingSearch (adjustRequestSize size 8)).2 ≤ y.size →
            x.size < y.size + max 8 (y.size / 32)) ∧
      adjustRequestSize size 8 ≤ tlsfBlockSize s'.mem ptr ∧
      tlsfBlockSize s'.mem ptr < adjustRequestSize size 8 + 32 := by
  obtain ⟨T, hS⟩ := serves_of_reachable hreach
  have hP := hS.intact.sound.placed
  rcases malloc_fit hS.intact hsize with ⟨-, hm'⟩ | ⟨-, s₁, a, t, k, T', hm', h', ⟨ha, hfree, hle,
    hfit⟩, hadj, hlo, hhi, hlive, -⟩
  · exact absurd (Prod.mk.inj (Option.some.inj (hm.symm.trans hm'))).2 hptr
  obtain ⟨rfl, rfl⟩ := Prod.mk.inj (Option.some.inj (hm.symm.trans hm'))
  have hself : live T' a = some k := by rw [hlive, Function.update_self]
  rw [tlsfBlockSize_eq h' hself]
  refine ⟨?_, hlo, hhi⟩
  obtain ⟨r, hr, lines, hprint, hline, hunused⟩ := line_of_free hS.intact hfuel ha hfree
  refine ⟨r, hr, lines, hprint, Line.of (a, t), hline, rfl, hunused, hadj.trans hle, ?_⟩
  intro r' hr' lines' hprint' y hy hused hsuit
  obtain ⟨b, u, hb, hfree', rfl⟩ := free_of_line hS.intact hr' hfuel hprint' hy hused
  -- the search begins with the smallest class
  have hclass := hfit b u hb hfree' hsuit
  exact lt_of_classLE ((hP.small ha).trans (by decide)) ((hP.small hb).trans (by decide)) hclass

omit hreach in
theorem malloc_good_fit_moved : ∃ s', malloc 8 moved.control 50 = some (s', 6904) ∧
    56 ≤ tlsfBlockSize s'.mem 6904 ∧ tlsfBlockSize s'.mem 6904 < 88 := by
  have hanswer : (malloc 8 moved.control 50).map Prod.snd = some 6904 := by decide +kernel
  obtain ⟨⟨s', ptr⟩, hm, rfl⟩ := Option.map_eq_some_iff.mp hanswer
  exact ⟨s', hm, (malloc_good_fit moved_reachable 50 (by decide) le_rfl hm (by decide)).2⟩

/-- **When a pool can be removed**: `tlsf_remove_pool` fails none of its assertions. -/
theorem removable_iff (hr : r ∈ h.pools) :
    (removePool ctl h.control (r.start + 8)).isSome ↔ h.Unused r := by
  obtain ⟨T, hS⟩ := serves_of_reachable hreach
  rw [← hS.empty_iff]
  by_cases hempty : Empty T r
  · obtain ⟨s', hrem, -⟩ := removePool_spec hS.intact hr hempty
    exact iff_of_true (Option.isSome_iff_exists.mpr ⟨s', hrem⟩) hempty
  · refine iff_of_false ?_ hempty
    rw [removePool_eq_none hS.intact hr hempty]
    exact Bool.false_ne_true

omit hreach in
theorem removable_iff_moved : removePool 8 moved.control 6544 = none := by
  have hiff := removable_iff moved_reachable (r := ⟨6536, 6992⟩) (by decide +kernel)
  exact Option.not_isSome_iff_eq_none.mp fun hc => absurd (hiff.mp hc) (by decide +kernel)

/-- **Nothing is lost to fragmentation.** However the blocks of a pool have been divided, without an
array it is one free block. -/
theorem printPool_unused (hr : r ∈ h.pools) (hunused : h.Unused r) (hfuel : 2 ^ 64 ≤ fuel) :
    printPool h.control.mem fuel (r.start + 8) =
      some [⟨r.start + 16, false, r.stop - r.start - 8, r.start⟩] := by
  obtain ⟨T, hS⟩ := serves_of_reachable hreach
  have hempty := (hS.empty_iff r).mpr hunused
  have hsound := hS.intact.sound
  obtain ⟨t, ht, hfree, hs, hend⟩ := hsound.covers.first_next_sentinel hsound.laid
    hS.intact.coalesced hr fun a t ha hlo hhi hsize => by
      by_contra hc
      rw [Bool.not_eq_true] at hc
      exact hempty a t.size (live_eq_some_iff.mpr ⟨hc ▸ status_of ha, hsize⟩) ⟨hlo, hhi⟩
  obtain ⟨l, hl, -, hprint⟩ := printPool_spec hS.intact hr hfuel
  have hlt := hsound.covers.lt hr
  rw [hprint]
  cases l with
  | nil =>
    have hstop : r.start = r.stop := hl
    omega
  | cons p l =>
    obtain ⟨b, u⟩ := p
    obtain ⟨rfl, hu, -, hrest⟩ := hl
    obtain rfl := Option.some.inj (hu.symm.trans ht)
    rw [hend] at hrest
    -- nothing is behind the block
    have hlen := hrest.length_le
    obtain rfl : l = [] := List.length_eq_zero_iff.mp (by omega)
    have hsize : r.stop - r.start - 8 = u.size := by omega
    rw [hsize]
    unfold Line.of
    simp only [List.map_cons, List.map_nil, hfree, Bool.not_true]

omit hreach in
theorem printPool_unused_returned :
    printPool returned.control.mem (2 ^ 64) 6544 = some [⟨6552, false, 448, 6536⟩] :=
  printPool_unused returned_reachable (r := ⟨6536, 6992⟩) (by decide +kernel) (by decide +kernel)
    le_rfl

end Reachable

end Tjost.TwoLevel
