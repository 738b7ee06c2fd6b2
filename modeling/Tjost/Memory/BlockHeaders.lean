import Mathlib.Data.Set.BooleanAlgebra
import Mathlib.Data.Set.Function
import Mathlib.Order.CompletePartialOrder
import Tjost.Library.BoundaryTags
import Tjost.Library.Words

/-!
# The block headers of the allocator

The heap of `tlsf.c` in byte memory. A block at the address `a` has the word of its size and its
two flags at `a + 8`, and its bytes from `a + 16` on. The block behind it begins with the last word
of these bytes: it is the `prev_phys_block` of the other block, and valid while this one is free.

The heap as a map of tags is `T`, and `Holds T L mem` says that the memory has its header words, and
the addresses of the blocks in `L` behind them. `Placed` is what makes the words lie apart from each
other. What the functions do is stated for both: `block_mark_as_free` and `block_mark_as_used` are
`mark`, `block_split` is `cut` up to a flag that is still left over from the bytes of the block, and
`block_absorb` is `join` up to a flag that it does not touch.

None of them writes a byte of a block in use (`Used`), or the fields of a free block
(`fields_notMem_meta`), because all that they write is in the headers and links (`Meta`).
-/

namespace Tjost.TwoLevel

open ByteMemory BoundaryTags

/-! ### The functions -/

/-- `block_size`. -/
def blockSize (mem : ByteMemory.Memory) (block : ℕ) : ℕ := clear (loadWord mem (block + 8)) 3

/-- `block_set_size`. -/
def blockSetSize (mem : ByteMemory.Memory) (block size : ℕ) : ByteMemory.Memory :=
  storeWord mem (block + 8) (size ||| (loadWord mem (block + 8) &&& 3))

/-- `block_is_last`. -/
def blockIsLast (mem : ByteMemory.Memory) (block : ℕ) : Bool := blockSize mem block == 0

/-- `block_is_free`. -/
def blockIsFree (mem : ByteMemory.Memory) (block : ℕ) : Bool := loadWord mem (block + 8) &&& 1 != 0

/-- `block_set_free`. -/
def blockSetFree (mem : ByteMemory.Memory) (block : ℕ) : ByteMemory.Memory :=
  storeWord mem (block + 8) (loadWord mem (block + 8) ||| 1)

/-- `block_set_used`. -/
def blockSetUsed (mem : ByteMemory.Memory) (block : ℕ) : ByteMemory.Memory :=
  storeWord mem (block + 8) (clear (loadWord mem (block + 8)) 1)

/-- `block_is_prev_free`. -/
def blockIsPrevFree (mem : ByteMemory.Memory) (block : ℕ) : Bool :=
  loadWord mem (block + 8) &&& 2 != 0

/-- `block_set_prev_free`. -/
def blockSetPrevFree (mem : ByteMemory.Memory) (block : ℕ) : ByteMemory.Memory :=
  storeWord mem (block + 8) (loadWord mem (block + 8) ||| 2)

/-- `block_set_prev_used`. -/
def blockSetPrevUsed (mem : ByteMemory.Memory) (block : ℕ) : ByteMemory.Memory :=
  storeWord mem (block + 8) (clear (loadWord mem (block + 8)) 2)

/-- `block_from_ptr`. -/
def blockFromPtr (ptr : ℕ) : ℕ := ptr - 16

/-- `block_to_ptr`. -/
def blockToPtr (block : ℕ) : ℕ := block + 16

/-- `offset_to_block`. -/
def offsetToBlock (ptr size : ℕ) : ℕ := ptr + size

/-- `block_prev`. -/
def blockPrev (mem : ByteMemory.Memory) (block : ℕ) : ℕ := loadWord mem block

/-- `block_next`, which asserts that the block is not the last one. -/
def blockNext (mem : ByteMemory.Memory) (block : ℕ) : Option ℕ :=
  if blockIsLast mem block then none
  else some (offsetToBlock (blockToPtr block) (blockSize mem block - 8))

/-- `block_link_next`. -/
def blockLinkNext (mem : ByteMemory.Memory) (block : ℕ) : Option (ByteMemory.Memory × ℕ) := do
  let next ← blockNext mem block
  some (storeWord mem next block, next)

/-- `block_mark_as_free`. -/
def blockMarkAsFree (mem : ByteMemory.Memory) (block : ℕ) : Option ByteMemory.Memory := do
  let (mem, next) ← blockLinkNext mem block
  some (blockSetFree (blockSetPrevFree mem next) block)

/-- `block_mark_as_used`. -/
def blockMarkAsUsed (mem : ByteMemory.Memory) (block : ℕ) : Option ByteMemory.Memory := do
  let next ← blockNext mem block
  some (blockSetUsed (blockSetPrevUsed mem next) block)

/-- `block_can_split`. -/
def blockCanSplit (mem : ByteMemory.Memory) (block size : ℕ) : Bool :=
  32 + size ≤ blockSize mem block

/-- `block_split`. The three assertions: the remaining block is aligned, the sizes add up, and it is
not too small. For a size of `0` the code wraps at `size - 8`, and the difference here does not: only
a reallocation to `2 ^ 32` bytes or more cuts a block to that size, and `Legal` excludes it. -/
def blockSplit (mem : ByteMemory.Memory) (block size : ℕ) : Option (ByteMemory.Memory × ℕ) := do
  let remaining := offsetToBlock (blockToPtr block) (size - 8)
  let remainSize := blockSize mem block - (size + 8)
  if blockToPtr remaining % 8 = 0 ∧ blockSize mem block = remainSize + size + 8 then
    let mem := blockSetSize mem remaining remainSize
    if 24 ≤ blockSize mem remaining then
      let mem := blockSetSize mem block size
      let mem ← blockMarkAsFree mem remaining
      some (mem, remaining)
    else none
  else none

/-- `block_absorb`. -/
def blockAbsorb (mem : ByteMemory.Memory) (prev block : ℕ) : Option (ByteMemory.Memory × ℕ) := do
  if blockIsLast mem prev then none
  else
    let mem := storeWord mem (prev + 8) (loadWord mem (prev + 8) + (blockSize mem block + 8))
    let (mem, _) ← blockLinkNext mem prev
    some (mem, prev)

/-! ### Header words -/

section Word

/-- The word of a header: the size, whose two lowest bits are `0`, and the flags in their place. -/
def word (t : Tag) : ℕ := t.size + t.free.toNat + 2 * t.prevFree.toNat

variable {mem : ByteMemory.Memory} {t : Tag} {a s w b : ℕ}

private theorem flags_lt (t : Tag) : t.free.toNat + 2 * t.prevFree.toNat < 4 := by
  cases t.free <;> cases t.prevFree <;> decide

theorem word_div (h : 4 ∣ t.size) : word t / 4 = t.size / 4 := by
  have := flags_lt t
  unfold word
  omega

theorem word_mod (h : 4 ∣ t.size) : word t % 4 = t.free.toNat + 2 * t.prevFree.toNat := by
  have := flags_lt t
  unfold word
  omega

theorem word_lt (h : 4 ∣ t.size) (hlt : t.size < 2 ^ 64) : word t < 2 ^ 64 := by
  have := flags_lt t
  unfold word
  omega

/-- A word is that of a tag if the size and the flags are. -/
theorem eq_word (h : 4 ∣ t.size) (hdiv : w / 4 = t.size / 4)
    (hmod : w % 4 = t.free.toNat + 2 * t.prevFree.toNat) : w = word t := by
  unfold word
  omega

/-- Every word is that of some tag. -/
theorem exists_word (w : ℕ) : ∃ t : Tag, 4 ∣ t.size ∧ w = word t := by
  refine ⟨⟨w / 4 * 4, w % 2 == 1, w / 2 % 2 == 1⟩, Nat.dvd_mul_left 4 _, ?_⟩
  unfold word
  rcases Nat.mod_two_eq_zero_or_one w with h | h <;>
    rcases Nat.mod_two_eq_zero_or_one (w / 2) with h' | h' <;> simp [h, h'] <;> omega

theorem or_div_four (hb : b < 4) : (w ||| b) / 4 = w / 4 := by
  have hdiv := Nat.or_div_two_pow (a := w) (b := b) (n := 2)
  rwa [show 2 ^ 2 = 4 from rfl, Nat.div_eq_of_lt hb, Nat.or_zero] at hdiv

theorem or_mod_four (hb : b < 4) : (w ||| b) % 4 = w % 4 ||| b := by
  have hmod := Nat.or_mod_two_pow (a := w) (b := b) (n := 2)
  rwa [show 2 ^ 2 = 4 from rfl, Nat.mod_eq_of_lt hb] at hmod

theorem clear_div_four (hw : w < 2 ^ 64) (hb : b < 4) : clear w b / 4 = w / 4 := by
  have hdiv := Nat.and_div_two_pow (a := w) (b := 2 ^ 64 - 1 - b) (n := 2)
  have hmask : (2 ^ 64 - 1 - b) / 2 ^ 2 = 2 ^ 62 - 1 := by omega
  rw [hmask, Nat.and_two_pow_sub_one_eq_mod, Nat.mod_eq_of_lt (by omega)] at hdiv
  exact hdiv

theorem clear_mod_four (hb : b < 4) : clear w b % 4 = w % 4 &&& (3 - b) := by
  have hmod := Nat.and_mod_two_pow (a := w) (b := 2 ^ 64 - 1 - b) (n := 2)
  have hmask : (2 ^ 64 - 1 - b) % 2 ^ 2 = 3 - b := by omega
  rw [hmask] at hmod
  exact hmod

variable (h : loadWord mem (a + 8) = word t) (h4 : 4 ∣ t.size)
include h h4

theorem blockSize_eq : blockSize mem a = t.size := by
  have hclear := clear_mask (k := 2) (loadWord_lt mem (a + 8)) (by decide)
  change clear (loadWord mem (a + 8)) 3 = loadWord mem (a + 8) / 4 * 4 at hclear
  unfold blockSize
  rw [hclear, h, word_div h4]
  omega

theorem blockIsLast_eq : blockIsLast mem a = (t.size == 0) := by
  unfold blockIsLast
  rw [blockSize_eq h h4]

theorem blockIsFree_eq : blockIsFree mem a = t.free := by
  have hand : loadWord mem (a + 8) &&& 1 = loadWord mem (a + 8) % 2 :=
    Nat.and_two_pow_sub_one_eq_mod _ 1
  have hmod := word_mod h4
  have hmod2 : word t % 2 = t.free.toNat := by
    have : t.free.toNat < 2 := Bool.toNat_lt t.free
    omega
  unfold blockIsFree
  rw [hand, h, hmod2]
  cases t.free <;> rfl

theorem blockIsPrevFree_eq : blockIsPrevFree mem a = t.prevFree := by
  have hand := Nat.and_mod_two_pow (a := word t) (b := 2) (n := 2)
  have hlt : word t &&& 2 < 2 ^ 2 := lt_of_le_of_lt Nat.and_le_right (by decide)
  rw [Nat.mod_eq_of_lt hlt, show 2 ^ 2 = 4 from rfl, word_mod h4] at hand
  unfold blockIsPrevFree
  rw [h, hand]
  cases t.free <;> cases t.prevFree <;> rfl

theorem blockSetSize_eq (hs : 4 ∣ s) :
    blockSetSize mem a s = storeWord mem (a + 8) (word { t with size := s }) := by
  have hand : word t &&& 3 = word t % 4 := Nat.and_two_pow_sub_one_eq_mod _ 2
  have hlt : word t % 4 < 4 := Nat.mod_lt _ (by decide)
  unfold blockSetSize
  rw [h, hand]
  refine congrArg (storeWord mem (a + 8)) (eq_word hs ?_ ?_)
  · exact or_div_four hlt
  · rw [or_mod_four hlt, Nat.mod_eq_zero_of_dvd hs, Nat.zero_or]
    exact word_mod h4

theorem blockSetFree_eq :
    blockSetFree mem a = storeWord mem (a + 8) (word { t with free := true }) := by
  unfold blockSetFree
  rw [h]
  refine congrArg (storeWord mem (a + 8)) (eq_word h4 ?_ ?_)
  · rw [or_div_four (by decide), word_div h4]
  · rw [or_mod_four (by decide), word_mod h4]
    cases t.free <;> cases t.prevFree <;> simp

theorem blockSetPrevFree_eq :
    blockSetPrevFree mem a = storeWord mem (a + 8) (word { t with prevFree := true }) := by
  unfold blockSetPrevFree
  rw [h]
  refine congrArg (storeWord mem (a + 8)) (eq_word h4 ?_ ?_)
  · rw [or_div_four (by decide), word_div h4]
  · rw [or_mod_four (by decide), word_mod h4]
    cases t.free <;> cases t.prevFree <;> simp

theorem blockSetUsed_eq :
    blockSetUsed mem a = storeWord mem (a + 8) (word { t with free := false }) := by
  have hlt := loadWord_lt mem (a + 8)
  rw [h] at hlt
  unfold blockSetUsed
  rw [h]
  refine congrArg (storeWord mem (a + 8)) (eq_word h4 ?_ ?_)
  · rw [clear_div_four hlt (by decide), word_div h4]
  · rw [clear_mod_four (by decide), word_mod h4]
    cases t.free <;> cases t.prevFree <;> simp

theorem blockSetPrevUsed_eq :
    blockSetPrevUsed mem a = storeWord mem (a + 8) (word { t with prevFree := false }) := by
  have hlt := loadWord_lt mem (a + 8)
  rw [h] at hlt
  unfold blockSetPrevUsed
  rw [h]
  refine congrArg (storeWord mem (a + 8)) (eq_word h4 ?_ ?_)
  · rw [clear_div_four hlt (by decide), word_div h4]
  · rw [clear_mod_four (by decide), word_mod h4]
    cases t.free <;> cases t.prevFree <;> simp

theorem blockNext_eq (hs : 8 ≤ t.size) : blockNext mem a = some (a + 8 + t.size) := by
  unfold blockNext
  rw [blockIsLast_eq h h4, blockSize_eq h h4, if_neg (by simp; omega)]
  unfold offsetToBlock blockToPtr
  refine congrArg some ?_
  omega

end Word

/-- The header of a pool, wherever its bits come from. -/
theorem poolHeader_eq {a p : ℕ} (mem : ByteMemory.Memory) (h4 : 4 ∣ p) (hlt : p < 2 ^ 64) :
    blockSetPrevUsed (blockSetFree (blockSetSize mem a p) a) a =
      storeWord mem (a + 8) (word ⟨p, true, false⟩) := by
  obtain ⟨g, hg, hword⟩ := exists_word (loadWord mem (a + 8))
  have hload : ∀ {u : Tag} {mem : ByteMemory.Memory}, u.size = p →
      loadWord (storeWord mem (a + 8) (word u)) (a + 8) = word u := fun hu =>
    loadWord_storeWord _ _ (word_lt (hu ▸ h4) (hu ▸ hlt))
  rw [blockSetSize_eq hword hg h4, blockSetFree_eq (t := { g with size := p }) (hload rfl) h4,
    storeWord_storeWord, blockSetPrevUsed_eq (t := { g with size := p, free := true })
      (hload rfl) h4, storeWord_storeWord]

/-- The header of its last block. -/
theorem sentinelHeader_eq {a : ℕ} (mem : ByteMemory.Memory) :
    blockSetPrevFree (blockSetUsed (blockSetSize mem a 0) a) a =
      storeWord mem (a + 8) (word ⟨0, false, true⟩) := by
  obtain ⟨g, hg, hword⟩ := exists_word (loadWord mem (a + 8))
  have h4 : 4 ∣ 0 := by decide
  have hload : ∀ {u : Tag} {mem : ByteMemory.Memory}, u.size = 0 →
      loadWord (storeWord mem (a + 8) (word u)) (a + 8) = word u := fun hu =>
    loadWord_storeWord _ _ (word_lt (hu ▸ h4) (hu ▸ by decide))
  rw [blockSetSize_eq hword hg h4, blockSetUsed_eq (t := { g with size := 0 }) (hload rfl) h4,
    storeWord_storeWord, blockSetPrevFree_eq (t := { g with size := 0, free := false })
      (hload rfl) h4, storeWord_storeWord]

/-! ### The heap in memory -/

/-- Where the blocks lie. The control structure is at `ctl`, and the blocks are not in it. -/
structure Placed (ctl : ℕ) (T : Tags) : Prop where
  apart : ∀ {a b t u}, T a = some t → T b = some u → a < b → a + 8 + t.size ≤ b
  aligned : ∀ {a t}, T a = some t → 8 ∣ a ∧ 8 ∣ t.size
  least : ∀ {a t}, T a = some t → t.size ≠ 0 → 24 ≤ t.size
  small : ∀ {a t}, T a = some t → t.size < 2 ^ 32
  bounds : ∀ {a t}, T a = some t → 0 < a ∧ a + 16 + t.size ≤ 2 ^ 64
  away : ∀ {a t}, T a = some t → a + 16 + t.size ≤ ctl ∨ ctl + 32 ≤ a
  control : 0 < ctl ∧ 8 ∣ ctl ∧ ctl + 32 ≤ 2 ^ 64

/-- The memory has the header words, and the links to the blocks in `L`. -/
structure Holds (T : Tags) (L : Set ℕ) (mem : ByteMemory.Memory) : Prop where
  tag : ∀ {a t}, T a = some t → loadWord mem (a + 8) = word t
  link : ∀ {a t}, a ∈ L → T a = some t → t.size ≠ 0 → loadWord mem (a + 8 + t.size) = a

/-- The free blocks. -/
def Frees (T : Tags) : Set ℕ := {a | ∃ t, T a = some t ∧ t.free = true}

/-- The bytes of the blocks in use. -/
def Used (T : Tags) : Set ℕ :=
  {i | ∃ a t, T a = some t ∧ t.free = false ∧ a + 16 ≤ i ∧ i < a + 16 + t.size}

/-- The bytes of the headers, and of the links to free blocks. -/
def Meta (T : Tags) : Set ℕ :=
  {i | ∃ a t, T a = some t ∧ (a + 8 ≤ i ∧ i < a + 16 ∨
    t.free = true ∧ a + 8 + t.size ≤ i ∧ i < a + 16 + t.size)}

section Heap

variable {ctl : ℕ} {T T' : Tags} {L L' : Set ℕ} {mem mem' : ByteMemory.Memory} {a b p x i s : ℕ}
  {t t' u n m : Tag}

namespace Placed

/-- Fewer blocks. -/
theorem restrict (h : Placed ctl T) (hsub : ∀ a t, T' a = some t → T a = some t) :
    Placed ctl T' where
  apart ha hb := h.apart (hsub _ _ ha) (hsub _ _ hb)
  aligned ha := h.aligned (hsub _ _ ha)
  least ha := h.least (hsub _ _ ha)
  small ha := h.small (hsub _ _ ha)
  bounds ha := h.bounds (hsub _ _ ha)
  away ha := h.away (hsub _ _ ha)
  control := h.control

/-- Only the sizes matter. -/
theorem congr (h : Placed ctl T) (hsize : ∀ a, (T' a).map Tag.size = (T a).map Tag.size) :
    Placed ctl T' := by
  have hold : ∀ {a t}, T' a = some t → ∃ u, T a = some u ∧ u.size = t.size := by
    intro a t ha
    have hmap := hsize a
    rw [ha] at hmap
    obtain ⟨u, hu, hs⟩ := Option.map_eq_some_iff.mp hmap.symm
    exact ⟨u, hu, hs⟩
  refine ⟨?_, ?_, ?_, ?_, ?_, ?_, h.control⟩
  · intro a b t u ha hb hlt
    obtain ⟨t₀, ha₀, hs⟩ := hold ha
    obtain ⟨u₀, hb₀, -⟩ := hold hb
    have := h.apart ha₀ hb₀ hlt
    omega
  all_goals
    intro a t ha
    obtain ⟨t₀, ha₀, hs⟩ := hold ha
    rw [← hs]
  · exact h.aligned ha₀
  · exact h.least ha₀
  · exact h.small ha₀
  · exact h.bounds ha₀
  · exact h.away ha₀

/-- A tag of the same size in the place of another one. -/
theorem retag (h : Placed ctl T) (t' : Tag) (ha : T a = some t) (hsize : t'.size = t.size) :
    Placed ctl (Function.update T a (some t')) := by
  refine h.congr fun b => ?_
  by_cases hb : b = a
  · rw [hb, Function.update_self, ha, Option.map_some, Option.map_some, hsize]
  · rw [Function.update_of_ne hb]

theorem four_dvd (h : Placed ctl T) (ha : T a = some t) : 4 ∣ t.size :=
  Dvd.dvd.trans (by decide) (h.aligned ha).2

theorem word_lt (h : Placed ctl T) (ha : T a = some t) : word t < 2 ^ 64 :=
  TwoLevel.word_lt (h.four_dvd ha) (lt_trans (h.small ha) (by decide))

/-- The bytes of a block in use are in no header, and in no link to a free block. -/
theorem used_disjoint_meta (h : Placed ctl T) : Disjoint (Used T) (Meta T) := by
  rw [Set.disjoint_left]
  rintro i ⟨a, t, ha, hfree, hlo, hhi⟩ ⟨b, u, hb, hmeta⟩
  rcases Nat.lt_trichotomy a b with hlt | rfl | hlt
  · have := h.apart ha hb hlt
    omega
  · obtain rfl := Option.some.inj (ha.symm.trans hb)
    rcases hmeta with hmeta | ⟨hfree', -⟩
    · omega
    · rw [hfree] at hfree'
      cases hfree'
  · have := h.apart hb ha hlt
    omega

/-- Neither are the two fields of a free block. -/
theorem fields_notMem_meta (h : Placed ctl T) (ha : T a = some t) (hs : t.size ≠ 0)
    (hlo : a + 16 ≤ i) (hhi : i < a + 32) : i ∉ Meta T := by
  rintro ⟨b, u, hb, hmeta⟩
  have hleast := h.least ha hs
  rcases Nat.lt_trichotomy a b with hlt | rfl | hlt
  · have := h.apart ha hb hlt
    omega
  · obtain rfl := Option.some.inj (ha.symm.trans hb)
    omega
  · have := h.apart hb ha hlt
    omega

/-- The fields of a free block are not in a block in use. -/
theorem fields_notMem_used (h : Placed ctl T) (ha : T a = some t) (hfree : t.free = true)
    (hs : t.size ≠ 0) (hlo : a + 16 ≤ i) (hhi : i < a + 32) : i ∉ Used T := by
  rintro ⟨b, u, hb, hused, hmem⟩
  have hleast := h.least ha hs
  rcases Nat.lt_trichotomy a b with hlt | rfl | hlt
  · have := h.apart ha hb hlt
    omega
  · obtain rfl := Option.some.inj (ha.symm.trans hb)
    rw [hfree] at hused
    cases hused
  · have := h.apart hb ha hlt
    omega

/-- The control structure is not in the heap. -/
theorem control_notMem (h : Placed ctl T) (hlo : ctl ≤ i) (hhi : i < ctl + 32) :
    i ∉ Used T ∪ Meta T := by
  rintro (⟨a, t, ha, -, hmem⟩ | ⟨a, t, ha, hmeta⟩)
  · have := h.away ha
    omega
  · have := h.away ha
    omega

end Placed

namespace Holds

theorem mono (h : Holds T L mem) (hL : L' ⊆ L) : Holds T L' mem :=
  ⟨h.tag, fun ha => h.link (hL ha)⟩

/-- Fewer blocks. -/
theorem restrict (h : Holds T L mem) (hsub : ∀ a t, T' a = some t → T a = some t) :
    Holds T' L mem :=
  ⟨fun ha => h.tag (hsub _ _ ha), fun hL ha => h.link hL (hsub _ _ ha)⟩

/-- A new header. -/
theorem define (h : Holds T L mem) (hP : Placed ctl (Function.update T a (some t)))
    (hnone : T a = none) :
    Holds (Function.update T a (some t)) (L \ {a}) (storeWord mem (a + 8) (word t)) := by
  have ha : Function.update T a (some t) a = some t := Function.update_self ..
  have hal := hP.aligned ha
  refine ⟨fun {b u} hb => ?_, fun {b u} hbL hb hs => ?_⟩
  · by_cases hba : b = a
    · subst hba
      obtain rfl := Option.some.inj (ha.symm.trans hb)
      exact loadWord_storeWord _ _ (hP.word_lt ha)
    · have hbal := hP.aligned hb
      rw [loadWord_storeWord_of_ne (by omega) (by omega) (by omega)]
      rw [Function.update_of_ne hba] at hb
      exact h.tag hb
  · obtain ⟨hbL, hba : b ≠ a⟩ := hbL
    have hbal := hP.aligned hb
    have hne : b + 8 + u.size ≠ a + 8 := by
      rcases Nat.lt_or_gt_of_ne hba with hlt | hlt
      · have := hP.apart hb ha hlt
        omega
      · omega
    rw [loadWord_storeWord_of_ne (by omega) (by omega) hne]
    rw [Function.update_of_ne hba] at hb
    exact h.link hbL hb hs

/-- The memory may change where no header is and no link. -/
theorem congr (h : Holds T L mem) (hL : L ⊆ Frees T) (hmem : Set.EqOn mem' mem (Meta T)) :
    Holds T L mem' := by
  refine ⟨fun {a t} ha => ?_, fun {a t} hmemL ha hs => ?_⟩
  · rw [← h.tag ha]
    exact loadWord_congr fun i hlo hhi => hmem ⟨a, t, ha, by omega⟩
  · obtain ⟨t₀, ha₀, hfree⟩ := hL hmemL
    obtain rfl := Option.some.inj (ha.symm.trans ha₀)
    refine (loadWord_congr fun i hlo hhi => hmem ⟨a, t, ha, Or.inr ⟨hfree, ?_⟩⟩).trans
      (h.link hmemL ha hs)
    omega

/-- A header is written. -/
theorem retag (h : Holds T L mem) (t' : Tag) (hP : Placed ctl T) (ha : T a = some t)
    (hsize : t'.size = t.size) :
    Holds (Function.update T a (some t')) L (storeWord mem (a + 8) (word t')) := by
  have hlt : word t' < 2 ^ 64 :=
    TwoLevel.word_lt (hsize ▸ hP.four_dvd ha) (hsize ▸ lt_trans (hP.small ha) (by decide))
  have hal := hP.aligned ha
  refine ⟨fun {b u} hb => ?_, fun {b u} hbL hb hs => ?_⟩
  · obtain ⟨rfl, rfl⟩ | ⟨hba, hb⟩ := update_some_eq_some.mp hb
    · rw [loadWord_storeWord _ _ hlt]
    · have := hP.aligned hb
      rw [loadWord_storeWord_of_ne (by omega) (by omega) (by omega), h.tag hb]
  · -- a link is the last word of a block, and so behind its header
    obtain ⟨v, hv, hvs⟩ : ∃ v, T b = some v ∧ v.size = u.size := by
      obtain ⟨rfl, rfl⟩ | ⟨-, hb⟩ := update_some_eq_some.mp hb
      · exact ⟨t, ha, hsize.symm⟩
      · exact ⟨u, hb, rfl⟩
    have hbal := hP.aligned hv
    have hne : b + 8 + u.size ≠ a + 8 := by
      rcases Nat.lt_trichotomy b a with hlt | rfl | hlt
      · have := hP.apart hv ha hlt
        omega
      · omega
      · omega
    rw [loadWord_storeWord_of_ne (by omega) (by omega) hne, ← hvs]
    exact h.link hbL hv (by omega)

/-- The link to a block is written behind it. -/
theorem linkNext (h : Holds T L mem) (hP : Placed ctl T) (ha : T a = some t) (hs : t.size ≠ 0) :
    Holds T (insert a L) (storeWord mem (a + 8 + t.size) a) := by
  have hal := hP.aligned ha
  have hbounds := hP.bounds ha
  refine ⟨fun {b u} hb => ?_, fun {b u} hbL hb hsb => ?_⟩
  · have hbal := hP.aligned hb
    have hne : b + 8 ≠ a + 8 + t.size := by
      rcases Nat.lt_trichotomy a b with hlt | rfl | hlt
      · have := hP.apart ha hb hlt
        omega
      · omega
      · omega
    rw [loadWord_storeWord_of_ne (by omega) (by omega) hne, h.tag hb]
  · by_cases hba : b = a
    · subst hba
      obtain rfl := Option.some.inj (ha.symm.trans hb)
      have hlt : b < 2 ^ 64 := by omega
      rw [loadWord_storeWord _ _ hlt]
    · have hbal := hP.aligned hb
      have hne : b + 8 + u.size ≠ a + 8 + t.size := by
        rcases Nat.lt_or_gt_of_ne hba with hlt | hlt
        · have := hP.apart hb ha hlt
          omega
        · have := hP.apart ha hb hlt
          omega
      rw [loadWord_storeWord_of_ne (by omega) (by omega) hne]
      exact h.link (hbL.resolve_left hba) hb hsb

end Holds

/-! ### States of a block -/

theorem eqOn_storeWord {S : Set ℕ} (h : ∀ i, p ≤ i → i < p + 8 → i ∈ S) :
    Set.EqOn (storeWord mem p x) mem Sᶜ := by
  intro i hi
  refine storeWord_of_outside ?_
  by_contra hin
  exact hi (h i (by omega) (by omega))

/-- What a header says of the block in front does not matter. -/
theorem exists_update_iff {P : ℕ → ℕ → Bool → Prop} (ha : T a = some t) (hsize : t'.size = t.size)
    (hfree : t'.free = t.free) :
    (∃ b u, Function.update T a (some t') b = some u ∧ P b u.size u.free) ↔
      ∃ b u, T b = some u ∧ P b u.size u.free := by
  constructor
  · rintro ⟨b, u, hb, hu⟩
    obtain ⟨rfl, rfl⟩ | ⟨-, hb⟩ := update_some_eq_some.mp hb
    · exact ⟨b, t, ha, hsize ▸ hfree ▸ hu⟩
    · exact ⟨b, u, hb, hu⟩
  · rintro ⟨b, u, hb, hu⟩
    by_cases hba : b = a
    · subst hba
      obtain rfl := Option.some.inj (ha.symm.trans hb)
      exact ⟨b, t', Function.update_self .., hsize ▸ hfree ▸ hu⟩
    · exact ⟨b, u, by rw [Function.update_of_ne hba, hb], hu⟩

theorem meta_update (t' : Tag) (ha : T a = some t) (hsize : t'.size = t.size)
    (hfree : t'.free = t.free) : Meta (Function.update T a (some t')) = Meta T := by
  ext i
  exact exists_update_iff (P := fun b size free => b + 8 ≤ i ∧ i < b + 16 ∨
    free = true ∧ b + 8 + size ≤ i ∧ i < b + 16 + size) ha hsize hfree

theorem header_mem_meta (ha : T a = some t) : ∀ i, a + 8 ≤ i → i < a + 8 + 8 → i ∈ Meta T :=
  fun _ hlo hhi => ⟨a, t, ha, Or.inl ⟨hlo, by omega⟩⟩

theorem link_mem_meta (ha : T a = some t) (hfree : t.free = true) :
    ∀ i, a + 8 + t.size ≤ i → i < a + 8 + t.size + 8 → i ∈ Meta T :=
  fun _ hlo hhi => ⟨a, t, ha, Or.inr ⟨hfree, hlo, by omega⟩⟩

section Marks

variable (hP : Placed ctl T) (h : Holds T L mem) (ha : T a = some t) (hs : t.size ≠ 0)
include hP h ha hs

theorem blockNext_of_holds : blockNext mem a = some (a + 8 + t.size) :=
  blockNext_eq (h.tag ha) (hP.four_dvd ha) (by have := hP.least ha hs; omega)

/-- `block_link_next`. -/
theorem blockLinkNext_spec :
    blockLinkNext mem a = some (storeWord mem (a + 8 + t.size) a, a + 8 + t.size) ∧
      Holds T (insert a L) (storeWord mem (a + 8 + t.size) a) := by
  unfold blockLinkNext
  rw [blockNext_of_holds hP h ha hs]
  exact ⟨rfl, h.linkNext hP ha hs⟩

variable (hn : T (a + 8 + t.size) = some n)
include hn

/-- **`block_mark_as_free`.** -/
theorem blockMarkAsFree_spec : ∃ mem', blockMarkAsFree mem a = some mem' ∧
    Holds (mark 8 T a t n true) (insert a L) mem' ∧
    Set.EqOn mem' mem (Meta (mark 8 T a t n true))ᶜ := by
  obtain ⟨hlink, h₁⟩ := blockLinkNext_spec hP h ha hs
  have h₂ := h₁.retag { n with prevFree := true } hP hn rfl
  have hP₂ := hP.retag { n with prevFree := true } hn rfl
  have ha₂ : Function.update T (a + 8 + t.size) (some { n with prevFree := true }) a = some t := by
    rw [Function.update_of_ne (by omega), ha]
  have h₃ := h₂.retag { t with free := true } hP₂ ha₂ rfl
  unfold blockMarkAsFree
  rw [hlink]
  refine ⟨_, rfl, ?_, ?_⟩
  · rw [blockSetPrevFree_eq (h₁.tag hn) (hP.four_dvd hn),
      blockSetFree_eq (h₂.tag ha₂) (hP₂.four_dvd ha₂), mark_eq_update]
    exact h₃
  · have hhead : mark 8 T a t n true a = some { t with free := true } := if_pos rfl
    have hnext : mark 8 T a t n true (a + 8 + t.size) = some { n with prevFree := true } := by
      unfold mark
      rw [if_neg (by omega), if_pos rfl]
    exact ((eqOn_storeWord (header_mem_meta hhead)).trans
      (eqOn_storeWord (header_mem_meta hnext))).trans (eqOn_storeWord
      (link_mem_meta (t := { t with free := true }) hhead rfl))

/-- **`block_mark_as_used`.** -/
theorem blockMarkAsUsed_spec : ∃ mem', blockMarkAsUsed mem a = some mem' ∧
    Holds (mark 8 T a t n false) L mem' ∧ Set.EqOn mem' mem (Meta T)ᶜ := by
  have h₁ := h.retag { n with prevFree := false } hP hn rfl
  have hP₁ := hP.retag { n with prevFree := false } hn rfl
  have ha₁ : Function.update T (a + 8 + t.size) (some { n with prevFree := false }) a =
      some t := by
    rw [Function.update_of_ne (by omega), ha]
  have h₂ := h₁.retag { t with free := false } hP₁ ha₁ rfl
  unfold blockMarkAsUsed
  rw [blockNext_of_holds hP h ha hs]
  refine ⟨_, rfl, ?_, ?_⟩
  · rw [blockSetPrevUsed_eq (h.tag hn) (hP.four_dvd hn),
      blockSetUsed_eq (h₁.tag ha₁) (hP₁.four_dvd ha₁), mark_eq_update]
    exact h₂
  · exact (eqOn_storeWord (header_mem_meta ha)).trans (eqOn_storeWord (header_mem_meta hn))

end Marks

/-! ### Two blocks out of one -/

/-- A block in two parts: `s` bytes stay, and behind them is a header `g`. -/
def parted (T : Tags) (a : ℕ) (t : Tag) (s : ℕ) (g : Tag) : Tags := fun x =>
  if x = a then some { t with size := s } else if x = a + 8 + s then some g else T x

/-- The two parts lie in the block. -/
theorem Placed.parted {g : Tag} (hP : Placed ctl T) (ha : T a = some t) (h8 : 8 ∣ s) (hs : 24 ≤ s)
    (hrest : s + 32 ≤ t.size) (hg : g.size = t.size - s - 8) : Placed ctl (parted T a t s g) := by
  have hal := hP.aligned ha
  have hsmall := hP.small ha
  have hbounds := hP.bounds ha
  have haway := hP.away ha
  -- a part of the block, or a block on one of its sides
  have hcases : ∀ {x u}, TwoLevel.parted T a t s g x = some u →
      (x = a ∧ u.size = s) ∨ (x = a + 8 + s ∧ u.size = t.size - s - 8) ∨
      (T x = some u ∧ (x + 8 + u.size ≤ a ∨ a + 8 + t.size ≤ x)) := by
    intro x u hx
    unfold TwoLevel.parted at hx
    split at hx
    · obtain rfl := Option.some.inj hx
      exact Or.inl ⟨‹_›, rfl⟩
    · split at hx
      · obtain rfl := Option.some.inj hx
        exact Or.inr (Or.inl ⟨‹_›, hg⟩)
      · next hxa hxs =>
        refine Or.inr (Or.inr ⟨hx, ?_⟩)
        rcases Nat.lt_or_gt_of_ne hxa with hlt | hlt
        · exact Or.inl (hP.apart hx ha hlt)
        · exact Or.inr (hP.apart ha hx hlt)
  refine ⟨?_, ?_, ?_, ?_, ?_, ?_, hP.control⟩
  · intro x y u v hx hy hlt
    rcases hcases hx with ⟨rfl, hu⟩ | ⟨rfl, hu⟩ | ⟨hx, hx'⟩ <;>
      rcases hcases hy with ⟨rfl, hv⟩ | ⟨rfl, hv⟩ | ⟨hy, hy'⟩
    all_goals first
      | exact hP.apart hx hy hlt
      | omega
  all_goals
    intro x u hx
    rcases hcases hx with ⟨rfl, hu⟩ | ⟨rfl, hu⟩ | ⟨hx, hx'⟩
  all_goals first
    | omega
    | exact hP.aligned hx
    | exact hP.least hx
    | exact hP.small hx
    | exact hP.bounds hx
    | exact hP.away hx

/-- Both headers are written. -/
theorem Holds.parted {g : Tag} (h : Holds T L mem) (hP : Placed ctl T) (ha : T a = some t)
    (h8 : 8 ∣ s) (hs : 24 ≤ s) (hrest : s + 32 ≤ t.size) (hg : g.size = t.size - s - 8) :
    Holds (parted T a t s g) (L \ {a, a + 8 + s})
      (storeWord (storeWord mem (a + 8 + s + 8) (word g)) (a + 8) (word { t with size := s })) := by
  have hal := hP.aligned ha
  have hP' := hP.parted ha h8 hs hrest hg
  have ha' : TwoLevel.parted T a t s g a = some { t with size := s } := if_pos rfl
  have hg' : TwoLevel.parted T a t s g (a + 8 + s) = some g := by
    unfold TwoLevel.parted
    rw [if_neg (by omega), if_pos rfl]
  refine ⟨fun {b u} hb => ?_, fun {b u} hbL hb hsb => ?_⟩
  · by_cases hba : b = a
    · subst hba
      obtain rfl := Option.some.inj (ha'.symm.trans hb)
      exact loadWord_storeWord _ _ (hP'.word_lt ha')
    · have hbal := hP'.aligned hb
      rw [loadWord_storeWord_of_ne (by omega) (by omega) (by omega)]
      by_cases hbs : b = a + 8 + s
      · subst hbs
        obtain rfl := Option.some.inj (hg'.symm.trans hb)
        exact loadWord_storeWord _ _ (hP'.word_lt hg')
      · rw [loadWord_storeWord_of_ne (by omega) (by omega) (by omega)]
        unfold TwoLevel.parted at hb
        rw [if_neg hba, if_neg hbs] at hb
        exact h.tag hb
  · simp only [Set.mem_sdiff, Set.mem_insert_iff, Set.mem_singleton_iff, not_or] at hbL
    obtain ⟨hbL, hba, hbs⟩ := hbL
    unfold TwoLevel.parted at hb
    rw [if_neg hba, if_neg hbs] at hb
    have hbal := hP.aligned hb
    -- the link at the end of a block on one of the sides
    have hsides : b + 8 + u.size ≤ a ∨ a + 8 + t.size ≤ b := by
      rcases Nat.lt_or_gt_of_ne hba with hlt | hlt
      · exact Or.inl (hP.apart hb ha hlt)
      · exact Or.inr (hP.apart ha hb hlt)
    rw [loadWord_storeWord_of_ne (by omega) (by omega) (by omega),
      loadWord_storeWord_of_ne (by omega) (by omega) (by omega)]
    exact h.link hbL hb hsb

/-- A block that is cut, as its parts. -/
theorem cut_eq_update (hrest : s + 8 < t.size) {g : Tag}
    (hg : g.size = t.size - s - 8) :
    cut 8 T a t n s true = Function.update (mark 8 (parted T a t s g) (a + 8 + s) g n true)
      (a + 8 + s) (some ⟨t.size - s - 8, true, t.free⟩) := by
  have hnext : a + 8 + s + 8 + g.size = a + 8 + t.size := by omega
  funext x
  unfold cut
  by_cases hxs : x = a + 8 + s
  · rw [hxs, Function.update_self, if_neg (by omega), if_pos rfl]
  · rw [Function.update_of_ne hxs, if_neg hxs]
    unfold mark
    rw [if_neg hxs, hnext]
    by_cases hxa : x = a
    · rw [if_pos hxa, if_neg (by omega)]
      unfold TwoLevel.parted
      rw [if_pos hxa]
    · rw [if_neg hxa]
      by_cases hxn : x = a + 8 + t.size
      · rw [if_pos hxn, if_pos hxn]
      · rw [if_neg hxn, if_neg hxn]
        unfold TwoLevel.parted
        rw [if_neg hxa, if_neg hxs]

theorem Placed.cut (hP : Placed ctl T) (ha : T a = some t) (hn : T (a + 8 + t.size) = some n)
    (h8 : 8 ∣ s) (hs : 24 ≤ s) (hrest : s + 32 ≤ t.size) : Placed ctl (cut 8 T a t n s true) := by
  have hparted := hP.parted (g := ⟨t.size - s - 8, true, t.free⟩) ha h8 hs hrest rfl
  have hg : TwoLevel.parted T a t s ⟨t.size - s - 8, true, t.free⟩ (a + 8 + s) =
      some ⟨t.size - s - 8, true, t.free⟩ := by
    unfold TwoLevel.parted
    rw [if_neg (by omega), if_pos rfl]
  have hnext : TwoLevel.parted T a t s ⟨t.size - s - 8, true, t.free⟩ (a + 8 + t.size) =
      some n := by
    unfold TwoLevel.parted
    rw [if_neg (by omega), if_neg (by omega), hn]
  have hpos : a + 8 + s + 8 + (t.size - s - 8) = a + 8 + t.size := by omega
  rw [cut_eq_update (g := ⟨t.size - s - 8, true, t.free⟩) (by omega) rfl, mark_eq_update,
    Function.update_idem, hpos]
  have hretag := hparted.retag { n with prevFree := true } hnext rfl
  exact hretag.retag (t := ⟨t.size - s - 8, true, t.free⟩) ⟨t.size - s - 8, true, t.free⟩
    (by rw [Function.update_of_ne (by omega), hg]) rfl

/-- **`block_split`.** The remaining block is free. Whether the block in front of it is, its header
does not say yet: the bit `g` comes from the bytes of the block. -/
theorem blockSplit_spec (hP : Placed ctl T) (h : Holds T L mem) (ha : T a = some t)
    (hn : T (a + 8 + t.size) = some n) (h8 : 8 ∣ s) (hs : 24 ≤ s) (hrest : s + 32 ≤ t.size) :
    ∃ mem' g, blockSplit mem a s = some (mem', a + 8 + s) ∧
      Holds (Function.update (cut 8 T a t n s true) (a + 8 + s)
        (some ⟨t.size - s - 8, true, g⟩)) (insert (a + 8 + s) (L \ {a, a + 8 + s})) mem' ∧
      Set.EqOn mem' mem (Meta (cut 8 T a t n s true))ᶜ := by
  have hal := hP.aligned ha
  have hrem : offsetToBlock (blockToPtr a) (s - 8) = a + 8 + s := by
    unfold offsetToBlock blockToPtr
    omega
  have hsize := blockSize_eq (h.tag ha) (hP.four_dvd ha)
  -- the bytes where the new header will be
  obtain ⟨g₀, hg₀, hword⟩ := exists_word (loadWord mem (a + 8 + s + 8))
  have h4 : 4 ∣ t.size - (s + 8) := by omega
  have hset : blockSetSize mem (a + 8 + s) (t.size - (s + 8)) =
      storeWord mem (a + 8 + s + 8) (word { g₀ with size := t.size - s - 8 }) := by
    rw [blockSetSize_eq hword hg₀ h4, Nat.sub_sub]
  have hlt : word { g₀ with size := t.size - s - 8 } < 2 ^ 64 :=
    word_lt (t := { g₀ with size := t.size - s - 8 }) (by simp only; omega)
      (by have := hP.small ha; simp only; omega)
  have hrem' : loadWord (storeWord mem (a + 8 + s + 8) (word { g₀ with size := t.size - s - 8 }))
      (a + 8 + s + 8) = word { g₀ with size := t.size - s - 8 } := loadWord_storeWord _ _ hlt
  have hblock : loadWord (storeWord mem (a + 8 + s + 8)
      (word { g₀ with size := t.size - s - 8 })) (a + 8) = word t := by
    rw [loadWord_storeWord_of_ne (by omega) (by omega) (by omega), h.tag ha]
  -- the two headers, then the state of the second block
  have hP₁ := hP.parted (g := { g₀ with size := t.size - s - 8 }) ha h8 hs hrest rfl
  have h₁ := h.parted (g := { g₀ with size := t.size - s - 8 }) hP ha h8 hs hrest rfl
  have hg₁ : parted T a t s { g₀ with size := t.size - s - 8 } (a + 8 + s) =
      some { g₀ with size := t.size - s - 8 } := by
    unfold parted
    rw [if_neg (by omega), if_pos rfl]
  have hn₁ : parted T a t s { g₀ with size := t.size - s - 8 }
      (a + 8 + s + 8 + (t.size - s - 8)) = some n := by
    have hpos : a + 8 + s + 8 + (t.size - s - 8) = a + 8 + t.size := by omega
    unfold parted
    rw [hpos, if_neg (by omega), if_neg (by omega), hn]
  obtain ⟨mem', hmark, h₂, heq⟩ := blockMarkAsFree_spec hP₁ h₁ hg₁ (by simp only; omega) hn₁
  refine ⟨mem', g₀.prevFree, ?_, ?_, ?_⟩
  · unfold blockSplit
    simp only [hrem, hsize]
    rw [if_pos ⟨by unfold blockToPtr; omega, by omega⟩, hset,
      if_pos (by rw [blockSize_eq hrem' (by simp only; omega)]; simp only; omega),
      blockSetSize_eq hblock (hP.four_dvd ha) (by omega), hmark]
    rfl
  · rw [cut_eq_update (g := { g₀ with size := t.size - s - 8 }) (by omega) rfl,
      Function.update_idem]
    rw [Function.update_eq_self_iff.mpr]
    · exact h₂
    · unfold mark
      rw [if_pos rfl]
  · have hmark' : mark 8 (parted T a t s { g₀ with size := t.size - s - 8 }) (a + 8 + s)
        { g₀ with size := t.size - s - 8 } n true (a + 8 + s) =
        some ⟨t.size - s - 8, true, g₀.prevFree⟩ := if_pos rfl
    have hmeta := meta_update ⟨t.size - s - 8, true, t.free⟩ hmark' rfl rfl
    rw [← cut_eq_update (by omega) rfl] at hmeta
    have hcut : cut 8 T a t n s true a = some { t with size := s } := if_pos rfl
    have hcut' : cut 8 T a t n s true (a + 8 + s) = some ⟨t.size - s - 8, true, t.free⟩ := by
      unfold cut
      rw [if_neg (by omega), if_pos rfl]
    rw [← hmeta] at heq
    exact (heq.trans (eqOn_storeWord (header_mem_meta hcut))).trans
      (eqOn_storeWord (header_mem_meta hcut'))

/-- The bit is set by the caller. -/
theorem Holds.set_prevFree {k r : ℕ} {g f : Bool} (hP : Placed ctl T)
    (h : Holds (Function.update T r (some ⟨k, true, g⟩)) L mem) (hr : T r = some ⟨k, true, f⟩) :
    Holds T L (if f then blockSetPrevFree mem r else blockSetPrevUsed mem r) ∧
      Set.EqOn (if f then blockSetPrevFree mem r else blockSetPrevUsed mem r) mem (Meta T)ᶜ := by
  have hP' := hP.retag ⟨k, true, g⟩ hr rfl
  have hr' : Function.update T r (some ⟨k, true, g⟩) r = some ⟨k, true, g⟩ :=
    Function.update_self ..
  have hset := h.retag ⟨k, true, f⟩ hP' hr' rfl
  have hstore : (if f then blockSetPrevFree mem r else blockSetPrevUsed mem r) =
      storeWord mem (r + 8) (word ⟨k, true, f⟩) := by
    cases f
    · exact blockSetPrevUsed_eq (h.tag hr') (hP'.four_dvd hr')
    · exact blockSetPrevFree_eq (h.tag hr') (hP'.four_dvd hr')
  rw [Function.update_idem, ← hr, Function.update_eq_self] at hset
  rw [hstore]
  exact ⟨hset, eqOn_storeWord (header_mem_meta hr)⟩

/-! ### One block out of two -/

/-- Two blocks as one. The header behind both is as it was. -/
def merged (T : Tags) (a : ℕ) (t n : Tag) : Tags := fun x =>
  if x = a then some { t with size := t.size + 8 + n.size }
  else if x = a + 8 + t.size then none
  else T x

theorem join_eq_update :
    join 8 T a t n m = Function.update (merged T a t n) (a + 8 + t.size + 8 + n.size)
      (some { m with prevFree := t.free }) := by
  funext x
  unfold join merged
  by_cases hxm : x = a + 8 + t.size + 8 + n.size
  · rw [hxm, Function.update_self, if_neg (by omega), if_neg (by omega), if_pos rfl]
  · rw [Function.update_of_ne hxm, if_neg hxm]

/-- It is as it should be where it says the right thing of the block in front. -/
theorem merged_eq_join (hm : T (a + 8 + t.size + 8 + n.size) = some m)
    (hfree : m.prevFree = t.free) : merged T a t n = join 8 T a t n m := by
  have hm' : merged T a t n (a + 8 + t.size + 8 + n.size) = some { m with prevFree := t.free } := by
    unfold merged
    rw [if_neg (by omega), if_neg (by omega), hm, ← hfree]
  rw [join_eq_update, ← hm', Function.update_eq_self]

theorem Placed.merged (hP : Placed ctl T) (ha : T a = some t) (hs : t.size ≠ 0)
    (hn : T (a + 8 + t.size) = some n) (hlt : t.size + 8 + n.size < 2 ^ 32) :
    Placed ctl (merged T a t n) := by
  have hal := hP.aligned ha
  have haln := hP.aligned hn
  have hbounds := hP.bounds ha
  have hboundsn := hP.bounds hn
  have haway := hP.away ha
  have hawayn := hP.away hn
  have hleast := hP.least ha hs
  -- the joined block, or a block on one of its sides
  have hcases : ∀ {x u}, TwoLevel.merged T a t n x = some u →
      (x = a ∧ u.size = t.size + 8 + n.size) ∨
      (T x = some u ∧ (x + 8 + u.size ≤ a ∨ a + 8 + t.size + 8 + n.size ≤ x)) := by
    intro x u hx
    unfold TwoLevel.merged at hx
    split at hx
    · obtain rfl := Option.some.inj hx
      exact Or.inl ⟨‹_›, rfl⟩
    · split at hx
      · cases hx
      · next hxa hxn =>
        refine Or.inr ⟨hx, ?_⟩
        rcases Nat.lt_or_gt_of_ne hxa with hlt | hlt
        · exact Or.inl (hP.apart hx ha hlt)
        · have := hP.apart ha hx hlt
          exact Or.inr (hP.apart hn hx (by omega))
  refine ⟨?_, ?_, ?_, ?_, ?_, ?_, hP.control⟩
  · intro x y u v hx hy hlt
    rcases hcases hx with ⟨rfl, hu⟩ | ⟨hx, hx'⟩ <;> rcases hcases hy with ⟨rfl, hv⟩ | ⟨hy, hy'⟩
    all_goals first
      | exact hP.apart hx hy hlt
      | omega
  all_goals
    intro x u hx
    rcases hcases hx with ⟨rfl, hu⟩ | ⟨hx, hx'⟩
  all_goals first
    | omega
    | exact hP.aligned hx
    | exact hP.least hx
    | exact hP.small hx
    | exact hP.bounds hx
    | exact hP.away hx

/-- The header of both is written. -/
theorem Holds.merged (h : Holds T L mem) (hP : Placed ctl T) (ha : T a = some t) (hs : t.size ≠ 0)
    (hn : T (a + 8 + t.size) = some n) (hlt : t.size + 8 + n.size < 2 ^ 32) :
    Holds (merged T a t n) (L \ {a})
      (storeWord mem (a + 8) (word { t with size := t.size + 8 + n.size })) := by
  have hal := hP.aligned ha
  have hP' := hP.merged ha hs hn hlt
  have ha' : TwoLevel.merged T a t n a = some { t with size := t.size + 8 + n.size } := if_pos rfl
  refine ⟨fun {b u} hb => ?_, fun {b u} hbL hb hsb => ?_⟩
  · by_cases hba : b = a
    · subst hba
      obtain rfl := Option.some.inj (ha'.symm.trans hb)
      exact loadWord_storeWord _ _ (hP'.word_lt ha')
    · have hbal := hP'.aligned hb
      rw [loadWord_storeWord_of_ne (by omega) (by omega) (by omega)]
      unfold TwoLevel.merged at hb
      rw [if_neg hba, Option.ite_none_left_eq_some] at hb
      exact h.tag hb.2
  · obtain ⟨hbL, hba : b ≠ a⟩ := hbL
    unfold TwoLevel.merged at hb
    rw [if_neg hba, Option.ite_none_left_eq_some] at hb
    have hbal := hP.aligned hb.2
    -- a link is written at the end of its block, so the store does not meet it
    have hne : b + 8 + u.size ≠ a + 8 := by
      rcases Nat.lt_or_gt_of_ne hba with hlt | hlt
      · have := hP.apart hb.2 ha hlt
        omega
      · omega
    rw [loadWord_storeWord_of_ne (by omega) (by omega) hne]
    exact h.link hbL hb.2 hsb

/-- **`block_absorb`**, up to what the header behind both says. -/
theorem blockAbsorb_spec (hP : Placed ctl T) (h : Holds T L mem) (ha : T a = some t)
    (hs : t.size ≠ 0) (hn : T (a + 8 + t.size) = some n) (hnf : n.free = true)
    (hlt : t.size + 8 + n.size < 2 ^ 32) :
    ∃ mem', blockAbsorb mem a (a + 8 + t.size) = some (mem', a) ∧
      Holds (merged T a t n) (insert a (L \ {a})) mem' ∧ Set.EqOn mem' mem (Meta T)ᶜ := by
  have hP' := hP.merged ha hs hn hlt
  have h' := h.merged hP ha hs hn hlt
  have ha' : merged T a t n a = some { t with size := t.size + 8 + n.size } := if_pos rfl
  have hword : word t + (n.size + 8) = word { t with size := t.size + 8 + n.size } := by
    unfold word
    simp only
    omega
  -- the flags of the first block are kept in the sum
  obtain ⟨hlink, h''⟩ := blockLinkNext_spec hP' h' ha' (by simp only; omega)
  have hpos : a + 8 + (t.size + 8 + n.size) = a + 8 + t.size + 8 + n.size := by omega
  unfold blockAbsorb
  rw [blockIsLast_eq (h.tag ha) (hP.four_dvd ha), if_neg (by simpa using hs)]
  simp only [blockSize_eq (h.tag hn) (hP.four_dvd hn), h.tag ha, hword, hlink]
  refine ⟨_, rfl, h'', ?_⟩
  simp only [hpos]
  exact (eqOn_storeWord (link_mem_meta hn hnf)).trans (eqOn_storeWord (header_mem_meta ha))

end Heap

end Tjost.TwoLevel
