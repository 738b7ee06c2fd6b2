import Tjost.Memory.Coalescing

/-!
# The calls of the allocator

The entry points of `tlsf.c`, from the functions below them. Each keeps `Intact`, changes the blocks
in use as its name says, and does not write a byte of the other ones:

* `malloc_spec` — a block of at least the requested size, where none was, or `NULL`. It answers
  `NULL` if and only if no free block has the size that the request is rounded up to (`Refused`);
* `free_spec`;
* `realloc_spec` — the block, moved or not, with the bytes that fit into both sizes;
* `addPool_spec` — a pool apart from the other ones;
* `removePool_spec` — possible if and only if no block of the pool is in use.

The requests that the size classes have no room for are left out: those above `2 ^ 32 - 2 ^ 26`
bytes look behind the end of the tables, and a reallocation to `2 ^ 32` bytes or more cuts its
block down to nothing.
-/

namespace Tjost.TwoLevel

open ByteMemory BoundaryTags

variable (ctl : ℕ)

/-! ### The functions -/

/-- `block_locate_free`. Answers with the block, or `0`. -/
def blockLocateFree (s : Control) (size : ℕ) : Option (Control × ℕ) :=
  if size = 0 then some (s, 0)
  else do
    let (fl, sl) := mappingSearch size
    let (block, fl, sl) ← searchSuitableBlock s fl sl
    if block = 0 then some (s, 0)
    else if blockSize s.mem block < size then none
    else do
      let s ← removeFreeBlock ctl s block fl sl
      some (s, block)

/-- `block_prepare_used`. -/
def blockPrepareUsed (s : Control) (block size : ℕ) : Option (Control × ℕ) :=
  if block = 0 then some (s, 0)
  else do
    let s ← blockTrimFree ctl s block size
    let mem ← blockMarkAsUsed s.mem block
    some ({ s with mem }, blockToPtr block)

/-- `tlsf_malloc`. -/
def malloc (s : Control) (size : ℕ) : Option (Control × ℕ) := do
  let adjust := adjustRequestSize size 8
  let (s, block) ← blockLocateFree ctl s adjust
  blockPrepareUsed ctl s block adjust

/-- `tlsf_free`. -/
def free (s : Control) (ptr : ℕ) : Option Control :=
  if ptr = 0 then some s
  else do
    let block := blockFromPtr ptr
    if blockIsFree s.mem block then none
    else do
      let mem ← blockMarkAsFree s.mem block
      let (s, block) ← blockMergePrev ctl { s with mem } block
      let (s, block) ← blockMergeNext ctl s block
      blockInsert ctl s block

/-- `tlsf_realloc`. -/
def realloc (s : Control) (ptr size : ℕ) : Option (Control × ℕ) :=
  if ptr ≠ 0 ∧ size = 0 then do
    let s ← free ctl s ptr
    some (s, 0)
  else if ptr = 0 then malloc ctl s size
  else do
    let block := blockFromPtr ptr
    let next ← blockNext s.mem block
    let cursize := blockSize s.mem block
    let combined := cursize + blockSize s.mem next + 8
    let adjust := adjustRequestSize size 8
    if blockIsFree s.mem block then none
    else if cursize < adjust ∧ (¬ blockIsFree s.mem next ∨ combined < adjust) then do
      -- there is not enough room, so the bytes move
      let (s, p) ← malloc ctl s size
      if p = 0 then some (s, 0)
      else do
        let minsize := min cursize size
        let s ← free ctl { s with mem := write s.mem p (read s.mem ptr minsize) } ptr
        some (s, p)
    else do
      let s ← if cursize < adjust then do
          let (s, _) ← blockMergeNext ctl s block
          let mem ← blockMarkAsUsed s.mem block
          some { s with mem }
        else some s
      let s ← blockTrimUsed ctl s block adjust
      some (s, ptr)

/-- `tlsf_block_size`. -/
def tlsfBlockSize (mem : ByteMemory.Memory) (ptr : ℕ) : ℕ :=
  if ptr = 0 then 0 else blockSize mem (blockFromPtr ptr)

/-- `tlsf_add_pool`. Answers with the pool, or `0` where its memory cannot be used. -/
def addPool (s : Control) (area bytes : ℕ) : Option (Control × ℕ) :=
  let poolBytes := alignDown ((bytes + 2 ^ 64 - 16) % 2 ^ 64) 8
  if area % 8 ≠ 0 then some (s, 0)
  else if poolBytes < 24 ∨ 2 ^ 32 < poolBytes then some (s, 0)
  else do
    -- one free block
    let block := area - 8
    let mem := blockSetSize s.mem block poolBytes
    let mem := blockSetPrevUsed (blockSetFree mem block) block
    let s ← blockInsert ctl { s with mem } block
    -- and a last one without bytes
    let (mem, next) ← blockLinkNext s.mem block
    let mem := blockSetUsed (blockSetSize mem next 0) next
    some ({ s with mem := blockSetPrevFree mem next }, area)

/-- `tlsf_remove_pool`. -/
def removePool (s : Control) (pool : ℕ) : Option Control := do
  let block := pool - 8
  if ¬ blockIsFree s.mem block then none
  else do
    let next ← blockNext s.mem block
    if blockIsFree s.mem next ∨ blockSize s.mem next ≠ 0 then none
    else
      let (fl, sl) := mappingInsert (blockSize s.mem block)
      removeFreeBlock ctl s block fl sl

/-- `tlsf_get_pool`. The control structure has 6536 bytes. -/
def getPool (tlsf : ℕ) : ℕ := tlsf + 6536

/-- `tlsf_create_with_pool`. It has no control structure where it answers with `0`. -/
def createWithPool (mem : ByteMemory.Memory) (area bytes : ℕ) : Option Control :=
  if area % 8 ≠ 0 then none
  else do
    let s := controlConstruct area mem
    let (s, _) ← addPool area s (area + 6536) ((bytes + 2 ^ 64 - 6536) % 2 ^ 64)
    some s

variable {ctl}
variable {R : List Region} {D D' S : Set ℕ} {s s' : Control} {T T' : Tags} {mem : ByteMemory.Memory}
  {a b x z k i fl sl size : ℕ} {t n m : Tag} {f : Bool}

/-! ### Allocation -/

/-- No free block has the size that the request is rounded up to. -/
def Refused (T : Tags) (size : ℕ) : Prop :=
  size = 0 ∨ 2 ^ 32 ≤ size ∨ ∀ a t, T a = some t → t.free = true →
    t.size < least (mappingSearch (adjustRequestSize size 8)).1
      (mappingSearch (adjustRequestSize size 8)).2

/-- The block is of the first class, from the one that the search begins with, that has one. -/
def GoodFit (T : Tags) (z : ℕ) (t : Tag) : Prop :=
  ∀ b u, T b = some u → u.free = true → least (mappingSearch z).1 (mappingSearch z).2 ≤ u.size →
    ClassLE (mappingInsert t.size) (mappingInsert u.size)

/-- **`block_locate_free`.** -/
theorem blockLocateFree_spec (h : Intact ctl R ∅ ∅ s T) (h8 : 8 ∣ z) (hz : 24 ≤ z)
    (hle : z ≤ 2 ^ 32 - 2 ^ 26) :
    (blockLocateFree ctl s z = some (s, 0) ∧ ∀ a t, T a = some t → t.free = true →
      t.size < least (mappingSearch z).1 (mappingSearch z).2) ∨
    ∃ s' a t, blockLocateFree ctl s z = some (s', a) ∧ T a = some t ∧ t.free = true ∧
      least (mappingSearch z).1 (mappingSearch z).2 ≤ t.size ∧ GoodFit T z t ∧
      Intact ctl R {a} ∅ s' T ∧ Set.EqOn s'.mem s.mem (Used T) := by
  have hP := h.sound.placed
  have hfl : (mappingSearch z).1 < 25 := (mappingSearch_fst_lt (by omega)).mpr hle
  have hsl : (mappingSearch z).2 < 32 := mappingSearch_snd_lt (by omega)
  have hclass : ∀ {a t}, T a = some t →
      (least (mappingSearch z).1 (mappingSearch z).2 ≤ t.size ↔
        ClassLE (mappingSearch z) (mappingInsert t.size)) := fun ha =>
    least_le_iff (lt_trans (hP.small ha) (by decide)) hsl
  unfold blockLocateFree
  rw [if_neg (by omega)]
  rcases searchSuitableBlock_spec (mappingSearch z).2 h.listed hP hfl with
    ⟨hsearch, hnone⟩ | ⟨b, fl, sl, hsearch, hb, hle', hmin⟩
  · left
    refine ⟨?_, fun a t ha hfree => ?_⟩
    · simp only [hsearch, Option.bind_eq_bind, Option.bind_some, if_true]
    · by_contra hge
      exact hnone _ _ a ⟨Set.notMem_empty a, t, ha, hfree, h.sound.laid.size_ne_zero ha hfree, rfl⟩
        ((hclass ha).mp (Nat.le_of_not_lt hge))
  · right
    obtain ⟨s', hrem, hlisted, heq⟩ := removeFreeBlock_spec hP h.listed hb
    obtain ⟨-, t, ht, hfree, hs, hcl⟩ := hb
    have hleast : least (mappingSearch z).1 (mappingSearch z).2 ≤ t.size :=
      (hclass ht).mpr (hcl ▸ hle')
    have hround := le_least_mappingSearch h8 (by omega)
    rw [insert_empty_eq] at hlisted
    refine ⟨s', b, t, ?_, ht, hfree, hleast, fun c u hu hufree hule => ?_, ⟨h.sound, h.coalesced,
      h.holds.congr subset_rfl fun i hi => heq ?_, hlisted⟩, heq.mono hP.used_subset.2⟩
    · have hb0 : ¬ b = 0 := (hP.bounds ht).1.ne'
      have hsize : ¬ blockSize s.mem b < z := by
        rw [blockSize_eq (h.holds.tag ht) (hP.four_dvd ht)]
        omega
      simp only [hsearch, Option.bind_eq_bind, Option.bind_some, if_neg hb0, if_neg hsize, hrem]
    · rw [hcl]
      exact hmin _ _ c ⟨Set.notMem_empty c, u, hu, hufree, h.sound.laid.size_ne_zero hu hufree, rfl⟩
        ((hclass hu).mp hule)
    · exact Set.disjoint_left.mp hP.fields_disjoint (Or.inr hi)

/-- `tlsf_malloc`, with the free block that it takes. -/
theorem malloc_fit (h : Intact ctl R ∅ ∅ s T) (hsize : size ≤ 2 ^ 32 - 2 ^ 26 ∨ 2 ^ 32 ≤ size) :
    (Refused T size ∧ malloc ctl s size = some (s, 0)) ∨
    (¬ Refused T size ∧ ∃ s' a t k T', malloc ctl s size = some (s', a + 16) ∧
      Intact ctl R ∅ ∅ s' T' ∧ (T a = some t ∧ t.free = true ∧
        adjustRequestSize size 8 ≤ t.size ∧ GoodFit T (adjustRequestSize size 8) t) ∧
      size ≤ adjustRequestSize size 8 ∧ adjustRequestSize size 8 ≤ k ∧
      k < adjustRequestSize size 8 + 32 ∧
      live T' = Function.update (live T) a (some k) ∧ Set.EqOn s'.mem s.mem (Used T)) := by
  unfold malloc
  by_cases hzero : size = 0 ∨ 2 ^ 32 ≤ size
  · left
    refine ⟨hzero.elim Or.inl fun hge => Or.inr (Or.inl hge), ?_⟩
    simp only [adjustRequestSize_eq_zero hzero, blockLocateFree, if_true, Option.bind_eq_bind,
      Option.bind_some, blockPrepareUsed]
  · rw [not_or] at hzero
    obtain ⟨h8, h24, hle, hmax⟩ := adjustRequestSize_spec hzero.1 (by omega)
    rcases blockLocateFree_spec h h8 h24 hmax with
      ⟨hloc, hnone⟩ | ⟨s₁, a, t, hloc, ha, hfree, hleast, hfit, h₁, heq₁⟩
    · left
      refine ⟨Or.inr (Or.inr hnone), ?_⟩
      simp only [hloc, Option.bind_eq_bind, Option.bind_some, blockPrepareUsed, if_true]
    · right
      have hround := le_least_mappingSearch h8 (by omega)
      have hnull : ¬ a = 0 := (h.sound.placed.bounds ha).1.ne'
      -- the block that was found is cut, and what is left of it is taken into use
      obtain ⟨s₂, t₂, T₂, htrim, h₂, ht₂, hf₂, hlo, hhi, hlive₂, heq₂⟩ :=
        blockTrimFree_spec h₁ ha hfree h8 h24 (hround.trans hleast)
      obtain ⟨mem', T', hmark, h₃, hlive₃, heq₃⟩ := blockMarkAsUsed_intact h₂ ht₂ hf₂
      rw [used_congr hlive₂] at heq₃
      rw [hlive₂] at hlive₃
      refine ⟨?_, { s₂ with mem := mem' }, a, t, t₂.size, T', ?_, h₃,
        ⟨ha, hfree, hround.trans hleast, hfit⟩, hle, hlo, hhi, hlive₃,
        (heq₃.trans heq₂).trans heq₁⟩
      · rintro (hc | hc | hc)
        · exact hzero.1 hc
        · exact hzero.2 hc
        · exact absurd hleast (Nat.not_le.mpr (hc a t ha hfree))
      · simp only [hloc, Option.bind_eq_bind, Option.bind_some, blockPrepareUsed, if_neg hnull,
          htrim, hmark]
        rfl

/-- **`tlsf_malloc`.** -/
theorem malloc_spec (h : Intact ctl R ∅ ∅ s T) (hsize : size ≤ 2 ^ 32 - 2 ^ 26 ∨ 2 ^ 32 ≤ size) :
    (Refused T size ∧ malloc ctl s size = some (s, 0)) ∨
    (¬ Refused T size ∧ ∃ s' a k T', malloc ctl s size = some (s', a + 16) ∧
      Intact ctl R ∅ ∅ s' T' ∧ live T a = none ∧ size ≤ k ∧
      live T' = Function.update (live T) a (some k) ∧ Set.EqOn s'.mem s.mem (Used T)) := by
  rcases malloc_fit h hsize with
    hrefused | ⟨hno, s', a, t, k, T', hm, h', ⟨ha, hfree, -⟩, hadj, hlo, -, hlive, heq⟩
  · exact Or.inl hrefused
  · exact Or.inr ⟨hno, s', a, k, T', hm, h', live_eq_none_of_free (hfree ▸ status_of ha),
      hadj.trans hlo, hlive, heq⟩

/-- A request between the classes and `2 ^ 32` looks behind the end of the tables. -/
theorem malloc_eq_none (s : Control) (hlo : 2 ^ 32 - 2 ^ 26 < size) (hhi : size < 2 ^ 32) :
    malloc ctl s size = none := by
  have hadj := adjustRequestSize_eq (show size ≠ 0 by omega) hhi
  -- rounding up takes the first index to 25, which is the number of entries
  have hfl : ¬ (mappingSearch (adjustRequestSize size 8)).1 < 25 := by
    rw [mappingSearch_fst_lt (by omega)]
    omega
  have hsearch : ∀ sl, searchSuitableBlock s (mappingSearch (adjustRequestSize size 8)).1 sl =
      none := by
    intro sl
    unfold searchSuitableBlock
    exact if_pos (Nat.le_of_not_lt hfl)
  unfold malloc blockLocateFree
  simp only [if_neg (show ¬ adjustRequestSize size 8 = 0 by omega), hsearch, Option.bind_eq_bind,
    Option.bind_none]

theorem tlsfBlockSize_eq (h : Intact ctl R D S s T) (ha : live T a = some z) :
    tlsfBlockSize s.mem (a + 16) = z := by
  obtain ⟨t, ht, he⟩ := Option.map_eq_some_iff.mp (live_eq_some_iff.mp ha).1
  obtain ⟨rfl, -⟩ := Prod.mk.inj he
  have hblock : blockFromPtr (a + 16) = a := Nat.add_sub_cancel a 16
  unfold tlsfBlockSize
  rw [if_neg (by omega), hblock]
  exact blockSize_eq (h.holds.tag ht) (h.sound.placed.four_dvd ht)

/-! ### Freeing -/

/-- **`tlsf_free`.** -/
theorem free_spec (h : Intact ctl R ∅ ∅ s T) (ha : live T a = some z) :
    ∃ s' T', free ctl s (a + 16) = some s' ∧ Intact ctl R ∅ ∅ s' T' ∧
      live T' = Function.update (live T) a none ∧ Set.EqOn s'.mem s.mem (Used T') := by
  obtain ⟨hstatus, hs⟩ := live_eq_some_iff.mp ha
  obtain ⟨t, ht, he⟩ := Option.map_eq_some_iff.mp hstatus
  obtain ⟨rfl, hused⟩ := Prod.mk.inj he
  have hblock : blockFromPtr (a + 16) = a := Nat.add_sub_cancel a 16
  -- it is an exception from here on, until it has met its neighbours and is in a list
  obtain ⟨mem₁, T₁, hmark, h₁, ht₁, hlive₁, heq₁⟩ := blockMarkAsFree_intact h ht hused hs
  obtain ⟨s₂, a₂, t₂, T₂, hprev, h₂, ht₂, hf₂, hend, hlive₂, heq₂⟩ :=
    blockMergePrev_spec (t := { t with free := true }) h₁ ht₁ rfl
  rw [← hend] at h₂
  obtain ⟨s₃, t₃, T₃, hnext, h₃, ht₃, hf₃, hlive₃, heq₃⟩ := blockMergeNext_spec h₂ ht₂ hf₂
  obtain ⟨s₄, hins, h₄, heq₄⟩ := h₃.enlist ht₃ hf₃ rfl
  rw [Set.sdiff_self] at h₄
  refine ⟨s₄, T₃, ?_, h₄, hlive₃.trans (hlive₂.trans hlive₁), ?_⟩
  · have hfree : blockIsFree s.mem a = false := by
      rw [blockIsFree_eq (h.holds.tag ht) (h.sound.placed.four_dvd ht), hused]
    unfold free
    rw [if_neg (by omega)]
    simp only [hblock, hfree, hmark, hprev, hnext, Option.bind_eq_bind, Option.bind_some]
    exact hins
  · rw [used_congr hlive₃] at heq₄ ⊢
    rw [used_congr hlive₂] at heq₄ heq₃ ⊢
    exact ((heq₄.trans heq₃).trans heq₂).trans heq₁

/-! ### Reallocation -/

theorem realloc_null (s : Control) (size : ℕ) : realloc ctl s 0 size = malloc ctl s size := by
  unfold realloc
  rw [if_neg (fun hc => hc.1 rfl), if_pos rfl]

/-- The other blocks are there after the reallocation, and their bytes. -/
theorem bytes_update_subset (sizes : ℕ → Option ℕ) (a b k : ℕ) (hb : b = a ∨ sizes b = none) :
    bytes (Function.update sizes a none) ⊆
      bytes (Function.update (Function.update sizes a none) b (some k)) := by
  rintro i ⟨c, z, hc, hi⟩
  refine ⟨c, z, ?_, hi⟩
  obtain ⟨hca, hcz⟩ := update_none_eq_some.mp hc
  have hcb : c ≠ b := by
    rintro rfl
    rcases hb with hb | hb
    · exact hca hb
    · rw [hb] at hcz
      cases hcz
  rw [Function.update_of_ne hcb, hc]

theorem bytes_update_none_subset (sizes : ℕ → Option ℕ) (a : ℕ) :
    bytes (Function.update sizes a none) ⊆ bytes sizes := by
  rintro i ⟨c, z, hc, hi⟩
  exact ⟨c, z, (update_none_eq_some.mp hc).2, hi⟩

/-- What a reallocation does that is granted: the block is at `b` now. It moves only if it has to
grow, and then to where it was not. -/
structure Reallocated (ctl : ℕ) (R : List Region) (s : Control) (T : Tags) (a z size : ℕ)
    (s' : Control) (b : ℕ) : Prop where
  intact : ∃ k T', Intact ctl R ∅ ∅ s' T' ∧ size ≤ k ∧
    live T' = Function.update (Function.update (live T) a none) b (some k) ∧
    (b ≠ a → b + 8 + k ≤ a ∨ a + 8 + z ≤ b)
  fresh : b = a ∨ live T b = none ∧ z < adjustRequestSize size 8
  others : Set.EqOn s'.mem s.mem (bytes (Function.update (live T) a none))
  kept : ∀ i < min z size, s'.mem (b + 16 + i) = s.mem (a + 16 + i)

/-- The block stays where it is. -/
theorem Reallocated.in_place {mem₁ : ByteMemory.Memory} (hlive : live T a = some z)
    (hz : size ≤ k) (h' : Intact ctl R ∅ ∅ s' T')
    (hlive' : live T' = Function.update (live T) a (some k))
    (heq : Set.EqOn s'.mem mem₁ (Used T')) (heq₁ : Set.EqOn mem₁ s.mem (Used T)) :
    Reallocated ctl R s T a z size s' a := by
  rw [used_eq_bytes] at heq heq₁
  have hidem : Function.update (Function.update (live T) a none) a (some k) =
      Function.update (live T) a (some k) := Function.update_idem ..
  rw [← hidem] at hlive'
  refine ⟨⟨k, T', h', hz, hlive', fun hc => absurd rfl hc⟩, Or.inl rfl, ?_, fun i hi => ?_⟩
  · have hsub := bytes_update_subset (live T) a a k (Or.inl rfl)
    rw [← hlive'] at hsub
    exact (heq.mono hsub).trans (heq₁.mono (bytes_update_none_subset _ _))
  · rw [heq ⟨a, k, by rw [hlive', Function.update_self], by omega, by omega⟩]
    exact heq₁ ⟨a, z, hlive, by omega, by omega⟩

/-- The block moves: its bytes are copied into the new one, and it is freed. -/
theorem Reallocated.moved {s₁ : Control} {T₁ : Tags} (ha : live T a = some z)
    (hb : live T b = none) (hlt : z < adjustRequestSize size 8) (hk : size ≤ k)
    (h₁ : Intact ctl R ∅ ∅ s₁ T₁) (hlive₁ : live T₁ = Function.update (live T) b (some k))
    (heq₁ : Set.EqOn s₁.mem s.mem (Used T)) :
    ∃ s', free ctl { s₁ with mem := write s₁.mem (b + 16) (read s₁.mem (a + 16) (min z size)) }
        (a + 16) = some s' ∧ Reallocated ctl R s T a z size s' b := by
  have hba : b ≠ a := by
    rintro rfl
    rw [ha] at hb
    cases hb
  have hlb : live T₁ b = some k := by rw [hlive₁, Function.update_self]
  have hla : live T₁ a = some z := by rw [hlive₁, Function.update_of_ne hba.symm, ha]
  have hlen := length_read s₁.mem (a + 16) (min z size)
  obtain ⟨mem₂, hmem₂⟩ : ∃ m, m = write s₁.mem (b + 16) (read s₁.mem (a + 16) (min z size)) :=
    ⟨_, rfl⟩
  have hout : ∀ i, i < b + 16 ∨ b + 16 + min z size ≤ i → mem₂ i = s₁.mem i := by
    intro i hi
    rw [hmem₂]
    rcases hi with hi | hi
    · exact write_of_lt hi
    · exact write_of_ge (by rw [hlen]; exact hi)
  -- the copy is a write of the owner of the new block
  have h₂ := h₁.write mem₂ fun i hi => hout i (by
    by_contra hin
    refine hi ?_
    rw [used_eq_bytes]
    exact ⟨b, k, hlb, by omega, by omega⟩)
  obtain ⟨s₃, T₃, hfr, h₃, hlive₃, heq₃⟩ := free_spec h₂ hla
  rw [hlive₁, Function.update_comm hba] at hlive₃
  rw [used_eq_bytes] at heq₁ heq₃
  rw [← hmem₂]
  refine ⟨s₃, hfr, ⟨k, T₃, h₃, hk, hlive₃, fun _ => h₁.sound.placed.live_apart hba hlb hla⟩,
    Or.inr ⟨hb, hlt⟩, fun i hi => ?_, fun i hi => ?_⟩
  · have hi₃ := bytes_update_subset (live T) a b k (Or.inr hb) hi
    rw [← hlive₃] at hi₃
    rw [heq₃ hi₃]
    obtain ⟨c, y, hc, hlo, hhi⟩ := hi
    obtain ⟨hca, hc⟩ := update_none_eq_some.mp hc
    have hcb : c ≠ b := by
      rintro rfl
      rw [hb] at hc
      cases hc
    have hc₁ : live T₁ c = some y := by rw [hlive₁, Function.update_of_ne hcb, hc]
    have hmem : mem₂ i = s₁.mem i := hout i (by
      by_contra hin
      exact hcb (h₁.sound.placed.byte_inj hc₁ hlb hlo hhi (by omega) (by omega)))
    exact hmem.trans (heq₁ ⟨c, y, hc, hlo, hhi⟩)
  · have hbyte : mem₂ (b + 16 + i) = s₁.mem (a + 16 + i) := by
      rw [hmem₂]
      unfold write
      rw [if_pos (by omega), Nat.add_sub_cancel_left, getElem?_read hi]
      rfl
    rw [heq₃ ⟨b, k, by rw [hlive₃, Function.update_self], by omega, by omega⟩]
    exact hbyte.trans (heq₁ ⟨a, z, ha, by omega, by omega⟩)

/-- **`tlsf_realloc`** of a block in use, to a length that is not zero. If it is refused, then
nothing has changed. -/
theorem realloc_spec (h : Intact ctl R ∅ ∅ s T) (ha : live T a = some z) (hne : size ≠ 0)
    (hle : size ≤ 2 ^ 32 - 2 ^ 26) :
    (Refused T size ∧ z < adjustRequestSize size 8 ∧
      realloc ctl s (a + 16) size = some (s, 0)) ∨
    ∃ s' b, realloc ctl s (a + 16) size = some (s', b + 16) ∧
      Reallocated ctl R s T a z size s' b := by
  have hP := h.sound.placed
  obtain ⟨hstatus, hs⟩ := live_eq_some_iff.mp ha
  obtain ⟨t, ht, he⟩ := Option.map_eq_some_iff.mp hstatus
  obtain ⟨rfl, hused⟩ := Prod.mk.inj he
  obtain ⟨n, hn, -⟩ := h.sound.laid.next ht hs
  obtain ⟨h8, h24, hadj, hmax⟩ := adjustRequestSize_spec hne hle
  have hblock : blockFromPtr (a + 16) = a := Nat.add_sub_cancel a 16
  have hnext := blockNext_of_holds hP h.holds ht hs
  have hsize := blockSize_eq (h.holds.tag ht) (hP.four_dvd ht)
  have hsizen := blockSize_eq (h.holds.tag hn) (hP.four_dvd hn)
  have hfree : blockIsFree s.mem a = false := by
    rw [blockIsFree_eq (h.holds.tag ht) (hP.four_dvd ht), hused]
  have hfreen := blockIsFree_eq (h.holds.tag hn) (hP.four_dvd hn)
  unfold realloc
  rw [if_neg (fun hc => hne hc.2), if_neg (by omega)]
  simp only [hblock, hnext, hsize, hsizen, hfree, hfreen, Option.bind_eq_bind, Option.bind_some,
    Bool.false_eq_true, if_false]
  generalize hz : adjustRequestSize size 8 = adjust at *
  by_cases hmove : t.size < adjust ∧ (¬ n.free = true ∨ t.size + n.size + 8 < adjust)
  · -- neither the block nor the one behind it is enough
    rw [if_pos hmove]
    rcases malloc_spec h (Or.inl hle) with ⟨hrefused, hm⟩ | ⟨-, s₁, b, k, T₁, hm, h₁, hb, hk,
      hlive₁, heq₁⟩
    · left
      refine ⟨hrefused, hmove.1, ?_⟩
      rw [hm]
      rfl
    · right
      have hgrow : t.size < adjustRequestSize size 8 := hz ▸ hmove.1
      obtain ⟨s₃, hfr, hR⟩ := Reallocated.moved ha hb hgrow hk h₁ hlive₁ heq₁
      refine ⟨s₃, b, ?_, hR⟩
      have hnull : ¬ b + 16 = 0 := by omega
      rw [hm]
      simp only [Option.bind_some, if_neg hnull, hfr]
  · right
    rw [if_neg hmove]
    by_cases hgrow : t.size < adjust
    · -- the next block is free, and both are large enough
      have hnf : n.free = true := by
        by_contra hc
        exact hmove ⟨hgrow, Or.inl hc⟩
      have hcombined : adjust ≤ t.size + 8 + n.size := by
        by_contra hc
        exact hmove ⟨hgrow, Or.inr (by omega)⟩
      obtain ⟨s₁, mem₁, T₁, hmerge, hmark, h₁, ht₁, hlive₁, heq₁⟩ :=
        blockMergeNext_used h ht hused hs hn hnf
      obtain ⟨s', k, T', htrim, h', hk, -, -, hlive', heq'⟩ := blockTrimUsed_spec
        (t := { t with size := t.size + 8 + n.size }) h₁ ht₁ hused h8 h24 hcombined
      rw [hlive₁, Function.update_idem] at hlive'
      refine ⟨s', a, ?_, Reallocated.in_place ha (by omega) h' hlive' heq' heq₁⟩
      simp only [if_pos hgrow, hmerge, hmark, htrim, Option.bind_some]
    · obtain ⟨s', k, T', htrim, h', hk, -, -, hlive', heq'⟩ :=
        blockTrimUsed_spec h ht hused h8 h24 (Nat.le_of_not_lt hgrow)
      refine ⟨s', a, ?_, Reallocated.in_place ha (by omega) h' hlive' heq' (Set.eqOn_refl _ _)⟩
      simp only [if_neg hgrow, htrim, Option.bind_some]

/-! ### Pools -/

/-- Memory that a pool can be made of. Its bytes are in no other pool, and not in the control
structure. -/
structure Room (ctl : ℕ) (R : List Region) (area bytes : ℕ) : Prop where
  aligned : 8 ∣ area
  large : 40 ≤ bytes
  small : bytes < 2 ^ 32 + 16
  pos : 8 < area
  lt : area + bytes ≤ 2 ^ 64
  away : area + bytes ≤ ctl ∨ ctl + 6536 ≤ area
  apart : ∀ r ∈ R, area + bytes ≤ r.start + 8 ∨ r.stop + 16 ≤ area

instance (R : List Region) (area bytes : ℕ) : Decidable (Room ctl R area bytes) :=
  decidable_of_iff (8 ∣ area ∧ 40 ≤ bytes ∧ bytes < 2 ^ 32 + 16 ∧ 8 < area ∧
    area + bytes ≤ 2 ^ 64 ∧ (area + bytes ≤ ctl ∨ ctl + 6536 ≤ area) ∧
    ∀ r ∈ R, area + bytes ≤ r.start + 8 ∨ r.stop + 16 ≤ area)
    ⟨fun ⟨h₁, h₂, h₃, h₄, h₅, h₆, h₇⟩ => ⟨h₁, h₂, h₃, h₄, h₅, h₆, h₇⟩,
      fun ⟨h₁, h₂, h₃, h₄, h₅, h₆, h₇⟩ => ⟨h₁, h₂, h₃, h₄, h₅, h₆, h₇⟩⟩

/-- The blocks of a pool. The first header begins in front of it, with the link that is never
used. -/
def poolRegion (area bytes : ℕ) : Region := ⟨area - 8, area + (bytes - 16) / 8 * 8⟩

namespace Room

variable {area bytes : ℕ} (hr : Room ctl R area bytes)
include hr

theorem start_add : (poolRegion area bytes).start + 8 = area := by
  have := hr.pos
  unfold poolRegion
  simp only
  omega

theorem size_eq : (poolRegion area bytes).stop - (poolRegion area bytes).start - 8 =
    (bytes - 16) / 8 * 8 := by
  have := hr.pos
  unfold poolRegion
  simp only
  omega

theorem regions_apart : ∀ r' ∈ R, (poolRegion area bytes).stop + 8 ≤ r'.start ∨
    r'.stop + 8 ≤ (poolRegion area bytes).start := by
  intro r' hr'
  have := hr.apart r' hr'
  have := hr.large
  have := hr.pos
  unfold poolRegion
  simp only
  omega

/-- The blocks of the pool and their headers are outside of the control structure. -/
theorem pool_away : (poolRegion area bytes).stop + 16 ≤ ctl ∨
    ctl + 6536 ≤ (poolRegion area bytes).start + 8 := by
  have := hr.away
  have := hr.large
  have := hr.pos
  unfold poolRegion
  simp only
  omega

theorem sound (h : Sound ctl R T) :
    Sound ctl (poolRegion area bytes :: R) (extend 8 T (poolRegion area bytes)) := by
  have hsize := hr.size_eq
  have hstart := hr.start_add
  have hlarge := hr.large
  have hpos := hr.pos
  have hsmall := hr.small
  have hend := hr.lt
  have haway := hr.away
  have hal := hr.aligned
  have hstop : (poolRegion area bytes).stop = area + (bytes - 16) / 8 * 8 := rfl
  have hregion : (poolRegion area bytes).start + 8 < (poolRegion area bytes).stop := by omega
  have happart := hr.regions_apart
  have hcases : ∀ {x u}, extend 8 T (poolRegion area bytes) x = some u →
      (x = (poolRegion area bytes).start ∧ u.size = (bytes - 16) / 8 * 8) ∨
      (x = (poolRegion area bytes).stop ∧ u.size = 0) ∨ T x = some u := by
    intro x u hx
    unfold extend at hx
    split at hx
    · obtain rfl := Option.some.inj hx
      exact Or.inl ⟨‹_›, hsize⟩
    · split at hx
      · obtain rfl := Option.some.inj hx
        exact Or.inr (Or.inl ⟨‹_›, rfl⟩)
      · exact Or.inr (Or.inr hx)
  have hlaid := h.laid.extend h.covers (by decide) happart hregion
  refine ⟨hlaid, h.covers.extend (by decide) happart hregion,
    ⟨hlaid.apart, ?_, ?_, ?_, ?_, ?_, h.placed.control⟩, ?_⟩
  any_goals
    intro x u hx
    rcases hcases hx with ⟨rfl, hu⟩ | ⟨rfl, hu⟩ | hx
  all_goals first
    | omega
    | exact h.placed.aligned hx
    | exact h.placed.least hx
    | exact h.placed.small hx
    | exact h.placed.bounds hx
    | exact h.placed.away hx
    | skip
  -- the sizes of the pools
  intro r' hr'
  rcases List.mem_cons.mp hr' with rfl | hr'
  · omega
  · exact h.pools r' hr'

end Room

/-- A pool that is added has no block in use. -/
theorem live_extend {r : Region} (hstart : T r.start = none) (hstop : T r.stop = none) :
    live (extend 8 T r) = live T := by
  funext x
  unfold live status extend
  by_cases hxs : x = r.start
  · rw [if_pos hxs, hxs, hstart]
    simp
  · rw [if_neg hxs]
    by_cases hxe : x = r.stop
    · rw [if_pos hxe, hxe, hstop]
      simp
    · rw [if_neg hxe]

/-- **`tlsf_add_pool`** where there is room for a pool. -/
theorem addPool_spec {area bytes : ℕ} (h : Intact ctl R ∅ ∅ s T) (hr : Room ctl R area bytes) :
    ∃ s', addPool ctl s area bytes = some (s', area) ∧
      Intact ctl (poolRegion area bytes :: R) ∅ ∅ s' (extend 8 T (poolRegion area bytes)) ∧
      live (extend 8 T (poolRegion area bytes)) = live T ∧ Set.EqOn s'.mem s.mem (Used T) := by
  have hlarge := hr.large
  have hsmall := hr.small
  have hlt := hr.lt
  have hpos := hr.pos
  have hal := hr.aligned
  have hsound := hr.sound h.sound
  have happart := hr.regions_apart
  obtain ⟨r, hreg⟩ : ∃ r, r = poolRegion area bytes := ⟨_, rfl⟩
  obtain ⟨p, hp⟩ : ∃ p, p = (bytes - 16) / 8 * 8 := ⟨_, rfl⟩
  have hstart : area - 8 = r.start := by rw [hreg]; rfl
  have hsize : r.stop - r.start - 8 = p := by rw [hreg, hp, hr.size_eq]
  have hstop : r.start + 8 + p = r.stop := by
    have := hr.start_add
    rw [hreg, this, hp]
    rfl
  rw [← hreg] at hsound happart ⊢
  have hbytes : alignDown ((bytes + 2 ^ 64 - 16) % 2 ^ 64) 8 = p := by
    have hmod : (bytes + 2 ^ 64 - 16) % 2 ^ 64 = bytes - 16 := by omega
    rw [alignDown_eight, hmod, hp]
  have hnone : ∀ x, r.start ≤ x → x ≤ r.stop → T x = none := fun x =>
    h.sound.covers.none_of_apart (by decide) happart
  have hlive : live (extend 8 T r) = live T :=
    live_extend (hnone _ le_rfl (by omega)) (hnone _ (by omega) le_rfl)
  -- the heap with the first block only
  obtain ⟨T₁, hT₁⟩ : ∃ T₁, T₁ = Function.update T r.start (some ⟨p, true, false⟩) := ⟨_, rfl⟩
  have hT₂ : extend 8 T r = Function.update T₁ r.stop (some ⟨0, false, true⟩) := by
    rw [extend_eq_update _ _ r (by omega), hsize, hT₁]
  have hblock : T₁ r.start = some ⟨p, true, false⟩ := by rw [hT₁, Function.update_self]
  have hend : T₁ r.stop = none := by
    rw [hT₁, Function.update_of_ne (by omega)]
    exact hnone _ (by omega) le_rfl
  have hP₁ : Placed ctl T₁ := hsound.placed.restrict fun x u hx => by
    have hne : x ≠ r.stop := by
      rintro rfl
      rw [hend] at hx
      cases hx
    rw [hT₂, Function.update_of_ne hne, hx]
  have hold : ∀ {x u}, T x = some u → T₁ x = some u := by
    intro x u hx
    have hne : x ≠ r.start := by
      rintro rfl
      rw [hnone _ le_rfl (by omega)] at hx
      cases hx
    rw [hT₁, Function.update_of_ne hne, hx]
  have hL : Frees T ⊆ Frees T₁ := fun _ ⟨u, hx, hfree⟩ => ⟨u, hold hx, hfree⟩
  have h₁ : Holds T₁ (Frees T) (storeWord s.mem (r.start + 8) (word ⟨p, true, false⟩)) := by
    rw [hT₁] at hP₁ ⊢
    refine (h.holds.define hP₁ (hnone _ le_rfl (by omega))).mono fun x hx => ⟨hx, ?_⟩
    rintro rfl
    obtain ⟨u, hx, -⟩ := hx
    rw [hnone _ le_rfl (by omega)] at hx
    cases hx
  have hlisted₁ : Listed ctl {r.start}
      { s with mem := storeWord s.mem (r.start + 8) (word ⟨p, true, false⟩) } T₁ := by
    refine h.listed.of_status hP₁ (Or.inr rfl) (fun x => ?_)
      (eqOn_storeWord (header_mem_meta hblock))
    by_cases hx : x = r.start
    · -- the first block is on its way into the list
      exact Or.inr ⟨Or.inr (status_ne_of_none (hx ▸ hnone _ le_rfl (by omega))), Or.inl hx⟩
    · refine Or.inl ⟨iff_of_false id hx, ?_⟩
      unfold status
      rw [hT₁, Function.update_of_ne hx]
  obtain ⟨s₂, hins, hlisted₂, h₂, heq₂⟩ :=
    blockInsert_spec hP₁ hlisted₁ h₁ hL hblock rfl (by simp only; omega) rfl
  rw [Set.sdiff_self] at hlisted₂
  -- its link, and the block behind it
  obtain ⟨hlink, h₃⟩ := blockLinkNext_spec hP₁ h₂ hblock (by simp only; omega)
  simp only [hstop] at hlink h₃
  have hP₂ := hsound.placed
  have hmeta : Set.EqOn (storeWord (storeWord s₂.mem r.stop r.start) (r.stop + 8)
      (word ⟨0, false, true⟩)) s₂.mem (Meta (extend 8 T r))ᶜ := by
    have hfirst : extend 8 T r r.start = some ⟨p, true, false⟩ := by
      rw [hT₂, Function.update_of_ne (by omega), hblock]
    have hlast : extend 8 T r r.stop = some ⟨0, false, true⟩ := by rw [hT₂, Function.update_self]
    refine (eqOn_storeWord (header_mem_meta hlast)).trans (eqOn_storeWord fun i hlo hhi => ?_)
    exact link_mem_meta hfirst rfl i (by simp only; omega) (by simp only; omega)
  have h₄ := h₃.define (hT₂ ▸ hP₂) hend
  rw [← hT₂] at h₄
  have hsub : Used T ⊆ Used T₁ := fun _ ⟨x, u, hx, hu⟩ => ⟨x, u, hold hx, hu⟩
  refine ⟨{ s₂ with
    mem := storeWord (storeWord s₂.mem r.stop r.start) (r.stop + 8) (word ⟨0, false, true⟩) },
    ?_, ⟨hsound, h.coalesced.extend, h₄.mono fun x hx => ?_,
    hlisted₂.of_status hP₂ (Or.inr rfl) (fun x => ?_) hmeta⟩, hlive, ?_⟩
  · unfold addPool
    simp only [hbytes, hstart, poolHeader_eq s.mem (show 4 ∣ p by omega) (by omega), hins,
      Option.bind_eq_bind, Option.bind_some, hlink, sentinelHeader_eq]
    rw [if_neg (by omega), if_neg (by omega)]
  · -- the links that are needed: the sentinel is not free
    obtain ⟨u, hx, hfree⟩ := hx
    rw [hT₂] at hx
    obtain ⟨-, rfl⟩ | ⟨hne, hx⟩ := update_some_eq_some.mp hx
    · cases hfree
    · rw [hT₁] at hx
      refine ⟨?_, hne⟩
      obtain ⟨hxs, -⟩ | ⟨-, hx⟩ := update_some_eq_some.mp hx
      · exact Or.inl hxs
      · exact Or.inr ⟨u, hx, hfree⟩
  · by_cases hx : x = r.stop
    · have hlast : extend 8 T r x = some ⟨0, false, true⟩ := by
        rw [hx, hT₂, Function.update_self]
      exact Or.inr ⟨Or.inr (status_ne_of_none (hx ▸ hend)),
        Or.inr (status_ne_of_used hlast rfl)⟩
    · refine Or.inl ⟨Iff.rfl, ?_⟩
      unfold status
      rw [hT₂, Function.update_of_ne hx]
  · have hused := hP₂.used_subset.1
    rw [used_congr hlive] at hused
    exact ((hmeta.mono hused).trans (heq₂.mono (hsub.trans hP₁.used_subset.2))).trans
      ((eqOn_storeWord (header_mem_meta hblock)).mono (hsub.trans hP₁.used_subset.1))

/-- No block of the pool is in use. -/
def Empty (T : Tags) (r : Region) : Prop := ∀ a z, live T a = some z → ¬ (r.start ≤ a ∧ a < r.stop)

theorem live_discard {r : Region} (hfirst : live T r.start = none) (hlast : live T r.stop = none) :
    live (discard T r) = live T := by
  funext x
  by_cases hx : x = r.start ∨ x = r.stop
  · have hnone : live (discard T r) x = none := live_eq_none_of_none (if_pos hx)
    rw [hnone]
    rcases hx with rfl | rfl
    · exact hfirst.symm
    · exact hlast.symm
  · unfold live status BoundaryTags.discard
    rw [if_neg hx]

/-- **`tlsf_remove_pool`** of an empty pool. -/
theorem removePool_spec {r : Region} (h : Intact ctl R ∅ ∅ s T) (hr : r ∈ R) (hempty : Empty T r) :
    ∃ s', removePool ctl s (r.start + 8) = some s' ∧
      Intact ctl (R.filter (· ≠ r)) ∅ ∅ s' (discard T r) ∧ live (discard T r) = live T ∧
      Set.EqOn s'.mem s.mem (Used T) := by
  have hP := h.sound.placed
  obtain ⟨t, ht, hfree, hs, hend⟩ := h.sound.covers.first_next_sentinel h.sound.laid h.coalesced hr
    fun a t ha hlo hhi hsize => by
      by_contra hc
      rw [Bool.not_eq_true] at hc
      exact hempty a t.size (live_eq_some_iff.mpr ⟨hc ▸ status_of ha, hsize⟩) ⟨hlo, hhi⟩
  obtain ⟨n, hn, hzero⟩ := h.sound.covers.sentinel hr
  have hnf := h.sound.laid.last hn hzero
  obtain ⟨fl, sl, hclass⟩ : ∃ fl sl, mappingInsert t.size = (fl, sl) := ⟨_, _, rfl⟩
  obtain ⟨s', hrem, hlisted, heq⟩ := removeFreeBlock_spec hP h.listed
    ⟨Set.notMem_empty r.start, t, ht, hfree, hs, hclass⟩
  have hfirst : live T r.start = none := live_eq_none_of_free (hfree ▸ status_of ht)
  have hlast : live T r.stop = none := by
    unfold live
    rw [status_of hn, hzero]
    simp
  -- the only free block of the pool leaves its list; the sentinel is in none
  have hsub : ∀ x u, discard T r x = some u → T x = some u := fun x u hx => by
    unfold BoundaryTags.discard at hx
    rw [Option.ite_none_left_eq_some] at hx
    exact hx.2
  have hkept : ∀ x, x ≠ r.start → x ≠ r.stop → status (discard T r) x = status T x :=
    fun x h₁ h₂ => by
      unfold status BoundaryTags.discard
      rw [if_neg (not_or.mpr ⟨h₁, h₂⟩)]
  refine ⟨s', ?_, ⟨⟨h.sound.laid.discard h.sound.covers (by decide) hr ht hs hend,
    h.sound.covers.discard h.sound.laid (by decide) hr ht hend, hP.restrict hsub,
    fun r' hr' => h.sound.pools r' (List.mem_filter.mp hr').1⟩, h.coalesced.discard, ?_, ?_⟩,
    live_discard hfirst hlast, heq.mono hP.used_subset.2⟩
  · have hnext : blockNext s.mem r.start = some r.stop := by
      rw [blockNext_of_holds hP h.holds ht hs, hend]
    unfold removePool
    simp only [Nat.add_sub_cancel, blockIsFree_eq (h.holds.tag ht) (hP.four_dvd ht), hfree, hnext,
      Option.bind_eq_bind, Option.bind_some, blockIsFree_eq (h.holds.tag hn) (hP.four_dvd hn), hnf,
      blockSize_eq (h.holds.tag hn) (hP.four_dvd hn), hzero,
      blockSize_eq (h.holds.tag ht) (hP.four_dvd ht), hclass]
    simpa using hrem
  · refine ((h.holds.congr subset_rfl fun i hi => heq ?_).restrict hsub).mono ?_
    · exact Set.disjoint_left.mp hP.fields_disjoint (Or.inr hi)
    · rintro x ⟨u, hx, hu⟩
      exact ⟨u, hsub x u hx, hu⟩
  · refine hlisted.of_status hP (Or.inl rfl) (fun x => ?_) (Set.eqOn_refl _ _)
    by_cases hx : x = r.start
    · exact Or.inr ⟨Or.inl (Or.inl hx), Or.inr (status_ne_of_none (if_pos (Or.inl hx)))⟩
    · by_cases hx' : x = r.stop
      · -- the sentinel was in no list
        exact Or.inr ⟨Or.inr (hx' ▸ status_ne_of_used hn hnf),
          Or.inr (status_ne_of_none (if_pos (Or.inr hx')))⟩
      · exact Or.inl ⟨iff_of_false (fun hc => hc.elim hx id) id, hkept x hx hx'⟩

/-- With a block in use, an assertion fails. -/
theorem removePool_eq_none {r : Region} (h : Intact ctl R ∅ ∅ s T) (hr : r ∈ R)
    (hused : ¬ Empty T r) : removePool ctl s (r.start + 8) = none := by
  have hP := h.sound.placed
  have hC := h.sound.covers
  obtain ⟨t, ht, hs, -⟩ := hC.first hr
  unfold removePool
  simp only [Nat.add_sub_cancel, blockIsFree_eq (h.holds.tag ht) (hP.four_dvd ht)]
  cases hfree : t.free with
  | false => rw [if_pos (by simp)]
  | true =>
    obtain ⟨n, hn, -⟩ := h.sound.laid.next ht hs
    have hnf := h.coalesced.next_used h.sound.laid ht hfree hn
    have hns : n.size ≠ 0 := by
      -- otherwise the first block fills the pool
      intro hzero
      obtain ⟨r', hr', hlo', hhi', -⟩ := hC.inside ht
      have hstop' := hhi' hs
      have hlt := hC.lt hr
      obtain rfl := hC.region_inj (a := r.start) hr hr' le_rfl hlt.le hlo' (by omega) (by decide)
      obtain ⟨r', hr', hlo', -, hlast⟩ := hC.inside hn
      have hend := hlast hzero
      obtain rfl := hC.region_inj (a := r.start + 8 + t.size) hr hr' (by omega) hstop' hlo'
        hend.le (by decide)
      refine hused fun a z ha hin => ?_
      obtain ⟨u, hu, he⟩ := Option.map_eq_some_iff.mp (live_eq_some_iff.mp ha).1
      by_cases hfirst : a = r.start
      · rw [hfirst] at hu
        obtain rfl := Option.some.inj (hu.symm.trans ht)
        rw [hfree] at he
        cases he
      · rw [h.sound.laid.none_between ht (by omega) (by omega)] at hu
        cases hu
    simp only [blockNext_of_holds hP h.holds ht hs, Option.bind_eq_bind, Option.bind_some,
      blockSize_eq (h.holds.tag hn) (hP.four_dvd hn)]
    rw [if_neg (by simp), if_pos (Or.inr hns)]

/-! ### Creation -/

/-- **`tlsf_create_with_pool`.** -/
theorem createWithPool_spec {area bytes : ℕ} (mem : ByteMemory.Memory) (h8 : 8 ∣ area)
    (hpos : 0 < area) (hlo : 6576 ≤ bytes) (hhi : bytes < 2 ^ 32 + 6552)
    (hend : area + bytes ≤ 2 ^ 64) :
    ∃ s' T', createWithPool mem area bytes = some s' ∧
      Intact area [poolRegion (getPool area) (bytes - 6536)] ∅ ∅ s' T' ∧
      live T' = fun _ => none := by
  have hnone : ∀ {t : Tag} {P : Prop}, (none : Option Tag) = some t → P := fun hc => by
    cases hc
  have h₀ : Intact area [] ∅ ∅ (controlConstruct area mem) fun _ => none := by
    refine ⟨⟨⟨hnone, hnone, hnone, hnone⟩, ⟨hnone, fun h => ?_, fun h => ?_, fun h => ?_,
      fun h => ?_⟩, ⟨hnone, hnone, hnone, hnone, hnone, hnone, hpos, h8, by omega⟩, fun _ h => ?_⟩,
      fun _ _ h => hnone h, ⟨hnone, fun _ h => hnone h⟩, controlConstruct_listed mem⟩
    all_goals cases h
  have hroom : Room area [] (area + 6536) (bytes - 6536) :=
    ⟨by omega, by omega, by omega, by omega, by omega, Or.inr le_rfl, fun _ h => by cases h⟩
  obtain ⟨s', hadd, h', hlive, -⟩ := addPool_spec h₀ hroom
  refine ⟨s', _, ?_, h', hlive.trans (funext fun x => live_eq_none_of_none rfl)⟩
  have hmod : (bytes + 2 ^ 64 - 6536) % 2 ^ 64 = bytes - 6536 := by omega
  unfold createWithPool
  rw [if_neg (by omega), hmod]
  simp only [hadd, Option.bind_eq_bind, Option.bind_some]

end Tjost.TwoLevel
