import Tjost.Memory.FreeLists

/-!
# Merging and trimming of blocks

The functions of `tlsf.c` between its entry points and its lists: a block that is freed is merged
with the free ones in front of it and behind it, and the end of a block that is not needed becomes a
block of its own. An assertion that fails, and a lookup outside of a table, is `none`.

`Intact` is the invariant of the allocator: the blocks fill their pools (`Sound`), no two free ones
follow each other, the memory has their headers and links, and the free lists have the free blocks.
Inside of a call there are exceptions, a set for the lists and one for the merging.

What a caller can know of the heap is where its blocks are: `live`. Merging and trimming of free
blocks do not change it, and do not write a byte of these blocks (`blockMergePrev_spec`,
`blockMergeNext_spec`, `blockTrimFree_spec`).
-/

namespace Tjost.TwoLevel

open ByteMemory BoundaryTags

variable (ctl : ℕ)

/-! ### The functions -/

/-- `block_merge_prev`. -/
def blockMergePrev (s : Control) (block : ℕ) : Option (Control × ℕ) :=
  if blockIsPrevFree s.mem block then
    let prev := blockPrev s.mem block
    if prev = 0 ∨ ¬ blockIsFree s.mem prev then none
    else do
      let s ← blockRemove ctl s prev
      let (mem, block) ← blockAbsorb s.mem prev block
      some ({ s with mem }, block)
  else some (s, block)

/-- `block_merge_next`. -/
def blockMergeNext (s : Control) (block : ℕ) : Option (Control × ℕ) := do
  let next ← blockNext s.mem block
  if next = 0 then none
  else if blockIsFree s.mem next then
    if blockIsLast s.mem block then none
    else do
      let s ← blockRemove ctl s next
      let (mem, block) ← blockAbsorb s.mem block next
      some ({ s with mem }, block)
  else some (s, block)

/-- `block_trim_free`. -/
def blockTrimFree (s : Control) (block size : ℕ) : Option Control :=
  if ¬ blockIsFree s.mem block then none
  else if blockCanSplit s.mem block size then do
    let (mem, remaining) ← blockSplit s.mem block size
    let (mem, _) ← blockLinkNext mem block
    let mem := blockSetPrevFree mem remaining
    blockInsert ctl { s with mem } remaining
  else some s

/-- `block_trim_used`. -/
def blockTrimUsed (s : Control) (block size : ℕ) : Option Control :=
  if blockIsFree s.mem block then none
  else if blockCanSplit s.mem block size then do
    -- the next block may be free, too
    let (mem, remaining) ← blockSplit s.mem block size
    let mem := blockSetPrevUsed mem remaining
    let (s, remaining) ← blockMergeNext ctl { s with mem } remaining
    blockInsert ctl s remaining
  else some s

/-! ### Sound heaps -/

/-- The blocks fill the pools, which are not too large for the size classes. -/
structure Sound (R : List Region) (T : Tags) : Prop where
  laid : Laid 8 T
  covers : Covers 8 R T
  placed : Placed ctl T
  pools : ∀ r ∈ R, r.stop - r.start - 8 < 2 ^ 32

/-- **The invariant**, with the blocks in `D` out of their lists, and the ones in `S` possibly not
merged with the block in front of them. -/
structure Intact (R : List Region) (D S : Set ℕ) (s : Control) (T : Tags) : Prop where
  sound : Sound ctl R T
  coalesced : Coalesced S T
  holds : Holds T (Frees T) s.mem
  listed : Listed ctl D s T

/-- The size of a block, and whether it is free. -/
def status (T : Tags) (x : ℕ) : Option (ℕ × Bool) := (T x).map fun t => (t.size, t.free)

/-- The blocks in use, with their sizes. -/
def live (T : Tags) (x : ℕ) : Option ℕ :=
  (status T x).bind fun p => if p.2 = true ∨ p.1 = 0 then none else some p.1

variable {ctl}
variable {R : List Region} {D D' S : Set ℕ} {s s' : Control} {T T' : Tags} {mem : ByteMemory.Memory}
  {a b x z k i fl sl : ℕ} {t n m : Tag} {f : Bool}

/-! ### The blocks in use -/

theorem status_of (ha : T a = some t) : status T a = some (t.size, t.free) := by
  unfold status
  rw [ha]
  rfl

theorem live_eq_some_iff : live T a = some z ↔ status T a = some (z, false) ∧ z ≠ 0 := by
  unfold live
  rcases hT : status T a with _ | ⟨size, free⟩
  · simp
  · cases free
    · by_cases hz : size = 0 <;> simp [hz]
      · rintro rfl
        rfl
      · rintro rfl
        exact hz
    · simp

theorem live_eq_none_of_free (h : status T a = some (z, true)) : live T a = none := by
  unfold live
  rw [h]
  simp

theorem live_eq_none_of_status (h : status T a = none) : live T a = none := by
  unfold live
  rw [h]
  rfl

theorem live_eq_none_of_none (h : T a = none) : live T a = none :=
  live_eq_none_of_status (congrArg (Option.map _) h)

theorem live_congr (h : status T' a = status T a) : live T' a = live T a :=
  congrArg (Option.bind · _) h

theorem status_ne_of_none (h : T a = none) (z : ℕ) : status T a ≠ some (z, true) := by
  unfold status
  rw [h]
  exact nofun

theorem status_ne_of_used (ha : T a = some t) (hused : t.free = false) (z : ℕ) :
    status T a ≠ some (z, true) := by
  rw [status_of ha, hused]
  exact nofun

theorem indexed_iff : Indexed T D fl sl a ↔
    a ∉ D ∧ ∃ z, status T a = some (z, true) ∧ z ≠ 0 ∧ mappingInsert z = (fl, sl) := by
  refine and_congr_right fun _ => ?_
  unfold status
  cases hT : T a with
  | none => simp
  | some t =>
    simp only [Option.map_some, Option.some.injEq, Prod.mk.injEq, exists_eq_left']
    constructor
    · rintro ⟨hfree, hs, hclass⟩
      exact ⟨t.size, ⟨rfl, hfree⟩, hs, hclass⟩
    · rintro ⟨z, ⟨rfl, hfree⟩, hs, hclass⟩
      exact ⟨hfree, hs, hclass⟩

theorem mem_frees_iff : a ∈ Frees T ↔ ∃ z, status T a = some (z, true) := by
  unfold status
  constructor
  · rintro ⟨t, ha, hfree⟩
    exact ⟨t.size, by rw [ha, ← hfree]; rfl⟩
  · rintro ⟨z, hz⟩
    obtain ⟨t, ha, he⟩ := Option.map_eq_some_iff.mp hz
    exact ⟨t, ha, (Prod.mk.inj he).2⟩

/-- The bytes of the blocks with the given sizes. -/
def bytes (sizes : ℕ → Option ℕ) : Set ℕ :=
  {i | ∃ a z, sizes a = some z ∧ a + 16 ≤ i ∧ i < a + 16 + z}

theorem used_eq_bytes (T : Tags) : Used T = bytes (live T) := by
  ext i
  constructor
  · rintro ⟨a, t, ha, hused, hlo, hhi⟩
    exact ⟨a, t.size, live_eq_some_iff.mpr ⟨hused ▸ status_of ha, by omega⟩, hlo, hhi⟩
  · rintro ⟨a, z, ha, hlo, hhi⟩
    obtain ⟨hstatus, -⟩ := live_eq_some_iff.mp ha
    obtain ⟨t, ht, he⟩ := Option.map_eq_some_iff.mp hstatus
    obtain ⟨rfl, hused⟩ := Prod.mk.inj he
    exact ⟨a, t, ht, hused, hlo, hhi⟩

theorem used_congr (h : live T' = live T) : Used T' = Used T := by
  rw [used_eq_bytes, used_eq_bytes, h]

/-- Two blocks in use. -/
theorem Placed.live_apart {c y : ℕ} (hP : Placed ctl T) (hne : a ≠ c) (ha : live T a = some z)
    (hc : live T c = some y) : a + 8 + z ≤ c ∨ c + 8 + y ≤ a := by
  obtain ⟨t, ht, he⟩ := Option.map_eq_some_iff.mp (live_eq_some_iff.mp ha).1
  obtain ⟨u, hu, he'⟩ := Option.map_eq_some_iff.mp (live_eq_some_iff.mp hc).1
  obtain ⟨rfl, -⟩ := Prod.mk.inj he
  obtain ⟨rfl, -⟩ := Prod.mk.inj he'
  rcases Nat.lt_or_gt_of_ne hne with hlt | hlt
  · exact Or.inl (hP.apart ht hu hlt)
  · exact Or.inr (hP.apart hu ht hlt)

/-- A byte of one block is not in another one. -/
theorem Placed.byte_inj {c y : ℕ} (hP : Placed ctl T) (ha : live T a = some z)
    (hc : live T c = some y) (hlo : a + 16 ≤ i) (hhi : i < a + 16 + z) (hlo' : c + 16 ≤ i)
    (hhi' : i < c + 16 + y) : a = c := by
  by_contra hne
  have := hP.live_apart hne ha hc
  omega

/-! ### What the operations do to a block -/

theorem status_mark (hn : T (a + 8 + t.size) = some n) (x : ℕ) :
    status (mark 8 T a t n f) x = if x = a then some (t.size, f) else status T x := by
  unfold status mark
  by_cases hxa : x = a
  · rw [if_pos hxa, if_pos hxa]
    rfl
  · rw [if_neg hxa, if_neg hxa]
    by_cases hxn : x = a + 8 + t.size
    · rw [if_pos hxn, hxn, hn]
      rfl
    · rw [if_neg hxn]

theorem status_cut (hn : T (a + 8 + t.size) = some n) (x : ℕ) :
    status (cut 8 T a t n z f) x = if x = a then some (z, t.free)
      else if x = a + 8 + z then some (t.size - z - 8, f) else status T x := by
  unfold status cut
  by_cases hxa : x = a
  · rw [if_pos hxa, if_pos hxa]
    rfl
  · rw [if_neg hxa, if_neg hxa]
    by_cases hxz : x = a + 8 + z
    · rw [if_pos hxz, if_pos hxz]
      rfl
    · rw [if_neg hxz, if_neg hxz]
      by_cases hxn : x = a + 8 + t.size
      · rw [if_pos hxn, hxn, hn]
        rfl
      · rw [if_neg hxn]

theorem status_join (hm : T (a + 8 + t.size + 8 + n.size) = some m) (x : ℕ) :
    status (join 8 T a t n m) x = if x = a then some (t.size + 8 + n.size, t.free)
      else if x = a + 8 + t.size then none else status T x := by
  unfold status join
  by_cases hxa : x = a
  · rw [if_pos hxa, if_pos hxa]
    rfl
  · rw [if_neg hxa, if_neg hxa]
    by_cases hxn : x = a + 8 + t.size
    · rw [if_pos hxn, if_pos hxn]
      rfl
    · rw [if_neg hxn, if_neg hxn]
      by_cases hxm : x = a + 8 + t.size + 8 + n.size
      · rw [if_pos hxm, hxm, hm]
        rfl
      · rw [if_neg hxm]

namespace Sound

variable (h : Sound ctl R T) (ha : T a = some t) (hs : t.size ≠ 0)
include h ha hs

variable (hn : T (a + 8 + t.size) = some n)
include hn

theorem mark : Sound ctl R (mark 8 T a t n f) := by
  refine ⟨h.laid.mark (by decide) ha hs hn, h.covers.mark (by decide) ha hs hn, ?_, h.pools⟩
  have ha' : Function.update T (a + 8 + t.size) (some { n with prevFree := f }) a = some t := by
    rw [Function.update_of_ne (by omega), ha]
  rw [mark_eq_update]
  exact (h.placed.retag { n with prevFree := f } hn rfl).retag { t with free := f } ha' rfl

omit hs in
theorem cut (h8 : 8 ∣ z) (hz : 24 ≤ z) (hrest : z + 32 ≤ t.size) :
    Sound ctl R (cut 8 T a t n z true) where
  laid := h.laid.cut (by decide) ha hn (by omega) (by omega)
  covers := h.covers.cut h.laid (by decide) ha hn (by omega) (by omega)
  placed := h.placed.cut ha hn h8 hz hrest
  pools := h.pools

variable (hns : n.size ≠ 0) (hm : T (a + 8 + t.size + 8 + n.size) = some m)
include hns hm

/-- Two blocks are not larger than their pool. -/
theorem join_lt : t.size + 8 + n.size < 2 ^ 32 := by
  have hcovers := h.covers.join (by decide) ha hs hn hns hm
  have hhead : BoundaryTags.join 8 T a t n m a =
      some { t with size := t.size + 8 + n.size } := if_pos rfl
  obtain ⟨r, hr, hlo, hhi, -⟩ := hcovers.inside hhead
  have hstop := hhi (by simp only; omega)
  have hpool := h.pools r hr
  simp only at hstop
  omega

theorem join : Sound ctl R (join 8 T a t n m) := by
  have hlt := h.join_lt ha hs hn hns hm
  refine ⟨h.laid.join (by decide) ha hs hn hns hm, h.covers.join (by decide) ha hs hn hns hm, ?_,
    h.pools⟩
  have hmerged : merged T a t n (a + 8 + t.size + 8 + n.size) = some m := by
    unfold merged
    rw [if_neg (by omega), if_neg (by omega), hm]
  rw [join_eq_update]
  exact (h.placed.merged ha hs hn hlt).retag _ hmerged rfl

end Sound

/-! ### Writes of the callers -/

/-- **The callers may write what they like** into their blocks. -/
theorem Intact.write (h : Intact ctl R D S s T) (mem : ByteMemory.Memory)
    (hmem : Set.EqOn mem s.mem (Used T)ᶜ) :
    Intact ctl R D S { s with mem } T := by
  have hP := h.sound.placed
  refine ⟨h.sound, h.coalesced, h.holds.congr subset_rfl fun i hi => hmem ?_,
    h.listed.write fun i hi => hmem ?_⟩
  · exact Set.disjoint_right.mp hP.used_disjoint_meta hi
  · exact fun hu => Set.disjoint_right.mp hP.fields_disjoint hi (Or.inl hu)

/-! ### In and out of the lists -/

/-- All that a block in use does not see. -/
theorem Placed.used_subset (hP : Placed ctl T) :
    Used T ⊆ (Meta T)ᶜ ∧ Used T ⊆ (Fields ctl T)ᶜ :=
  ⟨fun _ hi hmem => Set.disjoint_left.mp hP.used_disjoint_meta hi hmem,
    fun _ hi hmem => Set.disjoint_left.mp hP.fields_disjoint (Or.inl hi) hmem⟩

/-- The lists when the headers and links change, by the sizes and states. -/
theorem Listed.of_status {X : Tags} (h : Listed ctl D s T) (hP : Placed ctl X)
    (hX : X = T ∨ X = T')
    (hstatus : ∀ x, (x ∈ D ↔ x ∈ D') ∧ status T' x = status T x ∨
      (x ∈ D ∨ ∀ z, status T x ≠ some (z, true)) ∧ (x ∈ D' ∨ ∀ z, status T' x ≠ some (z, true)))
    (hmem : Set.EqOn mem s.mem (Meta X)ᶜ) : Listed ctl D' { s with mem } T' := by
  have hiff : ∀ fl sl x, Indexed T' D' fl sl x ↔ Indexed T D fl sl x := by
    intro fl sl x
    rw [indexed_iff, indexed_iff]
    rcases hstatus x with ⟨hD, hsame⟩ | ⟨hout, hout'⟩
    · rw [hD, hsame]
    · refine iff_of_false ?_ ?_
      · rintro ⟨hmem', z, hz, -⟩
        exact hout'.elim hmem' fun hne => hne z hz
      · rintro ⟨hmem', z, hz, -⟩
        exact hout.elim hmem' fun hne => hne z hz
  refine h.congr hP hiff (fun fl sl x hx => ?_) hmem
  rcases hX with rfl | rfl
  · obtain ⟨-, u, hu, -, hs, -⟩ := hx
    exact ⟨u, hu, hs⟩
  · obtain ⟨-, u, hu, -, hs, -⟩ := (hiff fl sl x).mpr hx
    exact ⟨u, hu, hs⟩

namespace Intact

variable (h : Intact ctl R D S s T) (ha : T a = some t) (hfree : t.free = true)
include h ha hfree

/-- A free block is taken out of its list. -/
theorem delist (hD : a ∉ D) : ∃ s', blockRemove ctl s a = some s' ∧
    Intact ctl R (insert a D) S s' T ∧ Set.EqOn s'.mem s.mem (Used T) := by
  obtain ⟨s', hrem, hlisted, hholds, heq⟩ := blockRemove_spec h.sound.placed h.listed h.holds
    subset_rfl ha hfree (h.sound.laid.size_ne_zero ha hfree) hD
  exact ⟨s', hrem, ⟨h.sound, h.coalesced, hholds, hlisted⟩,
    heq.mono h.sound.placed.used_subset.2⟩

/-- A free block is put into its list. -/
theorem enlist (hD : a ∈ D) : ∃ s', blockInsert ctl s a = some s' ∧
    Intact ctl R (D \ {a}) S s' T ∧ Set.EqOn s'.mem s.mem (Used T) := by
  obtain ⟨s', hins, hlisted, hholds, heq⟩ := blockInsert_spec h.sound.placed h.listed h.holds
    subset_rfl ha hfree (h.sound.laid.size_ne_zero ha hfree) hD
  exact ⟨s', hins, ⟨h.sound, h.coalesced, hholds, hlisted⟩,
    heq.mono h.sound.placed.used_subset.2⟩

/-- **Two free blocks are merged**, which are both out of their lists. -/
theorem absorb (hn : T (a + 8 + t.size) = some n) (hnf : n.free = true) (haD : a ∈ D)
    (hnD : a + 8 + t.size ∈ D) : ∃ mem' t' T',
    blockAbsorb s.mem a (a + 8 + t.size) = some (mem', a) ∧
    Intact ctl R (D \ {a + 8 + t.size}) (S \ {a + 8 + t.size}) { s with mem := mem' } T' ∧
    T' a = some t' ∧ t'.free = true ∧
    a + 8 + t'.size = a + 8 + t.size + 8 + n.size ∧
    live T' = live T ∧ Set.EqOn mem' s.mem (Used T) := by
  have hs := h.sound.laid.size_ne_zero ha hfree
  have hns := h.sound.laid.size_ne_zero hn hnf
  obtain ⟨m, hm, hmp⟩ := h.sound.laid.next hn hns
  have hlt := h.sound.join_lt ha hs hn hns hm
  obtain ⟨mem', habsorb, hholds, heq⟩ :=
    blockAbsorb_spec h.sound.placed h.holds ha hs hn hnf hlt
  rw [merged_eq_join hm (by rw [hmp, hnf, hfree])] at hholds
  have hstatus := status_join (T := T) (a := a) (t := t) hm
  have hlive : live (join 8 T a t n m) = live T := by
    funext x
    have hx := hstatus x
    by_cases hxa : x = a
    · rw [if_pos hxa, hfree] at hx
      rw [live_eq_none_of_free hx, hxa, live_eq_none_of_free (hfree ▸ status_of ha)]
    · rw [if_neg hxa] at hx
      by_cases hxn : x = a + 8 + t.size
      · rw [if_pos hxn] at hx
        rw [live_eq_none_of_status hx, hxn, live_eq_none_of_free (hnf ▸ status_of hn)]
      · rw [if_neg hxn] at hx
        exact live_congr hx
  refine ⟨mem', { t with size := t.size + 8 + n.size }, join 8 T a t n m, habsorb,
    ⟨h.sound.join ha hs hn hns hm,
      h.coalesced.join h.sound.laid (by decide) ha hn hns hnf hm, hholds.mono ?_, ?_⟩,
    if_pos rfl, hfree, by simp only; omega, hlive, heq.mono h.sound.placed.used_subset.1⟩
  · intro x hx
    obtain ⟨z, hz⟩ := mem_frees_iff.mp hx
    rw [hstatus] at hz
    by_cases hxa : x = a
    · exact Or.inl hxa
    · rw [if_neg hxa] at hz
      split at hz
      · cases hz
      · exact Or.inr ⟨mem_frees_iff.mpr ⟨z, hz⟩, hxa⟩
  · refine h.listed.of_status h.sound.placed (Or.inl rfl) (fun x => ?_) heq
    rw [hstatus]
    by_cases hxa : x = a
    · exact Or.inr ⟨Or.inl (hxa ▸ haD), Or.inl ⟨hxa ▸ haD, by rw [hxa]; simp; omega⟩⟩
    · by_cases hxn : x = a + 8 + t.size
      · refine Or.inr ⟨Or.inl (hxn ▸ hnD), Or.inr fun z => ?_⟩
        rw [if_neg hxa, if_pos hxn]
        exact fun hc => by cases hc
      · rw [if_neg hxa, if_neg hxn]
        exact Or.inl ⟨⟨fun hx => ⟨hx, hxn⟩, And.left⟩, rfl⟩

end Intact

/-! ### Merging -/

/-- **`block_merge_prev`.** Afterwards the block is not behind a free one. -/
theorem blockMergePrev_spec (h : Intact ctl R {a} {a, a + 8 + t.size} s T) (ha : T a = some t)
    (hfree : t.free = true) : ∃ s' a' t' T', blockMergePrev ctl s a = some (s', a') ∧
      Intact ctl R {a'} {a + 8 + t.size} s' T' ∧ T' a' = some t' ∧ t'.free = true ∧
      a' + 8 + t'.size = a + 8 + t.size ∧ live T' = live T ∧ Set.EqOn s'.mem s.mem (Used T) := by
  have hP := h.sound.placed
  have hne : a ≠ a + 8 + t.size := by omega
  unfold blockMergePrev
  rw [blockIsPrevFree_eq (h.holds.tag ha) (hP.four_dvd ha)]
  cases hprev : t.prevFree with
  | false =>
    -- nothing to merge, and so no exception at `a`
    refine ⟨s, a, t, T, rfl, ⟨h.sound, h.coalesced.of_exceptions fun x t' hx hx' hxt _ => ?_,
      h.holds, h.listed⟩, ha, hfree, rfl, rfl, Set.eqOn_refl _ _⟩
    obtain rfl : x = a := hx.resolve_right hx'
    obtain rfl := Option.some.inj (ha.symm.trans hxt)
    exact hprev
  | true =>
    obtain ⟨p, u, hp, huf, hus, rfl⟩ := h.sound.laid.prev ha hprev
    have hpos := (hP.bounds hp).1
    -- the link in front of the header is valid, since the block behind it is free
    have hlink : blockPrev s.mem (p + 8 + u.size) = p :=
      h.holds.link ⟨u, hp, huf⟩ hp hus
    obtain ⟨s₁, hrem, h₁, heq₁⟩ := h.delist hp huf (by simp only [Set.mem_singleton_iff]; omega)
    obtain ⟨mem', t', T', habs, h₂, ht', hft', hend, hlive, heq₂⟩ :=
      h₁.absorb hp huf ha hfree (Set.mem_insert _ _) (Set.mem_insert_of_mem _ rfl)
    -- what is left of the exceptions: the joined block, and the one behind it
    have hD : insert p {p + 8 + u.size} \ {p + 8 + u.size} = ({p} : Set ℕ) := by
      ext x
      simp only [Set.mem_sdiff, Set.mem_insert_iff, Set.mem_singleton_iff]
      omega
    have hS : ({p + 8 + u.size, p + 8 + u.size + 8 + t.size} : Set ℕ) \ {p + 8 + u.size} =
        {p + 8 + u.size + 8 + t.size} := by
      ext x
      simp only [Set.mem_sdiff, Set.mem_insert_iff, Set.mem_singleton_iff]
      omega
    rw [hD, hS] at h₂
    refine ⟨{ s₁ with mem := mem' }, p, t', T', ?_, h₂, ht', hft', hend, hlive, heq₂.trans heq₁⟩
    have hfree' : blockIsFree s.mem p = true := by
      rw [blockIsFree_eq (h.holds.tag hp) (hP.four_dvd hp), huf]
    simp only [hlink, hfree', if_true]
    rw [if_neg (by simp; omega), hrem]
    simp only [Option.bind_eq_bind, Option.bind_some, habs]

/-- **`block_merge_next`** of a free block. Afterwards it is not in front of a free one. -/
theorem blockMergeNext_spec (h : Intact ctl R {a} {a + 8 + t.size} s T) (ha : T a = some t)
    (hfree : t.free = true) : ∃ s' t' T', blockMergeNext ctl s a = some (s', a) ∧
      Intact ctl R {a} ∅ s' T' ∧ T' a = some t' ∧ t'.free = true ∧ live T' = live T ∧
      Set.EqOn s'.mem s.mem (Used T) := by
  have hP := h.sound.placed
  have hs := h.sound.laid.size_ne_zero ha hfree
  obtain ⟨n, hn, -⟩ := h.sound.laid.next ha hs
  have hguard : ¬ a + 8 + t.size = 0 := by omega
  unfold blockMergeNext
  rw [blockNext_of_holds hP h.holds ha hs]
  simp only [Option.bind_eq_bind, Option.bind_some, if_neg hguard,
    blockIsFree_eq (h.holds.tag hn) (hP.four_dvd hn),
    blockIsLast_eq (h.holds.tag ha) (hP.four_dvd ha)]
  cases hnf : n.free with
  | false =>
    -- the block behind is in use, and so no exception
    refine ⟨s, t, T, rfl, ⟨h.sound, h.coalesced.of_exceptions fun x t' hx _ hxt hft' => ?_,
      h.holds, h.listed⟩, ha, hfree, rfl, Set.eqOn_refl _ _⟩
    obtain rfl : x = a + 8 + t.size := hx
    obtain rfl := Option.some.inj (hn.symm.trans hxt)
    rw [hnf] at hft'
    cases hft'
  | true =>
    obtain ⟨s₁, hrem, h₁, heq₁⟩ := h.delist hn hnf (by simp only [Set.mem_singleton_iff]; omega)
    obtain ⟨mem', t', T', habs, h₂, ht', hft', -, hlive, heq₂⟩ :=
      h₁.absorb ha hfree hn hnf (Set.mem_insert_of_mem _ rfl) (Set.mem_insert _ _)
    have hD : insert (a + 8 + t.size) {a} \ {a + 8 + t.size} = ({a} : Set ℕ) := by
      ext x
      simp only [Set.mem_sdiff, Set.mem_insert_iff, Set.mem_singleton_iff]
      omega
    rw [hD, Set.sdiff_self] at h₂
    refine ⟨{ s₁ with mem := mem' }, t', T', ?_, h₂, ht', hft', hlive, heq₂.trans heq₁⟩
    rw [if_pos rfl, if_neg (by simpa using hs), hrem]
    simp only [Option.bind_some, habs]

/-! ### Into use and out of it -/

/-- **`block_mark_as_used`** of a block that has left its list. -/
theorem blockMarkAsUsed_intact (h : Intact ctl R {a} {a + 8 + t.size} s T) (ha : T a = some t)
    (hfree : t.free = true) : ∃ mem' T', blockMarkAsUsed s.mem a = some mem' ∧
      Intact ctl R ∅ ∅ { s with mem := mem' } T' ∧
      live T' = Function.update (live T) a (some t.size) ∧ Set.EqOn mem' s.mem (Used T) := by
  have hs := h.sound.laid.size_ne_zero ha hfree
  obtain ⟨n, hn, -⟩ := h.sound.laid.next ha hs
  obtain ⟨mem', hmark, hholds, heq⟩ := blockMarkAsUsed_spec h.sound.placed h.holds ha hs hn
  have hstatus := status_mark (T := T) (a := a) (t := t) (f := false) hn
  have hS : ({a + 8 + t.size} : Set ℕ) \ {a, a + 8 + t.size} = ∅ := by
    ext x
    simp only [Set.mem_sdiff, Set.mem_insert_iff, Set.mem_singleton_iff, Set.mem_empty_iff_false]
    tauto
  have hcoalesced := h.coalesced.mark_used (w := 8) (a := a) (t := t) (n := n)
  rw [hS] at hcoalesced
  refine ⟨mem', mark 8 T a t n false, hmark, ⟨h.sound.mark ha hs hn, hcoalesced,
    hholds.mono fun x hx => ?_, h.listed.of_status h.sound.placed (Or.inl rfl) (fun x => ?_) heq⟩,
    ?_, heq.mono h.sound.placed.used_subset.1⟩
  · obtain ⟨z, hz⟩ := mem_frees_iff.mp hx
    rw [hstatus] at hz
    split at hz
    · cases hz
    · exact mem_frees_iff.mpr ⟨z, hz⟩
  · rw [hstatus]
    by_cases hxa : x = a
    · rw [if_pos hxa]
      exact Or.inr ⟨Or.inl hxa, Or.inr fun z hc => by cases hc⟩
    · rw [if_neg hxa]
      exact Or.inl ⟨iff_of_false hxa id, rfl⟩
  · funext x
    by_cases hxa : x = a
    · have hx := hstatus x
      rw [if_pos hxa] at hx
      rw [hxa, Function.update_self]
      exact live_eq_some_iff.mpr ⟨hxa ▸ hx, hs⟩
    · have hx := hstatus x
      rw [if_neg hxa] at hx
      rw [Function.update_of_ne hxa]
      exact live_congr hx

/-- **`block_mark_as_free`** of a block in use. -/
theorem blockMarkAsFree_intact (h : Intact ctl R ∅ ∅ s T) (ha : T a = some t)
    (hused : t.free = false) (hs : t.size ≠ 0) : ∃ mem' T', blockMarkAsFree s.mem a = some mem' ∧
      Intact ctl R {a} {a, a + 8 + t.size} { s with mem := mem' } T' ∧
      T' a = some { t with free := true } ∧
      live T' = Function.update (live T) a none ∧ Set.EqOn mem' s.mem (Used T') := by
  obtain ⟨n, hn, -⟩ := h.sound.laid.next ha hs
  obtain ⟨mem', hmark, hholds, heq⟩ := blockMarkAsFree_spec h.sound.placed h.holds ha hs hn
  have hsound := h.sound.mark (f := true) ha hs hn
  have hstatus := status_mark (T := T) (a := a) (t := t) (f := true) hn
  refine ⟨mem', mark 8 T a t n true, hmark, ⟨hsound,
    (h.coalesced.mark_free (w := 8) (a := a) (t := t) (n := n)).of_exceptions fun x u hx hx' => ?_,
    hholds.mono fun x hx => ?_, h.listed.of_status hsound.placed (Or.inr rfl) (fun x => ?_) heq⟩,
    if_pos rfl, ?_, heq.mono hsound.placed.used_subset.1⟩
  · simp only [Set.mem_insert_iff, Set.mem_singleton_iff, Set.mem_empty_iff_false,
      or_false] at hx hx'
    exact absurd hx hx'
  · obtain ⟨z, hz⟩ := mem_frees_iff.mp hx
    rw [hstatus] at hz
    by_cases hxa : x = a
    · exact Or.inl hxa
    · rw [if_neg hxa] at hz
      exact Or.inr (mem_frees_iff.mpr ⟨z, hz⟩)
  · rw [hstatus]
    by_cases hxa : x = a
    · exact Or.inr ⟨Or.inr (hxa ▸ status_ne_of_used ha hused), Or.inl hxa⟩
    · rw [if_neg hxa]
      exact Or.inl ⟨iff_of_false id hxa, rfl⟩
  · funext x
    have hx := hstatus x
    by_cases hxa : x = a
    · rw [if_pos hxa] at hx
      rw [live_eq_none_of_free hx, hxa, Function.update_self]
    · rw [if_neg hxa] at hx
      rw [Function.update_of_ne hxa]
      exact live_congr hx

/-! ### Trimming -/

/-- The free blocks after a block has been cut. -/
theorem frees_cut_subset {L : Set ℕ} (hn : T (a + 8 + t.size) = some n)
    (hL : Frees T \ {a, a + 8 + z} ⊆ L) (hrem : a + 8 + z ∈ L) (haL : t.free = true → a ∈ L) :
    Frees (cut 8 T a t n z true) ⊆ L := by
  intro x hx
  obtain ⟨k, hk⟩ := mem_frees_iff.mp hx
  rw [status_cut hn] at hk
  by_cases hxa : x = a
  · rw [if_pos hxa] at hk
    exact hxa ▸ haL (Prod.mk.inj (Option.some.inj hk)).2
  · rw [if_neg hxa] at hk
    by_cases hxz : x = a + 8 + z
    · exact hxz ▸ hrem
    · rw [if_neg hxz] at hk
      refine hL ⟨mem_frees_iff.mpr ⟨k, hk⟩, ?_⟩
      simp only [Set.mem_insert_iff, Set.mem_singleton_iff, not_or]
      exact ⟨hxa, hxz⟩

section Trim

variable (h : Intact ctl R D S s T) (ha : T a = some t) (hn : T (a + 8 + t.size) = some n)
  (h8 : 8 ∣ z) (hz : 24 ≤ z) (hrest : z + 32 ≤ t.size)
include h ha hn h8 hz hrest

/-- A block in two parts, the second of which is in no list yet. -/
theorem Intact.cut {S' : Set ℕ} (hD : t.free = true → a ∈ D)
    (hS : Coalesced S' (cut 8 T a t n z true))
    (hholds : Holds (cut 8 T a t n z true) (Frees (cut 8 T a t n z true)) mem)
    (heq : Set.EqOn mem s.mem (Meta (cut 8 T a t n z true))ᶜ) :
    Intact ctl R (insert (a + 8 + z) D) S' { s with mem } (cut 8 T a t n z true) := by
  have hsound := h.sound.cut ha hn h8 hz hrest
  refine ⟨hsound, hS, hholds,
    h.listed.of_status hsound.placed (Or.inr rfl) (fun x => ?_) heq⟩
  rw [status_cut hn]
  by_cases hxa : x = a
  · rw [if_pos hxa]
    cases hfree : t.free with
    | true =>
      exact Or.inr ⟨Or.inl (hxa ▸ hD hfree), Or.inl (Set.mem_insert_of_mem _ (hxa ▸ hD hfree))⟩
    | false =>
      exact Or.inr ⟨Or.inr (hxa ▸ status_ne_of_used ha hfree), Or.inr nofun⟩
  · rw [if_neg hxa]
    by_cases hxz : x = a + 8 + z
    · -- there was no block where the second one is now
      have hnone : T x = none := hxz ▸ h.sound.laid.none_between ha (by omega) (by omega)
      exact Or.inr ⟨Or.inr (status_ne_of_none hnone), Or.inl (Or.inl hxz)⟩
    · rw [if_neg hxz]
      exact Or.inl ⟨⟨Or.inr, fun hx => hx.resolve_left hxz⟩, rfl⟩

/-- The blocks in use after a block has been cut. -/
theorem Intact.live_cut : live (BoundaryTags.cut 8 T a t n z true) =
    if t.free = true then live T else Function.update (live T) a (some z) := by
  funext x
  have hx := status_cut (a := a) (t := t) (z := z) (f := true) hn x
  by_cases hxa : x = a
  · rw [if_pos hxa] at hx
    cases hfree : t.free with
    | true =>
      rw [hfree] at hx
      rw [if_pos rfl, live_eq_none_of_free hx, hxa, live_eq_none_of_free (hfree ▸ status_of ha)]
    | false =>
      rw [hfree] at hx
      rw [if_neg (by decide), hxa, Function.update_self]
      exact live_eq_some_iff.mpr ⟨hxa ▸ hx, by omega⟩
  · rw [if_neg hxa] at hx
    have hsame : live (BoundaryTags.cut 8 T a t n z true) x = live T x := by
      by_cases hxz : x = a + 8 + z
      · rw [if_pos hxz] at hx
        rw [live_eq_none_of_free hx, hxz,
          live_eq_none_of_none (h.sound.laid.none_between ha (by omega) (by omega))]
      · rw [if_neg hxz] at hx
        exact live_congr hx
    rw [hsame]
    split
    · rfl
    · rw [Function.update_of_ne hxa]

end Trim

/-- **`block_trim_free`.** Less than a block is left over. -/
theorem blockTrimFree_spec (h : Intact ctl R {a} ∅ s T) (ha : T a = some t)
    (hfree : t.free = true) (h8 : 8 ∣ z) (hz : 24 ≤ z) (hle : z ≤ t.size) :
    ∃ s' t' T', blockTrimFree ctl s a z = some s' ∧
      Intact ctl R {a} {a + 8 + t'.size} s' T' ∧ T' a = some t' ∧ t'.free = true ∧
      z ≤ t'.size ∧ t'.size < z + 32 ∧ live T' = live T ∧ Set.EqOn s'.mem s.mem (Used T) := by
  have hP := h.sound.placed
  have hs := h.sound.laid.size_ne_zero ha hfree
  obtain ⟨n, hn, -⟩ := h.sound.laid.next ha hs
  have hsize := blockSize_eq (h.holds.tag ha) (hP.four_dvd ha)
  unfold blockTrimFree
  rw [blockIsFree_eq (h.holds.tag ha) (hP.four_dvd ha), hfree, if_neg (by simp)]
  by_cases hsplit : 32 + z ≤ t.size
  · have hcan : blockCanSplit s.mem a z = true := by
      unfold blockCanSplit
      rw [hsize]
      exact decide_eq_true hsplit
    obtain ⟨mem₁, g, hsp, h₁, heq₁⟩ := blockSplit_spec hP h.holds ha hn h8 hz (by omega)
    have hsound := h.sound.cut ha hn h8 hz (by omega)
    have hcut : BoundaryTags.cut 8 T a t n z true a = some { t with size := z } := if_pos rfl
    have hrem : BoundaryTags.cut 8 T a t n z true (a + 8 + z) =
        some ⟨t.size - z - 8, true, t.free⟩ := by
      unfold BoundaryTags.cut
      rw [if_neg (by omega), if_pos rfl]
    -- the header of the rest has a bit of its own until the end
    have hP₁ := hsound.placed.retag ⟨t.size - z - 8, true, g⟩ hrem rfl
    have ha₁ : Function.update (BoundaryTags.cut 8 T a t n z true) (a + 8 + z)
        (some ⟨t.size - z - 8, true, g⟩) a = some { t with size := z } := by
      rw [Function.update_of_ne (by omega), hcut]
    obtain ⟨hlink, h₂⟩ := blockLinkNext_spec hP₁ h₁ ha₁ (by simp only; omega)
    obtain ⟨h₃, heq₃⟩ := h₂.set_prevFree hsound.placed hrem
    rw [hfree, if_pos rfl] at h₃ heq₃
    have heq₂ : Set.EqOn (storeWord mem₁ (a + 8 + z) a) mem₁ _ :=
      eqOn_storeWord (link_mem_meta ha₁ hfree)
    rw [meta_update ⟨t.size - z - 8, true, g⟩ hrem rfl rfl] at heq₂
    have hS : Coalesced {a + 8 + z} (BoundaryTags.cut 8 T a t n z true) := by
      have hc := h.coalesced.cut_free (s := z) h.sound.laid ha hs hn hfree
      rwa [insert_empty_eq] at hc
    have hholds := h₃.mono (frees_cut_subset hn (fun x hx => Or.inr (Or.inr hx))
      (Or.inr (Or.inl rfl)) fun _ => Or.inl rfl)
    have hmem := (heq₃.trans heq₂).trans heq₁
    have hlive := h.live_cut ha hn h8 hz (by omega)
    rw [if_pos hfree] at hlive
    have h₄ := h.cut ha hn h8 hz (by omega) (fun _ => rfl) hS hholds hmem
    obtain ⟨s', hins, h₅, heq₅⟩ := h₄.enlist hrem rfl (Set.mem_insert _ _)
    have hD : insert (a + 8 + z) {a} \ {a + 8 + z} = ({a} : Set ℕ) := by
      ext x
      simp only [Set.mem_sdiff, Set.mem_insert_iff, Set.mem_singleton_iff]
      omega
    rw [hD] at h₅
    refine ⟨s', { t with size := z }, _, ?_, h₅, hcut, hfree, le_rfl, by simp only; omega,
      hlive, ?_⟩
    · simp only [hcan, if_true, hsp, Option.bind_eq_bind, Option.bind_some, hlink]
      exact hins
    · have hused := used_congr hlive
      rw [hused] at heq₅
      have hsub := hsound.placed.used_subset.1
      rw [hused] at hsub
      exact heq₅.trans (hmem.mono hsub)
  · have hcan : blockCanSplit s.mem a z = false := by
      unfold blockCanSplit
      rw [hsize]
      exact decide_eq_false hsplit
    rw [hcan]
    refine ⟨s, t, T, rfl, ⟨h.sound, h.coalesced.of_exceptions fun _ _ hx => hx.elim, h.holds,
      h.listed⟩, ha, hfree, hle, by omega, rfl, Set.eqOn_refl _ _⟩

/-- **`block_trim_used`.** What is cut off is merged with the block behind it. -/
theorem blockTrimUsed_spec (h : Intact ctl R ∅ ∅ s T) (ha : T a = some t) (hused : t.free = false)
    (h8 : 8 ∣ z) (hz : 24 ≤ z) (hle : z ≤ t.size) :
    ∃ s' k T', blockTrimUsed ctl s a z = some s' ∧ Intact ctl R ∅ ∅ s' T' ∧ z ≤ k ∧ k < z + 32 ∧
      k ≤ t.size ∧ live T' = Function.update (live T) a (some k) ∧
      Set.EqOn s'.mem s.mem (Used T') := by
  have hP := h.sound.placed
  have hs : t.size ≠ 0 := by omega
  obtain ⟨n, hn, -⟩ := h.sound.laid.next ha hs
  have hsize := blockSize_eq (h.holds.tag ha) (hP.four_dvd ha)
  have hliveA : live T a = some t.size := live_eq_some_iff.mpr ⟨hused ▸ status_of ha, hs⟩
  unfold blockTrimUsed
  rw [blockIsFree_eq (h.holds.tag ha) (hP.four_dvd ha), hused, if_neg (by simp)]
  by_cases hsplit : 32 + z ≤ t.size
  · have hcan : blockCanSplit s.mem a z = true := by
      unfold blockCanSplit
      rw [hsize]
      exact decide_eq_true hsplit
    obtain ⟨mem₁, g, hsp, h₁, heq₁⟩ := blockSplit_spec hP h.holds ha hn h8 hz (by omega)
    have hsound := h.sound.cut ha hn h8 hz (by omega)
    have hrem : BoundaryTags.cut 8 T a t n z true (a + 8 + z) =
        some ⟨t.size - z - 8, true, t.free⟩ := by
      unfold BoundaryTags.cut
      rw [if_neg (by omega), if_pos rfl]
    obtain ⟨h₂, heq₂⟩ := h₁.set_prevFree hsound.placed hrem
    rw [hused, if_neg (by decide)] at h₂ heq₂
    have hnext : a + 8 + z + 8 + (t.size - z - 8) = a + 8 + t.size := by omega
    have hS : Coalesced {a + 8 + z + 8 + (t.size - z - 8)}
        (BoundaryTags.cut 8 T a t n z true) := by
      have hc := h.coalesced.cut_used (w := 8) (a := a) (s := z) (n := n) hused
      rw [insert_empty_eq] at hc
      rw [hnext]
      exact hc
    have hholds := h₂.mono (frees_cut_subset hn (fun x hx => Or.inr hx) (Or.inl rfl)
      fun hc => absurd (hused.symm.trans hc) (by decide))
    have hmem := heq₂.trans heq₁
    have hlive := h.live_cut ha hn h8 hz (by omega)
    rw [hused, if_neg (by decide)] at hlive
    have h₃ := h.cut ha hn h8 hz (by omega) (fun hc => absurd (hused.symm.trans hc) (by decide))
      hS hholds hmem
    rw [insert_empty_eq] at h₃
    obtain ⟨s₄, t₄, T₄, hmerge, h₄, ht₄, hf₄, hlive₄, heq₄⟩ := blockMergeNext_spec h₃ hrem rfl
    obtain ⟨s', hins, h₅, heq₅⟩ := h₄.enlist ht₄ hf₄ rfl
    rw [Set.sdiff_self] at h₅
    refine ⟨s', z, T₄, ?_, h₅, le_rfl, by omega, hle, hlive₄.trans hlive, ?_⟩
    · simp only [hcan, if_true, hsp, Option.bind_eq_bind, Option.bind_some, hmerge]
      exact hins
    · rw [used_congr hlive₄] at heq₅ ⊢
      exact (heq₅.trans heq₄).trans (hmem.mono hsound.placed.used_subset.1)
  · have hcan : blockCanSplit s.mem a z = false := by
      unfold blockCanSplit
      rw [hsize]
      exact decide_eq_false hsplit
    rw [hcan]
    exact ⟨s, t.size, T, rfl, h, hle, by omega, le_rfl,
      (Function.update_eq_self_iff.mpr hliveA.symm).symm, Set.eqOn_refl _ _⟩

/-- **A block in use takes the free block behind it.** The two functions that `tlsf_realloc` calls
for it, the first of which leaves a wrong bit behind both blocks to the second. -/
theorem blockMergeNext_used (h : Intact ctl R ∅ ∅ s T) (ha : T a = some t)
    (hused : t.free = false) (hs : t.size ≠ 0) (hn : T (a + 8 + t.size) = some n)
    (hnf : n.free = true) : ∃ s' mem' T', blockMergeNext ctl s a = some (s', a) ∧
      blockMarkAsUsed s'.mem a = some mem' ∧ Intact ctl R ∅ ∅ { s' with mem := mem' } T' ∧
      T' a = some { t with size := t.size + 8 + n.size } ∧
      live T' = Function.update (live T) a (some (t.size + 8 + n.size)) ∧
      Set.EqOn mem' s.mem (Used T) := by
  have hP := h.sound.placed
  have hns := h.sound.laid.size_ne_zero hn hnf
  obtain ⟨m, hm, -⟩ := h.sound.laid.next hn hns
  have hlt := h.sound.join_lt ha hs hn hns hm
  have hguard : ¬ a + 8 + t.size = 0 := by omega
  obtain ⟨s₁, hrem, h₁, heq₁⟩ := h.delist hn hnf (Set.notMem_empty _)
  obtain ⟨mem₂, habs, hholds₂, heq₂⟩ := blockAbsorb_spec hP h₁.holds ha hs hn hnf hlt
  have hP₂ := hP.merged ha hs hn hlt
  have ha₂ : merged T a t n a = some { t with size := t.size + 8 + n.size } := if_pos rfl
  have hm₂ : merged T a t n (a + 8 + (t.size + 8 + n.size)) = some m := by
    have hpos : a + 8 + (t.size + 8 + n.size) = a + 8 + t.size + 8 + n.size := by omega
    unfold merged
    rw [hpos, if_neg (by omega), if_neg (by omega), hm]
  obtain ⟨mem', hmark, hholds₃, heq₃⟩ :=
    blockMarkAsUsed_spec hP₂ hholds₂ ha₂ (by simp only; omega) hm₂
  have hjoin : mark 8 (merged T a t n) a { t with size := t.size + 8 + n.size } m false =
      join 8 T a t n m := by
    have hpos : a + 8 + (t.size + 8 + n.size) = a + 8 + t.size + 8 + n.size := by omega
    rw [mark_eq_update, join_eq_update, hused, hpos]
    refine Function.update_eq_self_iff.mpr ?_
    rw [Function.update_of_ne (by omega), ha₂, ← hused]
  rw [hjoin] at hholds₃
  -- the headers and links of the merged heap are among those of the heap before
  have hmeta : Meta (merged T a t n) ⊆ Meta T := by
    rintro i ⟨b, u, hb, hi⟩
    unfold merged at hb
    split at hb
    · next hba =>
      obtain rfl := Option.some.inj hb
      refine ⟨a, t, ha, Or.inl ?_⟩
      rcases hi with hi | ⟨hc, -⟩
      · omega
      · rw [hused] at hc
        cases hc
    · rw [Option.ite_none_left_eq_some] at hb
      exact ⟨b, u, hb.2, hi⟩
  have hmem : Set.EqOn mem' s₁.mem (Meta T)ᶜ :=
    (heq₃.mono (Set.compl_subset_compl.mpr hmeta)).trans heq₂
  have hstatus := status_join (T := T) (a := a) (t := t) hm
  refine ⟨{ s₁ with mem := mem₂ }, mem', join 8 T a t n m, ?_, hmark,
    ⟨h.sound.join ha hs hn hns hm, (h.coalesced.join h.sound.laid (by decide) ha hn hns hnf
      hm).of_exceptions fun _ _ hx => hx.1.elim, hholds₃.mono fun x hx => ?_, ?_⟩, if_pos rfl, ?_,
    (hmem.mono hP.used_subset.1).trans heq₁⟩
  · unfold blockMergeNext
    rw [blockNext_of_holds hP h.holds ha hs]
    simp only [Option.bind_eq_bind, Option.bind_some, if_neg hguard,
      blockIsFree_eq (h.holds.tag hn) (hP.four_dvd hn),
      blockIsLast_eq (h.holds.tag ha) (hP.four_dvd ha)]
    rw [if_pos hnf, if_neg (by simpa using hs), hrem]
    simp only [Option.bind_some, habs]
  · obtain ⟨k, hk⟩ := mem_frees_iff.mp hx
    rw [hstatus] at hk
    by_cases hxa : x = a
    · rw [if_pos hxa, hused] at hk
      cases hk
    · rw [if_neg hxa] at hk
      split at hk
      · cases hk
      · exact Or.inr ⟨mem_frees_iff.mpr ⟨k, hk⟩, hxa⟩
  · refine h₁.listed.of_status hP (Or.inl rfl) (fun x => ?_) hmem
    rw [hstatus]
    by_cases hxa : x = a
    · refine Or.inr ⟨Or.inr fun k hc => ?_, Or.inr fun k hc => ?_⟩
      · rw [hxa, status_of ha, hused] at hc
        cases hc
      · rw [if_pos hxa, hused] at hc
        cases hc
    · rw [if_neg hxa]
      by_cases hxn : x = a + 8 + t.size
      · rw [if_pos hxn]
        exact Or.inr ⟨Or.inl (Or.inl hxn), Or.inr fun k hc => by cases hc⟩
      · rw [if_neg hxn]
        exact Or.inl ⟨iff_of_false (fun hx => hx.elim hxn id) id, rfl⟩
  · funext x
    have hx := hstatus x
    by_cases hxa : x = a
    · rw [if_pos hxa, hused] at hx
      rw [hxa, Function.update_self]
      exact live_eq_some_iff.mpr ⟨hxa ▸ hx, by omega⟩
    · rw [if_neg hxa] at hx
      rw [Function.update_of_ne hxa]
      by_cases hxn : x = a + 8 + t.size
      · rw [if_pos hxn] at hx
        rw [live_eq_none_of_status hx, hxn, live_eq_none_of_free (hnf ▸ status_of hn)]
      · rw [if_neg hxn] at hx
        exact live_congr hx

end Tjost.TwoLevel
