import Tjost.Library.LinkedList
import Tjost.Memory.BlockHeaders
import Tjost.Memory.SizeClasses

/-!
# The free lists of the allocator

`control_t` has a doubly linked list of free blocks for every size class, and two levels of bitmaps:
a bit for every list that is not empty, and a bit for every first index with such a list. The links
are in the blocks. All lists end at the `block_null` of the control structure, which is at its
beginning; its own links are written, but never looked at.

`Listed` is what holds of them: every free block is in the list of its class, and the bitmaps are
accurate. Blocks on their way into a list or out of it are in the set `D` of exceptions. The
functions that insert and remove a block keep it (`insertFreeBlock_spec`, `removeFreeBlock_spec`),
with the block as an exception less or more, and write nothing but the fields of free blocks.

**The search** (`searchSuitableBlock_spec`) finds a block of the first class from the given one on
that has any, and fails if and only if no such class has one.
-/

namespace Tjost.TwoLevel

open ByteMemory BoundaryTags LinkedList

/-- `control_t`, together with the memory that its lists are in. -/
structure Control where
  mem : ByteMemory.Memory
  flBitmap : BitVec 32
  slBitmap : ℕ → BitVec 32
  blocks : ℕ → ℕ → ℕ

/-! ### The functions -/

/-- `next_free`. -/
def nextFree (mem : ByteMemory.Memory) (block : ℕ) : ℕ := loadWord mem (block + 16)

/-- `prev_free`. -/
def prevFree (mem : ByteMemory.Memory) (block : ℕ) : ℕ := loadWord mem (block + 24)

variable (ctl : ℕ)

/-- `control_construct`. -/
def controlConstruct (mem : ByteMemory.Memory) : Control where
  mem := storeWord (storeWord mem (ctl + 16) ctl) (ctl + 24) ctl
  flBitmap := 0
  slBitmap _ := 0
  blocks _ _ := ctl

/-- `search_suitable_block`. Answers with the block, or `0`, and its class. -/
def searchSuitableBlock (s : Control) (fl sl : ℕ) : Option (ℕ × ℕ × ℕ) :=
  if 25 ≤ fl then none
  else
    let slMap := s.slBitmap fl &&& (BitVec.allOnes 32 <<< sl)
    if slMap ≠ 0 then some (s.blocks fl (ffs slMap).toNat, fl, (ffs slMap).toNat)
    else
      -- no block in this list, so the next largest one
      let flMap := s.flBitmap &&& (BitVec.allOnes 32 <<< (fl + 1))
      if flMap = 0 then some (0, fl, sl)
      else
        let fl := (ffs flMap).toNat
        let slMap := s.slBitmap fl
        if 25 ≤ fl ∨ slMap = 0 then none
        else some (s.blocks fl (ffs slMap).toNat, fl, (ffs slMap).toNat)

/-- `remove_free_block`. -/
def removeFreeBlock (s : Control) (block fl sl : ℕ) : Option Control :=
  let prev := prevFree s.mem block
  let next := nextFree s.mem block
  if prev = 0 ∨ next = 0 ∨ 25 ≤ fl ∨ 32 ≤ sl then none
  else
    let s := { s with mem := storeWord (storeWord s.mem (next + 24) prev) (prev + 16) next }
    if s.blocks fl sl = block then
      let s := { s with
        blocks := Function.update s.blocks fl (Function.update (s.blocks fl) sl next) }
      if next = ctl then
        let s := { s with
          slBitmap := Function.update s.slBitmap fl (s.slBitmap fl &&& ~~~(1#32 <<< sl)) }
        if s.slBitmap fl = 0 then some { s with flBitmap := s.flBitmap &&& ~~~(1#32 <<< fl) }
        else some s
      else some s
    else some s

/-- `insert_free_block`. -/
def insertFreeBlock (s : Control) (block fl sl : ℕ) : Option Control :=
  if 25 ≤ fl ∨ 32 ≤ sl then none
  else
    let current := s.blocks fl sl
    if current = 0 ∨ block = 0 then none
    else
      let mem := storeWord (storeWord s.mem (block + 16) current) (block + 24) ctl
      let mem := storeWord mem (current + 24) block
      if blockToPtr block = alignUp (blockToPtr block) 8 then
        some {
          mem
          flBitmap := s.flBitmap ||| (1#32 <<< fl)
          slBitmap := Function.update s.slBitmap fl (s.slBitmap fl ||| (1#32 <<< sl))
          blocks := Function.update s.blocks fl (Function.update (s.blocks fl) sl block) }
      else none

/-- `block_remove`. -/
def blockRemove (s : Control) (block : ℕ) : Option Control :=
  let (fl, sl) := mappingInsert (blockSize s.mem block)
  removeFreeBlock ctl s block fl sl

/-- `block_insert`. -/
def blockInsert (s : Control) (block : ℕ) : Option Control :=
  let (fl, sl) := mappingInsert (blockSize s.mem block)
  insertFreeBlock ctl s block fl sl

/-! ### The lists -/

/-- The free block belongs into the list. -/
def Indexed (T : Tags) (D : Set ℕ) (fl sl a : ℕ) : Prop :=
  a ∉ D ∧ ∃ t, T a = some t ∧ t.free = true ∧ t.size ≠ 0 ∧ mappingInsert t.size = (fl, sl)

/-- **The free lists**, without the blocks in `D`. -/
structure Listed (D : Set ℕ) (s : Control) (T : Tags) : Prop where
  lists : ∀ fl sl, fl < 25 → sl < 32 →
    ∃ l, Linked (nextFree s.mem) (prevFree s.mem) ctl ctl (s.blocks fl sl) l ∧ l.Nodup ∧
      ∀ a, a ∈ l ↔ Indexed T D fl sl a
  second : ∀ fl sl, fl < 25 → sl < 32 →
    ((s.slBitmap fl).getLsbD sl = true ↔ ∃ a, Indexed T D fl sl a)
  first : ∀ fl, s.flBitmap.getLsbD fl = true ↔ fl < 25 ∧ s.slBitmap fl ≠ 0

/-- The fields of the free blocks, and the control structure. -/
def Fields (T : Tags) : Set ℕ :=
  {i | (∃ a t, T a = some t ∧ t.free = true ∧ t.size ≠ 0 ∧ a + 16 ≤ i ∧ i < a + 32) ∨
    ctl ≤ i ∧ i < ctl + 32}

variable {ctl}
variable {T T' : Tags} {D D' L : Set ℕ} {s s' : Control} {mem mem' : ByteMemory.Memory}
  {fl sl a b x p : ℕ} {t : Tag}

/-- Nothing else of the heap is there. -/
theorem Placed.fields_disjoint (hP : Placed ctl T) : Disjoint (Used T ∪ Meta T) (Fields ctl T) := by
  rw [Set.disjoint_right]
  rintro i (⟨a, t, ha, hfree, hs, hlo, hhi⟩ | ⟨hlo, hhi⟩)
  · rintro (hused | hmeta)
    · exact hP.fields_notMem_used ha hfree hs hlo hhi hused
    · exact hP.fields_notMem_meta ha hs hlo hhi hmeta
  · exact hP.control_notMem hlo hhi

/-! ### Nodes -/

/-- An end of the links: a free block or `block_null`. -/
def Node (ctl : ℕ) (T : Tags) (a : ℕ) : Prop :=
  a = ctl ∨ ∃ t, T a = some t ∧ t.free = true ∧ t.size ≠ 0

namespace Node

theorem of_indexed (h : Indexed T D fl sl a) : Node ctl T a :=
  Or.inr (by obtain ⟨-, t, ha, hfree, hs, -⟩ := h; exact ⟨t, ha, hfree, hs⟩)

theorem bounds (hP : Placed ctl T) (h : Node ctl T a) : 0 < a ∧ 8 ∣ a ∧ a + 32 ≤ 2 ^ 64 := by
  rcases h with rfl | ⟨t, ha, -, hs⟩
  · exact hP.control
  · have := hP.bounds ha
    have := hP.least ha hs
    exact ⟨by omega, (hP.aligned ha).1, by omega⟩

/-- The fields of two nodes do not overlap. -/
theorem apart (hP : Placed ctl T) (ha : Node ctl T a) (hb : Node ctl T b) (hne : a ≠ b) :
    a + 32 ≤ b ∨ b + 32 ≤ a := by
  rcases ha with rfl | ⟨t, ha, -, hs⟩ <;> rcases hb with rfl | ⟨u, hb, -, hs'⟩
  · exact absurd rfl hne
  · have := hP.away hb
    have := hP.least hb hs'
    omega
  · have := hP.away ha
    have := hP.least ha hs
    omega
  · have := hP.least ha hs
    have := hP.least hb hs'
    rcases Nat.lt_or_gt_of_ne hne with hlt | hlt
    · have := hP.apart ha hb hlt
      omega
    · have := hP.apart hb ha hlt
      omega

theorem mem_fields (h : Node ctl T a) : ∀ i, a + 16 ≤ i → i < a + 32 → i ∈ Fields ctl T := by
  intro i hlo hhi
  rcases h with rfl | ⟨t, ha, hfree, hs⟩
  · exact Or.inr ⟨by omega, hhi⟩
  · exact Or.inl ⟨a, t, ha, hfree, hs, hlo, hhi⟩

variable (hP : Placed ctl T) (ha : Node ctl T a) (hb : Node ctl T b)
include hP ha hb

theorem nextFree_store_next (hx : x < 2 ^ 64) :
    nextFree (storeWord mem (a + 16) x) b = Function.update (nextFree mem) a x b := by
  unfold nextFree
  by_cases hba : b = a
  · rw [hba, Function.update_self, loadWord_storeWord _ _ hx]
  · have := ha.bounds hP
    have := hb.bounds hP
    rw [Function.update_of_ne hba, loadWord_storeWord_of_ne (by omega) (by omega) (by omega)]

theorem prevFree_store_prev (hx : x < 2 ^ 64) :
    prevFree (storeWord mem (a + 24) x) b = Function.update (prevFree mem) a x b := by
  unfold prevFree
  by_cases hba : b = a
  · rw [hba, Function.update_self, loadWord_storeWord _ _ hx]
  · have := ha.bounds hP
    have := hb.bounds hP
    rw [Function.update_of_ne hba, loadWord_storeWord_of_ne (by omega) (by omega) (by omega)]

theorem nextFree_store_prev : nextFree (storeWord mem (a + 24) x) b = nextFree mem b := by
  have := ha.bounds hP
  have := hb.bounds hP
  have hne : b + 16 ≠ a + 24 := by
    rintro he
    have hab : a ≠ b := by omega
    rcases apart hP ha hb hab with h | h <;> omega
  exact loadWord_storeWord_of_ne (by omega) (by omega) hne

theorem prevFree_store_next : prevFree (storeWord mem (a + 16) x) b = prevFree mem b := by
  have := ha.bounds hP
  have := hb.bounds hP
  have hne : b + 24 ≠ a + 16 := by
    rintro he
    have hab : a ≠ b := by omega
    rcases apart hP ha hb hab with h | h <;> omega
  exact loadWord_storeWord_of_ne (by omega) (by omega) hne

end Node

/-! ### Tables -/

theorem table_update {α : Type} (f : ℕ → ℕ → α) (i j : ℕ) (v : α) (i' j' : ℕ) :
    Function.update f i (Function.update (f i) j v) i' j' =
      if i' = i ∧ j' = j then v else f i' j' := by
  by_cases hi : i' = i
  · subst hi
    by_cases hj : j' = j
    · rw [hj, Function.update_self, Function.update_self, if_pos ⟨rfl, rfl⟩]
    · rw [Function.update_self, Function.update_of_ne hj, if_neg (fun h => hj h.2)]
  · rw [Function.update_of_ne hi, if_neg (fun h => hi h.1)]

/-- A block is in one list. -/
theorem Indexed.class_inj {fl' sl' : ℕ} (h : Indexed T D fl sl a) (h' : Indexed T D fl' sl' a) :
    fl' = fl ∧ sl' = sl := by
  obtain ⟨-, t, ha, -, -, hclass⟩ := h
  obtain ⟨-, u, hu, -, -, hclass'⟩ := h'
  obtain rfl := Option.some.inj (ha.symm.trans hu)
  exact Prod.mk.inj (hclass'.symm.trans hclass)

theorem Indexed.lt (hP : Placed ctl T) (h : Indexed T D fl sl a) : fl < 25 ∧ sl < 32 := by
  obtain ⟨-, t, ha, -, -, hclass⟩ := h
  have hsmall := hP.small ha
  have hlt : t.size < 2 ^ 64 := lt_trans hsmall (by decide)
  have hfl := (mappingInsert_fst_lt hlt).mpr hsmall
  have hsl := (mappingInsert_range hlt).1
  rw [hclass] at hfl hsl
  exact ⟨hfl, hsl⟩

theorem Indexed.ne_control (hP : Placed ctl T) (h : Indexed T D fl sl a) : a ≠ ctl := by
  rintro rfl
  obtain ⟨-, t, ha, -⟩ := h
  have := hP.away ha
  omega

namespace Listed

variable {l : List ℕ}

theorem control_notMem (hP : Placed ctl T) (hl : ∀ a, a ∈ l ↔ Indexed T D fl sl a) : ctl ∉ l :=
  fun hmem => ((hl ctl).mp hmem).ne_control hP rfl

/-- A list begins with a node. -/
theorem head_node (hl : ∀ a, a ∈ l ↔ Indexed T D fl sl a)
    (hlink : Linked (nextFree mem) (prevFree mem) ctl ctl x l) : x = ctl ∨ Indexed T D fl sl x := by
  cases l with
  | nil => exact Or.inl hlink
  | cons y l => exact Or.inr ((hl x).mp (hlink.1 ▸ List.mem_cons_self))

end Listed

/-! ### Insertion and removal -/

/-- **A block is inserted.** -/
theorem insertFreeBlock_spec (hP : Placed ctl T) (h : Listed ctl D s T) (hx : T x = some t)
    (hfree : t.free = true) (hs : t.size ≠ 0) (hD : x ∈ D)
    (hclass : mappingInsert t.size = (fl, sl)) :
    ∃ s', insertFreeBlock ctl s x fl sl = some s' ∧ Listed ctl (D \ {x}) s' T ∧
      Set.EqOn s'.mem s.mem (Fields ctl T)ᶜ := by
  have hnew : Indexed T (D \ {x}) fl sl x :=
    ⟨fun hmem => hmem.2 rfl, t, hx, hfree, hs, hclass⟩
  obtain ⟨hfl, hsl⟩ := hnew.lt hP
  have hnode : Node ctl T x := Node.of_indexed hnew
  obtain ⟨l, hlink, hnodup, hl⟩ := h.lists fl sl hfl hsl
  have hhead := Listed.head_node hl hlink
  have hheadNode : Node ctl T (s.blocks fl sl) := hhead.imp_right fun hi => by
    obtain ⟨-, u, hu, huf, hus, -⟩ := hi
    exact ⟨u, hu, huf, hus⟩
  have hcontrol : Node ctl T ctl := Or.inl rfl
  have hb := hnode.bounds hP
  have hbh := hheadNode.bounds hP
  have hbc := hP.control
  have hxl : x ∉ l := fun hmem => ((hl x).mp hmem).1 hD
  have haligned : blockToPtr x = alignUp (blockToPtr x) 8 := by
    unfold blockToPtr
    rw [alignUp_eight (by omega)]
    omega
  -- the links of the nodes after the three stores
  obtain ⟨mem₁, hmem₁⟩ : ∃ m,
      m = storeWord (storeWord s.mem (x + 16) (s.blocks fl sl)) (x + 24) ctl := ⟨_, rfl⟩
  obtain ⟨mem', hmem'⟩ : ∃ m, m = storeWord mem₁ (s.blocks fl sl + 24) x := ⟨_, rfl⟩
  have hnext : ∀ y, Node ctl T y →
      nextFree mem' y = Function.update (nextFree s.mem) x (s.blocks fl sl) y := by
    intro y hy
    rw [hmem', hmem₁, Node.nextFree_store_prev hP hheadNode hy,
      Node.nextFree_store_prev hP hnode hy, Node.nextFree_store_next hP hnode hy (by omega)]
  have hinner : ∀ z, Node ctl T z →
      prevFree mem₁ z = Function.update (prevFree s.mem) x ctl z := by
    intro z hz
    rw [hmem₁, Node.prevFree_store_prev hP hnode hz (by omega)]
    by_cases hzx : z = x
    · rw [hzx, Function.update_self, Function.update_self]
    · rw [Function.update_of_ne hzx, Function.update_of_ne hzx,
        Node.prevFree_store_next hP hnode hz]
  have hprev : ∀ y, Node ctl T y → prevFree mem' y =
      Function.update (Function.update (prevFree s.mem) x ctl) (s.blocks fl sl) x y := by
    intro y hy
    rw [hmem', Node.prevFree_store_prev hP hheadNode hy (by omega)]
    by_cases hyh : y = s.blocks fl sl
    · rw [hyh, Function.update_self, Function.update_self]
    · rw [Function.update_of_ne hyh, Function.update_of_ne hyh, hinner y hy]
  have hiff : ∀ fl' sl' a, Indexed T (D \ {x}) fl' sl' a ↔
      (fl' = fl ∧ sl' = sl) ∧ a = x ∨ Indexed T D fl' sl' a := by
    intro fl' sl' a
    constructor
    · intro hi
      by_cases hax : a = x
      · subst hax
        exact Or.inl ⟨hnew.class_inj hi, rfl⟩
      · exact Or.inr ⟨fun hmem => hi.1 ⟨hmem, hax⟩, hi.2⟩
    · rintro (⟨⟨rfl, rfl⟩, rfl⟩ | hi)
      · exact hnew
      · exact ⟨fun hmem => hi.1 hmem.1, hi.2⟩
  -- the new head of the list is the only change that `Indexed` sees
  refine ⟨{
    mem := mem'
    flBitmap := s.flBitmap ||| (1#32 <<< fl)
    slBitmap := Function.update s.slBitmap fl (s.slBitmap fl ||| (1#32 <<< sl))
    blocks := Function.update s.blocks fl (Function.update (s.blocks fl) sl x) }, ?_, ?_, ?_⟩
  · unfold insertFreeBlock
    rw [if_neg (by omega), hmem', hmem₁]
    simp only
    rw [if_neg (by omega), if_pos haligned]
  · refine ⟨?_, ?_, ?_⟩
    · -- the lists: the new block is in front of its own, and the others are as they were
      intro fl' sl' hfl' hsl'
      simp only [table_update]
      by_cases hsame : fl' = fl ∧ sl' = sl
      · obtain ⟨rfl, rfl⟩ := hsame
        rw [if_pos ⟨rfl, rfl⟩]
        refine ⟨x :: l, ?_, List.nodup_cons.mpr ⟨hxl, hnodup⟩, ?_⟩
        · refine (hlink.insert (Listed.control_notMem hP hl) hxl hnodup).congr fun y hy => ?_
          have hy' : Node ctl T y := by
            rcases List.mem_cons.mp hy with rfl | hy
            · exact hnode
            · exact Node.of_indexed ((hl y).mp hy)
          exact ⟨hnext y hy', hprev y hy'⟩
        · intro a
          rw [List.mem_cons, hl a, hiff]
          simp
      · rw [if_neg hsame]
        obtain ⟨l', hlink', hnodup', hl'⟩ := h.lists fl' sl' hfl' hsl'
        refine ⟨l', ?_, hnodup', ?_⟩
        · refine hlink'.congr fun y hy => ?_
          have hi := (hl' y).mp hy
          have hyx : y ≠ x := fun he => hi.1 (he ▸ hD)
          have hyh : y ≠ s.blocks fl sl := by
            intro he
            rcases hhead with hc | hi'
            · exact hi.ne_control hP (he.trans hc)
            · exact hsame (hi'.class_inj (he ▸ hi))
          rw [hnext y (Node.of_indexed hi), hprev y (Node.of_indexed hi),
            Function.update_of_ne hyx, Function.update_of_ne hyh, Function.update_of_ne hyx]
          exact ⟨rfl, rfl⟩
        · intro a
          rw [hl' a, hiff]
          simp [hsame]
    · -- the bitmaps: both bits are set, whether or not they were before
      intro fl' sl' hfl' hsl'
      simp only
      by_cases hf : fl' = fl
      · subst hf
        rw [Function.update_self, Bitmap.getLsbD_set _ hsl, Bool.or_eq_true, decide_eq_true_eq,
          h.second fl' sl' hfl' hsl']
        simp only [hiff, true_and, exists_or, exists_and_left, exists_eq, and_true]
      · rw [Function.update_of_ne hf, h.second fl' sl' hfl' hsl']
        simp only [hiff, hf, false_and, false_or]
    · intro fl'
      simp only
      rw [Bitmap.getLsbD_set _ (by omega), Bool.or_eq_true, decide_eq_true_eq]
      by_cases hf : fl' = fl
      · subst hf
        rw [Function.update_self]
        refine iff_of_true (Or.inl rfl) ⟨hfl, Bitmap.ne_zero_iff.mpr ⟨sl, ?_⟩⟩
        rw [Bitmap.getLsbD_set _ hsl, decide_eq_true rfl, Bool.true_or]
      · rw [Function.update_of_ne hf, h.first fl']
        simp [hf]
  · have hfields := hnode.mem_fields
    have hfieldsHead := hheadNode.mem_fields
    rw [hmem', hmem₁]
    exact ((eqOn_storeWord fun i hlo hhi => hfieldsHead i (by omega) (by omega)).trans
      (eqOn_storeWord fun i hlo hhi => hfields i (by omega) (by omega))).trans
      (eqOn_storeWord fun i hlo hhi => hfields i (by omega) (by omega))

/-- The neighbours of a block are linked to each other. -/
def unlinked (mem : ByteMemory.Memory) (x : ℕ) : ByteMemory.Memory :=
  storeWord (storeWord mem (nextFree mem x + 24) (prevFree mem x)) (prevFree mem x + 16)
    (nextFree mem x)

theorem indexed_insert_iff :
    Indexed T (insert x D) fl sl a ↔ Indexed T D fl sl a ∧ a ≠ x := by
  unfold Indexed
  rw [Set.mem_insert_iff, not_or]
  exact ⟨fun h => ⟨⟨h.1.2, h.2⟩, h.1.1⟩, fun h => ⟨⟨h.2, h.1.1⟩, h.1.2⟩⟩

section Unlink

variable (hP : Placed ctl T) (h : Listed ctl D s T) (hx : Indexed T D fl sl x)
include hP h hx

/-- The neighbours of a block in its list. -/
theorem Listed.neighbours :
    (nextFree s.mem x = ctl ∨ Indexed T D fl sl (nextFree s.mem x)) ∧
      (prevFree s.mem x = ctl ∨ Indexed T D fl sl (prevFree s.mem x)) := by
  obtain ⟨hfl, hsl⟩ := hx.lt hP
  obtain ⟨l, hlink, -, hl⟩ := h.lists fl sl hfl hsl
  have hmem := (hl x).mpr hx
  exact ⟨(hlink.next_mem hmem).imp_right (hl _).mp, (hlink.prev_mem hmem).imp_right (hl _).mp⟩

/-- The links of the nodes after a block has been unlinked. -/
theorem Listed.unlinked_links {y : ℕ} (hy : Node ctl T y) :
    nextFree (unlinked s.mem x) y =
        Function.update (nextFree s.mem) (prevFree s.mem x) (nextFree s.mem x) y ∧
      prevFree (unlinked s.mem x) y =
        Function.update (prevFree s.mem) (nextFree s.mem x) (prevFree s.mem x) y := by
  obtain ⟨hn, hp⟩ := h.neighbours hP hx
  have hn' : Node ctl T (nextFree s.mem x) := hn.elim Or.inl Node.of_indexed
  have hp' : Node ctl T (prevFree s.mem x) := hp.elim Or.inl Node.of_indexed
  have hnb := hn'.bounds hP
  have hpb := hp'.bounds hP
  unfold unlinked
  constructor
  · rw [Node.nextFree_store_next hP hp' hy (by omega)]
    by_cases hyp : y = prevFree s.mem x
    · rw [hyp, Function.update_self, Function.update_self]
    · rw [Function.update_of_ne hyp, Function.update_of_ne hyp, Node.nextFree_store_prev hP hn' hy]
  · rw [Node.prevFree_store_next hP hp' hy, Node.prevFree_store_prev hP hn' hy (by omega)]

/-- The list of the block. -/
theorem Listed.unlink : ∃ l, Linked (nextFree (unlinked s.mem x)) (prevFree (unlinked s.mem x))
      ctl ctl (if s.blocks fl sl = x then nextFree s.mem x else s.blocks fl sl) l ∧ l.Nodup ∧
    ∀ a, a ∈ l ↔ Indexed T (insert x D) fl sl a := by
  obtain ⟨hfl, hsl⟩ := hx.lt hP
  obtain ⟨l, hlink, hnodup, hl⟩ := h.lists fl sl hfl hsl
  -- the list without the block is what is in front of it and behind it
  obtain ⟨l₁, l₂, rfl⟩ := List.append_of_mem ((hl x).mpr hx)
  have hnull := Listed.control_notMem hP hl
  have hsub : ∀ y, y ∈ l₁ ++ l₂ ↔ y ∈ l₁ ++ x :: l₂ ∧ y ≠ x := by
    intro y
    have hx₁ : x ∉ l₁ := fun hmem =>
      (List.nodup_append.mp hnodup).2.2 x hmem x List.mem_cons_self rfl
    have hx₂ : x ∉ l₂ := (List.nodup_cons.mp (List.nodup_append.mp hnodup).2.1).1
    simp only [List.mem_append, List.mem_cons]
    constructor
    · rintro (hy | hy)
      · exact ⟨Or.inl hy, fun he => hx₁ (he ▸ hy)⟩
      · exact ⟨Or.inr (Or.inr hy), fun he => hx₂ (he ▸ hy)⟩
    · rintro ⟨hy | rfl | hy, hne⟩
      · exact Or.inl hy
      · exact absurd rfl hne
      · exact Or.inr hy
  refine ⟨l₁ ++ l₂, ?_, ?_, ?_⟩
  · refine (hlink.remove hnodup hnull hnull).congr fun y hy => ?_
    exact h.unlinked_links hP hx (Node.of_indexed ((hl y).mp ((hsub y).mp hy).1))
  · exact hnodup.sublist (List.Sublist.append_left (List.sublist_cons_self x l₂) l₁)
  · intro a
    rw [hsub a, hl a, indexed_insert_iff]

/-- The other lists. -/
theorem Listed.unlink_other {fl' sl' : ℕ} (hfl' : fl' < 25) (hsl' : sl' < 32)
    (hne : ¬ (fl' = fl ∧ sl' = sl)) :
    ∃ l, Linked (nextFree (unlinked s.mem x)) (prevFree (unlinked s.mem x)) ctl ctl
      (s.blocks fl' sl') l ∧ l.Nodup ∧ ∀ a, a ∈ l ↔ Indexed T (insert x D) fl' sl' a := by
  obtain ⟨hn, hp⟩ := h.neighbours hP hx
  obtain ⟨l, hlink, hnodup, hl⟩ := h.lists fl' sl' hfl' hsl'
  refine ⟨l, hlink.congr fun y hy => ?_, hnodup, fun a => ?_⟩
  · have hi := (hl y).mp hy
    obtain ⟨hnext, hprev⟩ := h.unlinked_links hP hx (Node.of_indexed hi)
    have hout : ∀ z, z = ctl ∨ Indexed T D fl sl z → y ≠ z := by
      rintro z (rfl | hz) rfl
      · exact hi.ne_control hP rfl
      · exact hne (hz.class_inj hi)
    -- the stores are at nodes of the list of `x`, so this one does not see them
    rw [hnext, hprev, Function.update_of_ne (hout _ hp), Function.update_of_ne (hout _ hn)]
    exact ⟨rfl, rfl⟩
  · rw [hl a, indexed_insert_iff]
    refine ⟨fun hi => ⟨hi, ?_⟩, And.left⟩
    rintro rfl
    exact hne (hx.class_inj hi)

/-- **A block is removed.** -/
theorem removeFreeBlock_spec : ∃ s', removeFreeBlock ctl s x fl sl = some s' ∧
    Listed ctl (insert x D) s' T ∧ Set.EqOn s'.mem s.mem (Fields ctl T)ᶜ := by
  obtain ⟨hfl, hsl⟩ := hx.lt hP
  obtain ⟨hn, hp⟩ := h.neighbours hP hx
  have hn' : Node ctl T (nextFree s.mem x) := hn.elim Or.inl Node.of_indexed
  have hp' : Node ctl T (prevFree s.mem x) := hp.elim Or.inl Node.of_indexed
  have hguard : ¬ (prevFree s.mem x = 0 ∨ nextFree s.mem x = 0 ∨ 25 ≤ fl ∨ 32 ≤ sl) := by
    have := hn'.bounds hP
    have := hp'.bounds hP
    omega
  have hmem : Set.EqOn (unlinked s.mem x) s.mem (Fields ctl T)ᶜ := by
    have hnf := hn'.mem_fields
    have hpf := hp'.mem_fields
    exact (eqOn_storeWord fun i hlo hhi => hpf i (by omega) (by omega)).trans
      (eqOn_storeWord fun i hlo hhi => hnf i (by omega) (by omega))
  obtain ⟨l, hlink, hnodup, hl⟩ := h.unlink hP hx
  have hempty := hlink.head_eq_null_iff (Listed.control_notMem hP hl)
  have hother : ∀ {fl' sl'}, ¬ (fl' = fl ∧ sl' = sl) →
      ∀ a, Indexed T (insert x D) fl' sl' a ↔ Indexed T D fl' sl' a := by
    intro fl' sl' hne a
    rw [indexed_insert_iff]
    refine ⟨And.left, fun hi => ⟨hi, ?_⟩⟩
    rintro rfl
    exact hne (hx.class_inj hi)
  -- the lists do not depend on the bitmaps
  have hlists : ∀ blocks : ℕ → ℕ → ℕ, (∀ fl' sl', blocks fl' sl' = if fl' = fl ∧ sl' = sl then
        (if s.blocks fl sl = x then nextFree s.mem x else s.blocks fl sl) else s.blocks fl' sl') →
      ∀ fl' sl', fl' < 25 → sl' < 32 → ∃ l, Linked (nextFree (unlinked s.mem x))
        (prevFree (unlinked s.mem x)) ctl ctl (blocks fl' sl') l ∧ l.Nodup ∧
        ∀ a, a ∈ l ↔ Indexed T (insert x D) fl' sl' a := by
    intro blocks hblocks fl' sl' hfl' hsl'
    rw [hblocks]
    by_cases hsame : fl' = fl ∧ sl' = sl
    · obtain ⟨rfl, rfl⟩ := hsame
      rw [if_pos ⟨rfl, rfl⟩]
      exact ⟨l, hlink, hnodup, hl⟩
    · rw [if_neg hsame]
      exact h.unlink_other hP hx hfl' hsl' hsame
  -- the bit stays as long as the list has a block
  have hkept : l ≠ [] → ∀ fl' sl', fl' < 25 → sl' < 32 →
      ((s.slBitmap fl').getLsbD sl' = true ↔ ∃ a, Indexed T (insert x D) fl' sl' a) := by
    intro hne fl' sl' hfl' hsl'
    rw [h.second fl' sl' hfl' hsl']
    by_cases hsame : fl' = fl ∧ sl' = sl
    · obtain ⟨rfl, rfl⟩ := hsame
      obtain ⟨y, hy⟩ := List.exists_mem_of_ne_nil l hne
      exact iff_of_true ⟨x, hx⟩ ⟨y, (hl y).mp hy⟩
    · simp only [hother hsame]
  by_cases hhead : s.blocks fl sl = x
  · rw [if_pos hhead] at hempty
    have hlists' := hlists
      (Function.update s.blocks fl (Function.update (s.blocks fl) sl (nextFree s.mem x)))
      fun fl' sl' => by rw [table_update, if_pos hhead]
    by_cases hend : nextFree s.mem x = ctl
    · -- it was the only block of its list
      have hnone : ∀ a, ¬ Indexed T (insert x D) fl sl a := fun a hi => by
        have := (hl a).mpr hi
        rw [hempty.mp hend] at this
        cases this
      have hsecond : ∀ fl' sl', fl' < 25 → sl' < 32 →
          ((Function.update s.slBitmap fl (s.slBitmap fl &&& ~~~(1#32 <<< sl)) fl').getLsbD sl' =
            true ↔ ∃ a, Indexed T (insert x D) fl' sl' a) := by
        intro fl' sl' hfl' hsl'
        by_cases hf : fl' = fl
        · subst hf
          rw [Function.update_self, Bitmap.getLsbD_clear _ hsl]
          by_cases hsl'' : sl' = sl
          · subst hsl''
            rw [decide_eq_true rfl]
            exact iff_of_false (by simp) fun ⟨a, hi⟩ => hnone a hi
          · rw [decide_eq_false hsl'', Bool.not_false, Bool.true_and, h.second fl' sl' hfl' hsl']
            simp only [hother fun hc => hsl'' hc.2]
        · rw [Function.update_of_ne hf, h.second fl' sl' hfl' hsl']
          simp only [hother fun hc => hf hc.1]
      by_cases hzero : s.slBitmap fl &&& ~~~(1#32 <<< sl) = 0
      · -- there is no list with the same first index, so that its bit goes as well
        refine ⟨⟨unlinked s.mem x, s.flBitmap &&& ~~~(1#32 <<< fl),
          Function.update s.slBitmap fl (s.slBitmap fl &&& ~~~(1#32 <<< sl)), _⟩, ?_,
          ⟨hlists', hsecond, fun fl' => ?_⟩, hmem⟩
        · unfold removeFreeBlock
          simp only [if_neg hguard, if_pos hhead, if_pos hend, Function.update_self, if_pos hzero]
          rfl
        · simp only
          rw [Bitmap.getLsbD_clear _ (by omega)]
          by_cases hf : fl' = fl
          · subst hf
            rw [Function.update_self, decide_eq_true rfl]
            exact iff_of_false (by simp) fun hc => hc.2 hzero
          · rw [Function.update_of_ne hf, decide_eq_false hf, Bool.not_false, Bool.true_and]
            exact h.first fl'
      · refine ⟨⟨unlinked s.mem x, s.flBitmap,
          Function.update s.slBitmap fl (s.slBitmap fl &&& ~~~(1#32 <<< sl)), _⟩, ?_,
          ⟨hlists', hsecond, fun fl' => ?_⟩, hmem⟩
        · unfold removeFreeBlock
          simp only [if_neg hguard, if_pos hhead, if_pos hend, Function.update_self, if_neg hzero]
          rfl
        · simp only
          rw [h.first fl']
          by_cases hf : fl' = fl
          · subst hf
            have hbit := (h.second fl' sl hfl hsl).mpr ⟨x, hx⟩
            rw [Function.update_self]
            exact iff_of_true ⟨hfl, Bitmap.ne_zero_iff.mpr ⟨sl, hbit⟩⟩ ⟨hfl, hzero⟩
          · rw [Function.update_of_ne hf]
    · -- the next block is the head now
      refine ⟨⟨unlinked s.mem x, s.flBitmap, s.slBitmap, _⟩, ?_,
        ⟨hlists', hkept fun hnil => hend (hempty.mpr hnil), h.first⟩, hmem⟩
      unfold removeFreeBlock
      simp only [if_neg hguard, if_pos hhead, if_neg hend]
      rfl
  · -- the head stays, and with it the list is not empty
    have hne : l ≠ [] := by
      intro hnil
      rw [if_neg hhead] at hempty
      obtain ⟨l₀, hlink₀, -, hl₀⟩ := h.lists fl sl hfl hsl
      have hempty₀ := hlink₀.head_eq_null_iff (Listed.control_notMem hP hl₀)
      have hxl := (hl₀ x).mpr hx
      rw [hempty₀.mp (hempty.mpr hnil)] at hxl
      cases hxl
    refine ⟨⟨unlinked s.mem x, s.flBitmap, s.slBitmap, s.blocks⟩, ?_,
      ⟨hlists s.blocks fun fl' sl' => ?_, hkept hne, h.first⟩, hmem⟩
    · unfold removeFreeBlock
      simp only [if_neg hguard, if_neg hhead]
      rfl
    · rw [if_neg hhead]
      by_cases hsame : fl' = fl ∧ sl' = sl
      · rw [if_pos hsame, hsame.1, hsame.2]
      · rw [if_neg hsame]

end Unlink

/-! ### The search -/

/-- A list with a block begins with one. -/
theorem Listed.head_indexed (h : Listed ctl D s T) (hP : Placed ctl T)
    (hsome : ∃ a, Indexed T D fl sl a) : Indexed T D fl sl (s.blocks fl sl) := by
  obtain ⟨a, ha⟩ := hsome
  obtain ⟨hfl, hsl⟩ := ha.lt hP
  obtain ⟨l, hlink, -, hl⟩ := h.lists fl sl hfl hsl
  have hmem := (hl a).mpr ha
  refine (Listed.head_node hl hlink).resolve_left fun hc => ?_
  rw [(hlink.head_eq_null_iff (Listed.control_notMem hP hl)).mp hc] at hmem
  cases hmem

theorem ffs_toNat {m : BitVec 32} (h : m ≠ 0) : (ffs m).toNat = m.ctz.toNat := by
  unfold ffs
  rw [if_neg h, Int.toNat_natCast]

/-- **The search** ends with a block of the first class that has one, from the given class on. -/
theorem searchSuitableBlock_spec (sl : ℕ) (h : Listed ctl D s T) (hP : Placed ctl T)
    (hfl : fl < 25) :
    (searchSuitableBlock s fl sl = some (0, fl, sl) ∧
      ∀ fl' sl' a, Indexed T D fl' sl' a → ¬ ClassLE (fl, sl) (fl', sl')) ∨
    ∃ b fl' sl', searchSuitableBlock s fl sl = some (b, fl', sl') ∧ Indexed T D fl' sl' b ∧
      ClassLE (fl, sl) (fl', sl') ∧ ∀ fl₂ sl₂ a, Indexed T D fl₂ sl₂ a →
        ClassLE (fl, sl) (fl₂, sl₂) → ClassLE (fl', sl') (fl₂, sl₂) := by
  have hbit : ∀ {fl sl a}, Indexed T D fl sl a → (s.slBitmap fl).getLsbD sl = true := fun hi =>
    (h.second _ _ (hi.lt hP).1 (hi.lt hP).2).mpr ⟨_, hi⟩
  have hfirst : ∀ {fl sl a}, Indexed T D fl sl a → s.flBitmap.getLsbD fl = true := fun hi =>
    (h.first _).mpr ⟨(hi.lt hP).1, Bitmap.ne_zero_iff.mpr ⟨_, hbit hi⟩⟩
  unfold searchSuitableBlock
  rw [if_neg (Nat.not_le.mpr hfl)]
  simp only
  by_cases hmap : s.slBitmap fl &&& (BitVec.allOnes 32 <<< sl) ≠ 0
  · -- a list with the same first index
    right
    have hmem := Bitmap.ctz_mem hmap
    rw [Bitmap.getLsbD_from, Bool.and_eq_true, decide_eq_true_eq] at hmem
    rw [if_pos hmap, ffs_toNat hmap]
    have hsome := (h.second fl _ hfl (Bitmap.ctz_lt hmap)).mp hmem.2
    refine ⟨_, _, _, rfl, h.head_indexed hP hsome, Or.inr ⟨rfl, hmem.1⟩, fun fl₂ sl₂ a hi hle => ?_⟩
    rcases hle with hlt | ⟨heq, hle⟩
    · exact Or.inl hlt
    · simp only at heq hle
      subst heq
      refine Or.inr ⟨rfl, Bitmap.ctz_le ?_⟩
      rw [Bitmap.getLsbD_from, hbit hi, decide_eq_true hle]
      rfl
  · rw [if_neg hmap]
    -- what is left has a later first index
    have hsame : ∀ sl₂ a, Indexed T D fl sl₂ a → ¬ sl ≤ sl₂ := by
      intro sl₂ a hi hle
      refine hmap (Bitmap.ne_zero_iff.mpr ⟨sl₂, ?_⟩)
      rw [Bitmap.getLsbD_from, hbit hi, decide_eq_true hle]
      rfl
    have hlater : ∀ {fl₂ sl₂ a}, Indexed T D fl₂ sl₂ a → ClassLE (fl, sl) (fl₂, sl₂) →
        (s.flBitmap &&& (BitVec.allOnes 32 <<< (fl + 1))).getLsbD fl₂ = true := by
      intro fl₂ sl₂ a hi hle
      rcases hle with hlt | ⟨heq, hle⟩
      · rw [Bitmap.getLsbD_from, hfirst hi, decide_eq_true (Nat.succ_le_of_lt hlt)]
        rfl
      · simp only at heq hle
        subst heq
        exact absurd hle (hsame sl₂ a hi)
    by_cases hmap' : s.flBitmap &&& (BitVec.allOnes 32 <<< (fl + 1)) = 0
    · left
      rw [if_pos hmap']
      refine ⟨rfl, fun fl₂ sl₂ a hi hle => ?_⟩
      have hset := hlater hi hle
      rw [Bitmap.eq_zero_iff.mp hmap' fl₂] at hset
      cases hset
    · -- the first later index with a list
      right
      have hmem := Bitmap.ctz_mem hmap'
      rw [Bitmap.getLsbD_from, Bool.and_eq_true, decide_eq_true_eq, h.first] at hmem
      obtain ⟨hle, hlt25, hne⟩ := hmem
      rw [if_neg hmap', ffs_toNat hmap', if_neg (not_or.mpr ⟨Nat.not_le.mpr hlt25, hne⟩),
        ffs_toNat hne]
      have hsome := (h.second _ _ hlt25 (Bitmap.ctz_lt hne)).mp (Bitmap.ctz_mem hne)
      refine ⟨_, _, _, rfl, h.head_indexed hP hsome, Or.inl hle, fun fl₂ sl₂ a hi hle₂ => ?_⟩
      have hctz := Bitmap.ctz_le (hlater hi hle₂)
      rcases Nat.eq_or_lt_of_le hctz with heq | hlt
      · refine Or.inr ⟨heq, Bitmap.ctz_le ?_⟩
        simp only
        rw [heq]
        exact hbit hi
      · exact Or.inl hlt

/-! ### By the size of the block -/

/-- The lists when only the headers and links of the heap change. `X` is the heap before or
after. -/
theorem Listed.congr {X : Tags} (h : Listed ctl D s T) (hP : Placed ctl X)
    (hiff : ∀ fl sl a, Indexed T' D' fl sl a ↔ Indexed T D fl sl a)
    (hX : ∀ fl sl a, Indexed T D fl sl a → ∃ t, X a = some t ∧ t.size ≠ 0)
    (hmem : Set.EqOn mem' s.mem (Meta X)ᶜ) : Listed ctl D' { s with mem := mem' } T' := by
  refine ⟨fun fl sl hfl hsl => ?_, fun fl sl hfl hsl => ?_, h.first⟩
  · obtain ⟨l, hlink, hnodup, hl⟩ := h.lists fl sl hfl hsl
    refine ⟨l, hlink.congr fun y hy => ?_, hnodup, fun a => (hl a).trans (hiff fl sl a).symm⟩
    obtain ⟨t, hy', hs⟩ := hX fl sl y ((hl y).mp hy)
    have hsame : ∀ i, y + 16 ≤ i → i < y + 32 → mem' i = s.mem i := fun i hlo hhi =>
      hmem (hP.fields_notMem_meta hy' hs hlo hhi)
    exact ⟨loadWord_congr fun i hlo hhi => hsame i hlo (by omega),
      loadWord_congr fun i hlo hhi => hsame i (by omega) (by omega)⟩
  · simp only [hiff]
    exact h.second fl sl hfl hsl

/-- The lists when nothing of them changes. -/
theorem Listed.write (h : Listed ctl D s T) (hmem : Set.EqOn mem' s.mem (Fields ctl T)) :
    Listed ctl D { s with mem := mem' } T := by
  refine ⟨fun fl sl hfl hsl => ?_, h.second, h.first⟩
  obtain ⟨l, hlink, hnodup, hl⟩ := h.lists fl sl hfl hsl
  refine ⟨l, hlink.congr fun y hy => ?_, hnodup, hl⟩
  have hnode : Node ctl T y := Node.of_indexed ((hl y).mp hy)
  have hfields := hnode.mem_fields
  exact ⟨loadWord_congr fun i hlo hhi => hmem (hfields i (by omega) (by omega)),
    loadWord_congr fun i hlo hhi => hmem (hfields i (by omega) (by omega))⟩

/-- All lists are empty at first. -/
theorem controlConstruct_listed (mem : ByteMemory.Memory) :
    Listed ctl ∅ (controlConstruct ctl mem) fun _ => none := by
  have hnone : ∀ fl sl a, ¬ Indexed (fun _ => none) ∅ fl sl a := by
    rintro fl sl a ⟨-, t, ha, -⟩
    cases ha
  refine ⟨fun fl sl _ _ => ⟨[], rfl, List.nodup_nil, fun a => ?_⟩, fun fl sl _ _ => ?_,
    fun fl => ?_⟩
  · exact iff_of_false List.not_mem_nil (hnone fl sl a)
  · exact iff_of_false (by simp [controlConstruct]) fun ⟨a, ha⟩ => hnone fl sl a ha
  · exact iff_of_false (by simp [controlConstruct]) (by simp [controlConstruct])

section BySize

variable (hP : Placed ctl T) (h : Listed ctl D s T) (hm : Holds T L s.mem) (hL : L ⊆ Frees T)
  (hx : T x = some t) (hfree : t.free = true) (hs : t.size ≠ 0)
include hP h hm hL hx hfree hs

theorem blockRemove_spec (hD : x ∉ D) : ∃ s', blockRemove ctl s x = some s' ∧
    Listed ctl (insert x D) s' T ∧ Holds T L s'.mem ∧ Set.EqOn s'.mem s.mem (Fields ctl T)ᶜ := by
  obtain ⟨fl, sl, hclass⟩ : ∃ fl sl, mappingInsert t.size = (fl, sl) := ⟨_, _, rfl⟩
  obtain ⟨s', hrem, hlisted, heq⟩ :=
    removeFreeBlock_spec hP h ⟨hD, t, hx, hfree, hs, hclass⟩
  refine ⟨s', ?_, hlisted, hm.congr hL fun i hi => heq ?_, heq⟩
  · unfold blockRemove
    rw [blockSize_eq (hm.tag hx) (hP.four_dvd hx), hclass]
    exact hrem
  · exact Set.disjoint_left.mp hP.fields_disjoint (Or.inr hi)

theorem blockInsert_spec (hD : x ∈ D) : ∃ s', blockInsert ctl s x = some s' ∧
    Listed ctl (D \ {x}) s' T ∧ Holds T L s'.mem ∧ Set.EqOn s'.mem s.mem (Fields ctl T)ᶜ := by
  obtain ⟨fl, sl, hclass⟩ : ∃ fl sl, mappingInsert t.size = (fl, sl) := ⟨_, _, rfl⟩
  obtain ⟨s', hins, hlisted, heq⟩ := insertFreeBlock_spec hP h hx hfree hs hD hclass
  refine ⟨s', ?_, hlisted, hm.congr hL fun i hi => heq ?_, heq⟩
  · unfold blockInsert
    rw [blockSize_eq (hm.tag hx) (hP.four_dvd hx), hclass]
    exact hins
  · exact Set.disjoint_left.mp hP.fields_disjoint (Or.inr hi)

end BySize

end Tjost.TwoLevel
