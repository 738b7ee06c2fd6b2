import Mathlib.Algebra.Order.BigOperators.Group.List
import Mathlib.Order.Interval.Finset.Nat
import Mathlib.Tactic.Ring

/-!
# The TLSF allocator, as its callers see it

The heap that `tlsf.c` manages is the list of its live blocks. Where the
allocator finds room, and whether it finds any, depends on its free lists; a call
therefore takes the outcome as an argument, an `Answer`, which is arbitrary as
long as it is possible: a granted block lies apart from every other live block
(`Block.Fits`). What is done with an outcome follows `tlsf_malloc`,
`tlsf_realloc` and `tlsf_free`.

Live blocks are disjoint pieces of a 64-bit address space, so the sum of their
sizes is a 64-bit number (`Heap.total_lt`).
-/

namespace Tjost

/-- An allocated block: its address and its `block_size`. -/
structure Block where
  ptr : UInt64
  size : UInt64
  deriving DecidableEq, Repr

/-- Two blocks with different addresses that do not overlap. -/
def Block.Apart (a b : Block) : Prop :=
  a.ptr ≠ b.ptr ∧ (a.ptr.toNat + a.size.toNat ≤ b.ptr.toNat ∨
    b.ptr.toNat + b.size.toNat ≤ a.ptr.toNat)

instance (a b : Block) : Decidable (a.Apart b) :=
  inferInstanceAs (Decidable (_ ∧ _))

/-- The block lies in the address space, not at `NULL`. -/
def Block.InSpace (b : Block) : Prop :=
  b.ptr ≠ 0 ∧ b.ptr.toNat + b.size.toNat ≤ 2 ^ 64

instance (b : Block) : Decidable b.InSpace :=
  inferInstanceAs (Decidable (_ ∧ _))

/-- There is room for the block among the live ones. -/
def Block.Fits (b : Block) (live : List Block) : Prop :=
  b.InSpace ∧ ∀ c ∈ live, b.Apart c

instance (b : Block) (live : List Block) : Decidable (b.Fits live) :=
  inferInstanceAs (Decidable (_ ∧ _))

namespace Tlsf

/-- What the search of an allocating call ends in. -/
inductive Answer
  /-- No block is large enough. -/
  | refuse
  /-- A block from the free lists. -/
  | grant (block : Block)
  /-- The block of a reallocation keeps its address and gets another size. -/
  | inPlace (size : UInt64)
  deriving DecidableEq, Repr

/-- `tlsf_block_size`. -/
def blockSize (live : List Block) (ptr : UInt64) : UInt64 :=
  if ptr = 0 then 0
  else ((live.find? fun b => b.ptr == ptr).map Block.size).getD 0

/-- `tlsf_malloc`. Answers `NULL` where the search fails. -/
def malloc (answer : Answer) (live : List Block) : List Block × UInt64 :=
  match answer with
  | .grant block => (block :: live, block.ptr)
  | .refuse | .inPlace _ => (live, 0)

/-- `tlsf_free`. -/
def free (ptr : UInt64) (live : List Block) : List Block :=
  if ptr = 0 then live else live.filter fun b => b.ptr != ptr

/-- `tlsf_realloc`. A block that cannot be resized where it is is allocated again,
copied and freed; a request that cannot be satisfied leaves the block. -/
def realloc (answer : Answer) (ptr size : UInt64) (live : List Block) : List Block × UInt64 :=
  if ptr ≠ 0 ∧ size = 0 then (free ptr live, 0)
  else if ptr = 0 then malloc answer live
  else
    match answer with
    | .refuse => (live, 0)
    | .grant block => (free ptr (malloc (.grant block) live).1, block.ptr)
    | .inPlace size => (⟨ptr, size⟩ :: free ptr live, ptr)

/-- The answers that a search about the block at `ptr` can end in. -/
def Answer.Possible (live : List Block) (ptr : UInt64) : Answer → Prop
  | .refuse => True
  | .grant block => block.Fits live
  | .inPlace size => Block.Fits ⟨ptr, size⟩ (free ptr live)

instance (live : List Block) (ptr : UInt64) (answer : Answer) :
    Decidable (answer.Possible live ptr) := by
  cases answer <;> unfold Answer.Possible <;> infer_instance

end Tlsf

/-! ### Live blocks -/

/-- The live blocks lie in the address space, apart from each other. -/
structure Heap (live : List Block) : Prop where
  inSpace : ∀ b ∈ live, b.InSpace
  apart : live.Pairwise Block.Apart

/-- The sum of the sizes of the live blocks. -/
def totalSize (live : List Block) : ℕ :=
  (live.map fun b => b.size.toNat).sum

@[simp] theorem totalSize_cons (b : Block) (live : List Block) :
    totalSize (b :: live) = b.size.toNat + totalSize live := rfl

namespace Heap

variable {live : List Block} {b : Block} {ptr : UInt64}

theorem nil : Heap [] := ⟨fun _ hb => absurd hb List.not_mem_nil, List.Pairwise.nil⟩

theorem cons (h : Heap live) (hb : b.Fits live) : Heap (b :: live) where
  inSpace c hc := by
    rcases List.mem_cons.mp hc with rfl | hc
    · exact hb.1
    · exact h.inSpace c hc
  apart := List.pairwise_cons.mpr ⟨hb.2, h.apart⟩

theorem sublist {live' : List Block} (h : Heap live) (hsub : live'.Sublist live) : Heap live' :=
  ⟨fun b hb => h.inSpace b (hsub.subset hb), h.apart.sublist hsub⟩

theorem free (h : Heap live) (ptr : UInt64) : Heap (Tlsf.free ptr live) := by
  unfold Tlsf.free
  split
  · exact h
  · exact h.sublist List.filter_sublist

/-- The bytes that a block covers. -/
private def cells (b : Block) : Finset ℕ :=
  Finset.Ico b.ptr.toNat (b.ptr.toNat + b.size.toNat)

private def allCells (live : List Block) : Finset ℕ :=
  live.foldr (fun b s => cells b ∪ s) ∅

private theorem mem_allCells {n : ℕ} (hn : n ∈ allCells live) : ∃ b ∈ live, n ∈ cells b := by
  induction live with
  | nil => simp [allCells] at hn
  | cons b live ih =>
    rcases Finset.mem_union.mp hn with hn | hn
    · exact ⟨b, List.mem_cons_self, hn⟩
    · obtain ⟨c, hc, hnc⟩ := ih hn
      exact ⟨c, List.mem_cons_of_mem _ hc, hnc⟩

private theorem card_allCells (h : live.Pairwise Block.Apart) :
    (allCells live).card = totalSize live := by
  induction live with
  | nil => rfl
  | cons b live ih =>
    obtain ⟨hb, hlive⟩ := List.pairwise_cons.mp h
    have hdisj : Disjoint (cells b) (allCells live) := by
      rw [Finset.disjoint_left]
      intro n hn hall
      obtain ⟨c, hc, hnc⟩ := mem_allCells hall
      have hapart := (hb c hc).2
      unfold cells at hn hnc
      rw [Finset.mem_Ico] at hn hnc
      omega
    change (cells b ∪ allCells live).card = _
    rw [Finset.card_union_of_disjoint hdisj, ih hlive, totalSize_cons]
    congr 1
    unfold cells
    rw [Nat.card_Ico]
    omega

/-- Disjoint blocks of a 64-bit address space, none of them at `NULL`. -/
theorem total_lt (h : Heap live) : totalSize live < 2 ^ 64 := by
  have hsub : allCells live ⊆ Finset.Ico 1 (2 ^ 64) := by
    intro n hn
    obtain ⟨b, hb, hnb⟩ := mem_allCells hn
    obtain ⟨hnull, hend⟩ := h.inSpace b hb
    have hpos : 0 < b.ptr.toNat := by
      rw [Nat.pos_iff_ne_zero]
      intro hzero
      exact hnull (UInt64.toNat_inj.mp hzero)
    unfold cells at hnb
    rw [Finset.mem_Ico] at hnb ⊢
    omega
  have hcard := Finset.card_le_card hsub
  rw [card_allCells h.apart, Nat.card_Ico] at hcard
  omega

/-- Freeing a pointer takes its block off the sum, if it has one. -/
theorem totalSize_free (h : Heap live) (ptr : UInt64) :
    totalSize (Tlsf.free ptr live) + (Tlsf.blockSize live ptr).toNat = totalSize live := by
  unfold Tlsf.free Tlsf.blockSize
  by_cases hnull : ptr = 0
  · rw [if_pos hnull, if_pos hnull]
    rfl
  · rw [if_neg hnull, if_neg hnull]
    obtain ⟨-, hapart⟩ := h
    induction live with
    | nil => rfl
    | cons b live ih =>
      obtain ⟨hb, hlive⟩ := List.pairwise_cons.mp hapart
      by_cases hptr : b.ptr = ptr
      · -- the block is at the head, and no other has its address
        have hkeep : live.filter (fun c => c.ptr != ptr) = live := by
          refine List.filter_eq_self.mpr fun c hc => ?_
          have hne := (hb c hc).1
          rw [hptr] at hne
          simpa using hne.symm
        rw [List.filter_cons_of_neg (by simp [hptr]), hkeep,
          List.find?_cons_of_pos (by simp [hptr]), totalSize_cons]
        exact Nat.add_comm _ _
      · rw [List.filter_cons_of_pos (by simp [hptr]), List.find?_cons_of_neg (by simp [hptr]),
          totalSize_cons, totalSize_cons, ← ih hlive, Nat.add_assoc]

/-- Freeing looks at every block on its own. -/
theorem free_cons_of_ne (hptr : b.ptr ≠ ptr) :
    Tlsf.free ptr (b :: live) = b :: Tlsf.free ptr live := by
  unfold Tlsf.free
  split
  · rfl
  · rw [List.filter_cons_of_pos (by simp [hptr])]

theorem blockSize_cons_self (hb : b.InSpace) : Tlsf.blockSize (b :: live) b.ptr = b.size := by
  unfold Tlsf.blockSize
  rw [if_neg hb.1, List.find?_cons_of_pos (by simp)]
  rfl

theorem blockSize_of_mem (h : Heap live) (hb : b ∈ live) :
    Tlsf.blockSize live b.ptr = b.size := by
  obtain ⟨hspace, hapart⟩ := h
  unfold Tlsf.blockSize
  rw [if_neg (hspace b hb).1]
  induction live with
  | nil => exact absurd hb List.not_mem_nil
  | cons c live ih =>
    obtain ⟨hc, hrest⟩ := List.pairwise_cons.mp hapart
    by_cases hptr : c.ptr = b.ptr
    · -- no other block has the address
      obtain rfl : c = b := by
        by_contra hne
        rcases List.mem_cons.mp hb with heq | hmem
        · exact hne heq.symm
        · exact (hc b hmem).1 hptr
      rw [List.find?_cons_of_pos (by simp)]
      rfl
    · rw [List.find?_cons_of_neg (by simp [hptr])]
      have hmem : b ∈ live := (List.mem_cons.mp hb).resolve_left fun hc => hptr (hc ▸ rfl)
      exact ih hmem (fun d hd => hspace d (List.mem_cons_of_mem c hd)) hrest

@[simp] theorem blockSize_null : Tlsf.blockSize live 0 = 0 := rfl

theorem blockSize_le_total (h : Heap live) (ptr : UInt64) :
    (Tlsf.blockSize live ptr).toNat ≤ totalSize live := by
  have := h.totalSize_free ptr
  omega

/-- `tlsf_malloc` adds the block that it answers with. -/
theorem malloc_spec (h : Heap live) {answer : Tlsf.Answer} (hpos : answer.Possible live 0) :
    Heap (Tlsf.malloc answer live).1 ∧
      totalSize (Tlsf.malloc answer live).1 =
        totalSize live +
          (Tlsf.blockSize (Tlsf.malloc answer live).1 (Tlsf.malloc answer live).2).toNat := by
  cases answer with
  | refuse => exact ⟨h, rfl⟩
  | inPlace size => exact ⟨h, rfl⟩
  | grant block =>
    have hfits : block.Fits live := hpos
    refine ⟨h.cons hfits, ?_⟩
    change totalSize (block :: live) =
      totalSize live + (Tlsf.blockSize (block :: live) block.ptr).toNat
    rw [blockSize_cons_self hfits.1, totalSize_cons, Nat.add_comm]

/-- **`tlsf_realloc`** exchanges the block that it is given for the one that it
answers with, unless it refuses a nonzero length: then it keeps the old block and
answers `NULL`. -/
theorem realloc_spec (h : Heap live) {answer : Tlsf.Answer} (size : UInt64)
    (howned : ptr = 0 ∨ ∃ b ∈ live, b.ptr = ptr) (hpos : answer.Possible live ptr) :
    Heap (Tlsf.realloc answer ptr size live).1 ∧
      (¬ (ptr ≠ 0 ∧ size ≠ 0 ∧ answer = .refuse) →
        totalSize (Tlsf.realloc answer ptr size live).1 + (Tlsf.blockSize live ptr).toNat =
          totalSize live + (Tlsf.blockSize (Tlsf.realloc answer ptr size live).1
            (Tlsf.realloc answer ptr size live).2).toNat) ∧
      (ptr ≠ 0 → size ≠ 0 → answer = .refuse →
        Tlsf.realloc answer ptr size live = (live, 0)) := by
  unfold Tlsf.realloc
  by_cases hnull : ptr = 0
  · subst hnull
    rw [if_neg (fun hc => hc.1 rfl), if_pos rfl]
    obtain ⟨hheap, htotal⟩ := h.malloc_spec hpos
    exact ⟨hheap, fun _ => htotal, fun hne => absurd rfl hne⟩
  · by_cases hsize : size = 0
    · rw [if_pos ⟨hnull, hsize⟩]
      exact ⟨h.free ptr, fun _ => h.totalSize_free ptr, fun _ hne => absurd hsize hne⟩
    · rw [if_neg (fun hc => hsize hc.2), if_neg hnull]
      obtain ⟨c, hc, hcptr⟩ := howned.resolve_left hnull
      cases answer with
      | refuse => exact ⟨h, fun hne => absurd ⟨hnull, hsize, rfl⟩ hne, fun _ _ _ => rfl⟩
      | grant block =>
        have hfits : block.Fits live := hpos
        have hne : block.ptr ≠ ptr := hcptr ▸ (hfits.2 c hc).1
        have hfree : Tlsf.free ptr (block :: live) = block :: Tlsf.free ptr live :=
          free_cons_of_ne hne
        refine ⟨(h.cons hfits).free ptr, fun _ => ?_, fun _ _ hrefuse => by cases hrefuse⟩
        change totalSize (Tlsf.free ptr (block :: live)) + _ =
          _ + (Tlsf.blockSize (Tlsf.free ptr (block :: live)) block.ptr).toNat
        rw [hfree, blockSize_cons_self hfits.1, totalSize_cons]
        have htotal := h.totalSize_free ptr
        omega
      | inPlace n =>
        have hfits : Block.Fits ⟨ptr, n⟩ (Tlsf.free ptr live) := hpos
        refine ⟨(h.free ptr).cons hfits, fun _ => ?_, fun _ _ hrefuse => by cases hrefuse⟩
        have hself : Tlsf.blockSize (⟨ptr, n⟩ :: Tlsf.free ptr live) ptr = n :=
          blockSize_cons_self hfits.1
        change totalSize (⟨ptr, n⟩ :: Tlsf.free ptr live) + _ = _ + (Tlsf.blockSize _ ptr).toNat
        rw [hself, totalSize_cons]
        have htotal := h.totalSize_free ptr
        change n.toNat + totalSize (Tlsf.free ptr live) + _ = _
        omega

end Heap

end Tjost
