import Mathlib.Data.List.Nodup
import Mathlib.Logic.Function.Basic
import Mathlib.Tactic.Common

/-!
# Doubly linked lists

A list is threaded through its nodes by two maps, `next` and `prev`. It ends at a node that is not
one of its own, which also stands in front of its first node (`Linked`, with `null` for both).

* `Linked.insert` — a node is linked in front of the first one.
* `Linked.remove` — a node is unlinked, wherever it is.

Both write the links of the neighbours, and of the end where there is no neighbour. `Linked.congr`:
the links of the nodes decide, and no others.
-/

namespace LinkedList

variable {α : Type*}

/-- The nodes from `head` on, the first of which points back to `before`. -/
def Linked (next prev : α → α) (null : α) : α → α → List α → Prop
  | _, head, [] => head = null
  | before, head, x :: l => head = x ∧ prev x = before ∧ Linked next prev null x (next x) l

section Linked

variable {next prev next' prev' : α → α} {null before head x : α} {l l₁ l₂ : List α}

/-- Only the links of the nodes are looked at. -/
theorem Linked.congr (h : Linked next prev null before head l)
    (hsame : ∀ y ∈ l, next' y = next y ∧ prev' y = prev y) :
    Linked next' prev' null before head l := by
  induction l generalizing before head with
  | nil => exact h
  | cons y l ih =>
    obtain ⟨hhead, hprev, hrest⟩ := h
    obtain ⟨hnext', hprev'⟩ := hsame y List.mem_cons_self
    refine ⟨hhead, hprev'.trans hprev, ?_⟩
    rw [hnext']
    exact ih hrest fun z hz => hsame z (List.mem_cons_of_mem y hz)

/-- The nodes in front of `x` end at `x`. -/
theorem linked_append : Linked next prev null before head (l₁ ++ x :: l₂) ↔
    Linked next prev x before head l₁ ∧ prev x = l₁.getLast?.getD before ∧
      Linked next prev null x (next x) l₂ := by
  induction l₁ generalizing before head with
  | nil => rfl
  | cons y l₁ ih =>
    have hlast : (y :: l₁).getLast?.getD before = l₁.getLast?.getD y := by
      rw [List.getLast?_cons]
      rfl
    rw [List.cons_append, hlast]
    constructor
    · rintro ⟨hhead, hprev, hrest⟩
      obtain ⟨hfront, hx, hback⟩ := ih.mp hrest
      exact ⟨⟨hhead, hprev, hfront⟩, hx, hback⟩
    · rintro ⟨⟨hhead, hprev, hfront⟩, hx, hback⟩
      exact ⟨hhead, hprev, ih.mpr ⟨hfront, hx, hback⟩⟩

/-- The list is empty if the head is its end. -/
theorem Linked.head_eq_null_iff (h : Linked next prev null before head l) (hnull : null ∉ l) :
    head = null ↔ l = [] := by
  cases l with
  | nil => exact iff_of_true h rfl
  | cons y l =>
    refine iff_of_false ?_ (List.cons_ne_nil y l)
    rintro rfl
    exact hnull (h.1 ▸ List.mem_cons_self)

/-- What a node points at is a node or the end. -/
theorem Linked.next_mem (h : Linked next prev null before head l) {y : α} (hy : y ∈ l) :
    next y = null ∨ next y ∈ l := by
  induction l generalizing before head with
  | nil => exact absurd hy List.not_mem_nil
  | cons z l ih =>
    obtain ⟨-, -, hrest⟩ := h
    rcases List.mem_cons.mp hy with rfl | hy
    · cases l with
      | nil => exact Or.inl hrest
      | cons u l => exact Or.inr (by rw [hrest.1]; simp)
    · exact (ih hrest hy).imp_right (List.mem_cons_of_mem z)

/-- What a node points back at is a node or what is in front of the list. -/
theorem Linked.prev_mem (h : Linked next prev null before head l) {y : α} (hy : y ∈ l) :
    prev y = before ∨ prev y ∈ l := by
  induction l generalizing before head with
  | nil => exact absurd hy List.not_mem_nil
  | cons z l ih =>
    obtain ⟨-, hprev, hrest⟩ := h
    rcases List.mem_cons.mp hy with rfl | hy
    · exact Or.inl hprev
    · right
      rcases ih hrest hy with hz | hmem
      · rw [hz]
        exact List.mem_cons_self
      · exact List.mem_cons_of_mem z hmem

variable [DecidableEq α]

/-- **A node in front of the first one.** -/
theorem Linked.insert (h : Linked next prev null null head l) (hnull : null ∉ l) (hx : x ∉ l)
    (hnodup : l.Nodup) :
    Linked (Function.update next x head)
      (Function.update (Function.update prev x null) head x) null null x (x :: l) := by
  cases l with
  | nil =>
    obtain rfl : head = null := h
    refine ⟨rfl, ?_, by rw [Function.update_self]; rfl⟩
    by_cases hend : x = head
    · rw [hend, Function.update_self]
    · rw [Function.update_of_ne hend, Function.update_self]
  | cons y l =>
    obtain ⟨rfl, hprev, hrest⟩ := h
    have hne : x ≠ head := fun he => hx (he ▸ List.mem_cons_self)
    refine ⟨rfl, ?_, ?_⟩
    · rw [Function.update_of_ne hne, Function.update_self]
    · rw [Function.update_self]
      refine ⟨rfl, by rw [Function.update_self], ?_⟩
      rw [Function.update_of_ne (Ne.symm hne)]
      refine hrest.congr fun z hz => ?_
      have hzx : z ≠ x := fun he => hx (he ▸ List.mem_cons_of_mem head hz)
      have hzh : z ≠ head := fun he => (List.nodup_cons.mp hnodup).1 (he ▸ hz)
      rw [Function.update_of_ne hzx, Function.update_of_ne hzh, Function.update_of_ne hzx]
      exact ⟨rfl, rfl⟩

/-- The part behind a node that is unlinked. The node in front of it is `p`. -/
theorem Linked.unlink_back {p : α} (h : Linked next prev null x (next x) l)
    (hp : p ∉ l) (hnodup : l.Nodup) :
    Linked (Function.update next p (next x)) (Function.update prev (next x) p) null p (next x)
      l := by
  cases l with
  | nil => exact h
  | cons y l =>
    obtain ⟨hy, -, hrest⟩ := h
    have hyp : y ≠ p := fun he => hp (he ▸ List.mem_cons_self)
    refine ⟨hy, ?_, ?_⟩
    · rw [hy, Function.update_self]
    · rw [Function.update_of_ne hyp]
      refine hrest.congr fun z hz => ?_
      have hzp : z ≠ p := fun he => hp (he ▸ List.mem_cons_of_mem y hz)
      have hzy : z ≠ next x := fun he => (List.nodup_cons.mp hnodup).1 (hy ▸ he ▸ hz)
      rw [Function.update_of_ne hzp, Function.update_of_ne hzy]
      exact ⟨rfl, rfl⟩

/-- **A node is unlinked.** If it is the first one, then the list begins behind it. The induction
is on the nodes in front of it; what it carries is that the node in front of all of them is none
of the others. -/
theorem Linked.remove (h : Linked next prev null before head (l₁ ++ x :: l₂))
    (hnodup : (l₁ ++ x :: l₂).Nodup) (hbefore : before ∉ l₁ ++ x :: l₂)
    (hnull : null ∉ l₁ ++ x :: l₂) :
    Linked (Function.update next (prev x) (next x)) (Function.update prev (next x) (prev x)) null
      before (if head = x then next x else head) (l₁ ++ l₂) := by
  obtain ⟨hfront, hx, hback⟩ := linked_append.mp h
  obtain ⟨hn₁, hn, hdisj⟩ := List.nodup_append.mp hnodup
  have hn₂ := (List.nodup_cons.mp hn).2
  induction l₁ generalizing before head with
  | nil =>
    obtain rfl : head = x := hfront
    have hpx : prev head = before := hx
    rw [if_pos rfl, hpx]
    exact hback.unlink_back (fun hmem => hbefore (List.mem_cons_of_mem head hmem)) hn₂
  | cons y l₁ ih =>
    obtain ⟨hy, hprev, hfront'⟩ := hfront
    obtain ⟨-, -, hrest⟩ := h
    rw [List.cons_append] at hnodup hbefore hnull
    obtain ⟨hy₁, hnodup'⟩ := List.nodup_cons.mp hnodup
    have hyx : y ≠ x := fun he => hy₁ (he ▸ List.mem_append_right l₁ List.mem_cons_self)
    have hlast : prev x = l₁.getLast?.getD y := by
      rw [hx, List.getLast?_cons]
      rfl
    have hnull' : null ∉ l₁ ++ x :: l₂ := fun hmem => hnull (List.mem_cons_of_mem y hmem)
    have hih := ih hrest hnodup' hy₁ hnull' hfront' hlast (List.nodup_cons.mp hn₁).2
      (fun a ha b hb => hdisj a (List.mem_cons_of_mem y ha) b hb)
    -- the successor of `x` is behind it, so it is not `y`
    have hsucc : next x ≠ y := by
      intro he
      cases l₂ with
      | nil => exact hnull (List.mem_cons.mpr (Or.inl (hback.symm.trans he)))
      | cons z l₂ =>
        have hz : z = y := hback.1.symm.trans he
        exact hy₁ (hz ▸ List.mem_append_right l₁ (List.mem_cons_of_mem x List.mem_cons_self))
    -- and `y` points at `x` only where it is in front of it
    have hnext : Function.update next (prev x) (next x) y =
        if next y = x then next x else next y := by
      cases l₁ with
      | nil =>
        have hnx : next y = x := hfront'
        rw [hlast, if_pos hnx]
        exact Function.update_self y (next x) next
      | cons z l₁ =>
        obtain ⟨hz, -, -⟩ := hfront'
        have hzx : next y ≠ x := by
          rw [hz]
          exact fun he => hdisj x (he ▸ by simp) x List.mem_cons_self rfl
        have hpy : y ≠ prev x := by
          intro he
          have hmem : prev x ∈ z :: l₁ := by
            rw [hlast, List.getLast?_cons, Option.getD_some]
            cases hl : l₁.getLast? with
            | none => simp
            | some u => exact List.mem_cons_of_mem z (by simpa using List.mem_of_getLast? hl)
          exact hy₁ (he ▸ List.mem_append_left (x :: l₂) hmem)
        rw [Function.update_of_ne hpy, if_neg hzx]
    rw [if_neg (hy ▸ hyx), List.cons_append]
    refine ⟨hy, ?_, ?_⟩
    · rw [Function.update_of_ne (Ne.symm hsucc)]
      exact hprev
    · rw [hnext]
      exact hih

end Linked

end LinkedList
