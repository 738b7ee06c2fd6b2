import Mathlib.Data.List.TakeWhile
import Mathlib.Order.Lattice
import Mathlib.Tactic.Common

/-!
# Queues sorted by key, ties in arrival order

A queue whose entries carry a key from a linear order and an arrival number is
kept in the order `Precedes`: smaller key first, and among equal keys the
earlier arrival first.

* `insertStable` puts an entry behind everything whose key is not larger. An
  entry that arrives last keeps the queue in order
  (`pairwise_precedes_insertStable`).
* On a queue in order, a loop that stops at the first entry failing a downward
  closed test has seen exactly the entries that pass it
  (`takeWhile_eq_filter_of_downward`, `dropWhile_eq_filter_of_downward`).
-/

namespace StableQueue

variable {α κ : Type*}

/-! ### Prefixes selected by a downward closed test -/

section Downward

variable {p : α → Bool} {l : List α}

theorem filter_eq_nil_of_head_fails {a : α}
    (h : (a :: l).Pairwise fun x y => p y = true → p x = true) (ha : p a = false) :
    l.filter p = [] := by
  rw [List.filter_eq_nil_iff]
  intro b hb hpb
  have := (List.pairwise_cons.mp h).1 b hb hpb
  simp [ha] at this

theorem takeWhile_eq_filter_of_downward
    (h : l.Pairwise fun x y => p y = true → p x = true) :
    l.takeWhile p = l.filter p := by
  induction l with
  | nil => rfl
  | cons a l ih =>
    by_cases ha : p a = true
    · rw [List.takeWhile_cons_of_pos ha, List.filter_cons_of_pos ha,
        ih (List.pairwise_cons.mp h).2]
    · rw [List.takeWhile_cons_of_neg ha, List.filter_cons_of_neg ha,
        filter_eq_nil_of_head_fails h (by simpa using ha)]

theorem dropWhile_eq_filter_of_downward
    (h : l.Pairwise fun x y => p y = true → p x = true) :
    l.dropWhile p = l.filter fun a => !p a := by
  induction l with
  | nil => rfl
  | cons a l ih =>
    by_cases ha : p a = true
    · rw [List.dropWhile_cons_of_pos ha, List.filter_cons_of_neg (by simp [ha]),
        ih (List.pairwise_cons.mp h).2]
    · -- nothing behind a failing head passes, so the filter keeps the whole list
      have hall : ∀ b ∈ a :: l, (!p b) = true := by
        intro b hb
        rcases List.mem_cons.mp hb with rfl | hb
        · simpa using ha
        · have hnil := filter_eq_nil_of_head_fails h (by simpa using ha)
          simpa using List.filter_eq_nil_iff.mp hnil b hb
      rw [List.dropWhile_cons_of_neg ha, List.filter_eq_self.mpr hall]

end Downward

/-! ### Stable insertion -/

variable [LinearOrder κ] (key : α → κ) (arrival : α → ℕ)

/-- The queue order: by key, and by arrival among equal keys. -/
def Precedes (a b : α) : Prop :=
  key a < key b ∨ key a = key b ∧ arrival a < arrival b

instance : DecidableRel (Precedes key arrival) := fun a b =>
  inferInstanceAs (Decidable (key a < key b ∨ key a = key b ∧ arrival a < arrival b))

/-- Insert `a` behind every entry whose key is not larger than its own. -/
def insertStable (a : α) (l : List α) : List α :=
  l.takeWhile (fun b => key b ≤ key a) ++ a :: l.dropWhile (fun b => key b ≤ key a)

variable {key arrival}

theorem Precedes.key_le {a b : α} (h : Precedes key arrival a b) : key a ≤ key b :=
  h.elim le_of_lt fun h => le_of_eq h.1

theorem insertStable_perm (a : α) (l : List α) : (insertStable key a l).Perm (a :: l) := by
  unfold insertStable
  refine List.perm_middle.trans ?_
  rw [List.takeWhile_append_dropWhile]

/-- A list sorted by key is downward closed for a test that only asks for a
small key. -/
theorem pairwise_downward {l : List α} (h : l.Pairwise (Precedes key arrival)) {p : κ → Bool}
    (hp : ∀ k k', k ≤ k' → p k' = true → p k = true) :
    l.Pairwise fun x y => p (key y) = true → p (key x) = true :=
  h.imp fun hxy => hp _ _ hxy.key_le

/-- **Stable insertion keeps the order**, provided the new entry arrives last. -/
theorem pairwise_precedes_insertStable {a : α} {l : List α}
    (h : l.Pairwise (Precedes key arrival)) (ha : ∀ b ∈ l, arrival b < arrival a) :
    (insertStable key a l).Pairwise (Precedes key arrival) := by
  have hdown := pairwise_downward h (p := fun k => decide (k ≤ key a))
    (by intro k k' hk hk'; simpa using hk.trans (by simpa using hk'))
  unfold insertStable
  rw [takeWhile_eq_filter_of_downward hdown, dropWhile_eq_filter_of_downward hdown]
  refine List.pairwise_append.mpr ⟨h.filter _, List.pairwise_cons.mpr ⟨?_, h.filter _⟩, ?_⟩
  · intro b hb
    have hlt : key a < key b := by simpa using (List.mem_filter.mp hb).2
    exact Or.inl hlt
  · intro b hb c hc
    obtain ⟨hbl, hba⟩ := List.mem_filter.mp hb
    have hle : key b ≤ key a := by simpa using hba
    rcases List.mem_cons.mp hc with rfl | hc
    · rcases hle.lt_or_eq with hlt | heq
      · exact Or.inl hlt
      · exact Or.inr ⟨heq, ha b hbl⟩
    · have hlt : key a < key c := by simpa using (List.mem_filter.mp hc).2
      exact Or.inl (hle.trans_lt hlt)

/-- An entry goes to the end of a list whose keys are not larger. -/
theorem insertStable_of_le {a : α} {l : List α} (h : ∀ b ∈ l, key b ≤ key a) :
    insertStable key a l = l ++ [a] := by
  have htest : ∀ b ∈ l, decide (key b ≤ key a) = true := fun b hb => decide_eq_true (h b hb)
  unfold insertStable
  rw [List.takeWhile_eq_self_iff.mpr htest, List.dropWhile_eq_nil_iff.mpr htest]

/-- Insertion, seen through a filter. -/
theorem filter_insertStable {l : List α} (h : l.Pairwise (Precedes key arrival)) (p : α → Bool)
    (a : α) :
    (insertStable key a l).filter p =
      if p a then insertStable key a (l.filter p) else l.filter p := by
  have hdown := pairwise_downward h (p := fun k => decide (k ≤ key a))
    (by intro k k' hk hk'; simpa using hk.trans (by simpa using hk'))
  have hsplit : l.filter p = (l.filter p).takeWhile (fun b => key b ≤ key a) ++
      (l.filter p).dropWhile (fun b => key b ≤ key a) := List.takeWhile_append_dropWhile.symm
  have hleft : (l.takeWhile fun b => key b ≤ key a).filter p =
      (l.filter p).takeWhile fun b => key b ≤ key a := by
    rw [takeWhile_eq_filter_of_downward hdown,
      takeWhile_eq_filter_of_downward (hdown.filter p), List.filter_filter, List.filter_filter]
    exact List.filter_congr fun b _ => Bool.and_comm _ _
  have hright : (l.dropWhile fun b => key b ≤ key a).filter p =
      (l.filter p).dropWhile fun b => key b ≤ key a := by
    rw [dropWhile_eq_filter_of_downward hdown,
      dropWhile_eq_filter_of_downward (hdown.filter p), List.filter_filter, List.filter_filter]
    exact List.filter_congr fun b _ => Bool.and_comm _ _
  unfold insertStable
  rw [List.filter_append, List.filter_cons, hleft, hright]
  split
  · rfl
  · exact hsplit.symm

end StableQueue
