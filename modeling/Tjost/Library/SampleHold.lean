import Mathlib.Data.List.Basic

/-!
# Signals as changes

A signal is written down as its changes: the frames at which it is not the value
kept so far, each with the new value (`changes`). It is read back by sample and
hold (`hold`).

What is read back is the kept value (`hold_changes`), which is the sample up to the
comparison `r` of the writer (`rel_kept_succ`). Writing and reading in pieces, with
the kept value carried over, is `hold_changes_end`.
-/

namespace SampleHold

variable {α : Type*} (r : α → α → Prop) [DecidableRel r] (s : ℕ → α) (v : α)

/-- The value kept after `n` samples of `s`, from the value `v` on. A sample that
`r` takes for the kept value is not a change. -/
def kept : ℕ → α
  | 0 => v
  | n + 1 => if r (s n) (kept n) then kept n else s n

/-- The changes among the first `n` samples. -/
def changes : ℕ → List (ℕ × α)
  | 0 => []
  | n + 1 => changes n ++ if r (s n) (kept r s v n) then [] else [(n, s n)]

/-- The value that holds at a frame: that of the last change that is not behind it,
or the value from before. -/
def hold (cs : List (ℕ × α)) (k : ℕ) : α :=
  ((cs.filter fun c => c.1 ≤ k).getLast?.map Prod.snd).getD v

variable {r s v}

theorem kept_succ (n : ℕ) :
    kept r s v (n + 1) = if r (s n) (kept r s v n) then kept r s v n else s n := rfl

theorem changes_succ (n : ℕ) : changes r s v (n + 1) =
    changes r s v n ++ if r (s n) (kept r s v n) then [] else [(n, s n)] := rfl

/-- A sample is the value kept after it, as far as `r` can tell. -/
theorem rel_kept_succ {k : ℕ} (hself : r (s k) (s k)) : r (s k) (kept r s v (k + 1)) := by
  rw [kept_succ]
  split
  · next h => exact h
  · exact hself

theorem lt_of_mem_changes {n : ℕ} {c : ℕ × α} (hc : c ∈ changes r s v n) : c.1 < n := by
  induction n with
  | zero => exact absurd hc List.not_mem_nil
  | succ n ih =>
    rw [changes_succ] at hc
    rcases List.mem_append.mp hc with hc | hc
    · exact Nat.lt_succ_of_lt (ih hc)
    · split at hc
      · exact absurd hc List.not_mem_nil
      · rw [List.mem_singleton.mp hc]
        exact Nat.lt_succ_self n

/-- The changes come in the order of their frames. -/
theorem changes_pairwise (n : ℕ) : (changes r s v n).Pairwise fun c d => c.1 < d.1 := by
  induction n with
  | zero => exact List.Pairwise.nil
  | succ n ih =>
    refine List.pairwise_append.mpr ⟨ih, ?_, ?_⟩
    · split
      · exact List.Pairwise.nil
      · exact List.pairwise_singleton _ _
    · intro c hc d hd
      split at hd
      · exact absurd hd List.not_mem_nil
      · rw [List.mem_singleton.mp hd]
        exact lt_of_mem_changes hc

/-! ### Reading back -/

theorem hold_append_of_lt {cs ds : List (ℕ × α)} {k : ℕ} (h : ∀ d ∈ ds, k < d.1) :
    hold v (cs ++ ds) k = hold v cs k := by
  have hnone : (ds.filter fun d => d.1 ≤ k) = [] := by
    refine List.filter_eq_nil_iff.mpr fun d hd hle => ?_
    exact absurd (of_decide_eq_true hle) (Nat.not_le.mpr (h d hd))
  unfold hold
  rw [List.filter_append, hnone, List.append_nil]

theorem hold_append_singleton {cs : List (ℕ × α)} {c : ℕ × α} {k : ℕ} (h : c.1 ≤ k) :
    hold v (cs ++ [c]) k = c.2 := by
  have hone : ([c].filter fun d => d.1 ≤ k) = [c] :=
    List.filter_cons_of_pos (decide_eq_true h)
  unfold hold
  rw [List.filter_append, hone, List.getLast?_concat]
  rfl

/-- After its last sample a signal holds the kept value. -/
theorem hold_changes_end {n k : ℕ} (h : n ≤ k + 1) : hold v (changes r s v n) k = kept r s v n := by
  induction n with
  | zero => rfl
  | succ n ih =>
    rw [kept_succ, changes_succ]
    split
    · rw [List.append_nil]
      exact ih (Nat.le_of_succ_le h)
    · exact hold_append_singleton (Nat.le_of_succ_le_succ h)

/-- **Reading back** gives the kept value at every frame. -/
theorem hold_changes {n k : ℕ} (h : k < n) :
    hold v (changes r s v n) k = kept r s v (k + 1) := by
  induction n with
  | zero => exact absurd h (Nat.not_lt_zero k)
  | succ n ih =>
    rcases Nat.lt_succ_iff_lt_or_eq.mp h with hlt | rfl
    · -- the frame `n` is behind `k`
      have hbehind : ∀ d ∈ (if r (s n) (kept r s v n) then [] else [(n, s n)]), k < d.1 := by
        intro d hd
        split at hd
        · exact absurd hd List.not_mem_nil
        · rw [List.mem_singleton.mp hd]
          exact hlt
      rw [changes_succ, hold_append_of_lt hbehind]
      exact ih hlt
    · exact hold_changes_end (Nat.le_refl _)

end SampleHold
