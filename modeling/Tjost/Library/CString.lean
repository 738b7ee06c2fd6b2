import Tjost.Library.ByteMemory

/-!
# Strings in a byte memory

Loops of C over the bytes at an address: `scanWhile` looks for the first byte that is not
of a kind, `skipWhile` does so up to an end, and `cString` takes a string up to its
terminator. The memory may end before such a byte; `fuel` is the number of bytes up to
there.

Each of them is described by the list of the bytes at the address (`read`).
-/

namespace ByteMemory

/-- `while(P(*p)) p++;` -/
def scanWhile (P : UInt8 → Bool) (mem : Memory) : ℕ → ℕ → Option ℕ
  | 0, _ => none
  | fuel + 1, p => if P (mem p) then scanWhile P mem fuel (p + 1) else some p

/-- `while((p < q) && P(*p)) p++;`, for `n` bytes up to `q`. -/
def skipWhile (P : UInt8 → Bool) (mem : Memory) : ℕ → ℕ → ℕ
  | 0, p => p
  | n + 1, p => if P (mem p) then skipWhile P mem n (p + 1) else p

/-- The string at an address, without its terminator. -/
def cString (mem : Memory) : ℕ → ℕ → Option (List UInt8)
  | 0, _ => none
  | fuel + 1, p => if mem p = 0 then some [] else (cString mem fuel (p + 1)).map (mem p :: ·)

variable {P : UInt8 → Bool} {mem mem' : Memory} {p q n fuel : ℕ} {bs : List UInt8}

/-- **A scan ends** at the first byte that is not of the kind. -/
theorem scanWhile_eq (hbs : read mem p bs.length = bs) (hstop : ∃ b ∈ bs, P b = false)
    (hfuel : bs.length ≤ fuel) : scanWhile P mem fuel p = some (p + (bs.takeWhile P).length) := by
  induction bs generalizing p fuel with
  | nil => obtain ⟨b, hb, -⟩ := hstop; exact absurd hb List.not_mem_nil
  | cons b bs ih =>
    rw [List.length_cons] at hbs hfuel
    obtain ⟨fuel, rfl⟩ : ∃ k, fuel = k + 1 := ⟨fuel - 1, by omega⟩
    rw [read_succ] at hbs
    obtain ⟨hb, hbs⟩ := List.cons.inj hbs
    unfold scanWhile
    rw [hb]
    cases hP : P b with
    | true =>
      -- the byte that ends the scan is not this one
      have hrest : ∃ b ∈ bs, P b = false := by
        obtain ⟨c, hc, hcP⟩ := hstop
        rcases List.mem_cons.mp hc with rfl | hc
        · exact absurd (hcP.symm.trans hP) Bool.false_ne_true
        · exact ⟨c, hc, hcP⟩
      rw [if_pos rfl, ih hbs hrest (Nat.le_of_succ_le_succ hfuel), List.takeWhile_cons_of_pos hP,
        List.length_cons]
      congr 1
      omega
    | false =>
      rw [if_neg Bool.false_ne_true, List.takeWhile_cons_of_neg (by simp [hP])]
      rfl

/-- A scan over bytes of the kind only ends behind them. -/
theorem le_of_scanWhile (hall : ∀ b ∈ read mem p n, P b = true)
    (hscan : scanWhile P mem fuel p = some q) : p + n ≤ q := by
  induction n generalizing p fuel with
  | zero =>
    -- a scan does not go back
    induction fuel generalizing p with
    | zero => cases hscan
    | succ fuel ih =>
      unfold scanWhile at hscan
      split at hscan
      · have hle := ih (fun b hb => absurd hb List.not_mem_nil) hscan
        omega
      · obtain rfl := Option.some.inj hscan
        exact le_refl _
  | succ n ih =>
    rw [read_succ] at hall
    obtain ⟨hp, hall⟩ := List.forall_mem_cons.mp hall
    cases fuel with
    | zero => cases hscan
    | succ fuel =>
      unfold scanWhile at hscan
      rw [if_pos hp] at hscan
      have hle := ih hall hscan
      omega

theorem of_scanWhile (hscan : scanWhile P mem fuel p = some q) : P (mem q) = false := by
  induction fuel generalizing p with
  | zero => cases hscan
  | succ fuel ih =>
    unfold scanWhile at hscan
    split at hscan
    · exact ih hscan
    · next hP =>
      obtain rfl := Option.some.inj hscan
      simpa using hP

theorem skipWhile_eq (hbs : read mem p n = bs) :
    skipWhile P mem n p = p + (bs.takeWhile P).length := by
  induction n generalizing p bs with
  | zero =>
    obtain rfl : [] = bs := hbs
    rfl
  | succ n ih =>
    rw [read_succ] at hbs
    obtain rfl := hbs
    unfold skipWhile
    cases hP : P (mem p) with
    | true =>
      rw [if_pos rfl, ih rfl, List.takeWhile_cons_of_pos hP, List.length_cons]
      omega
    | false =>
      rw [if_neg Bool.false_ne_true, List.takeWhile_cons_of_neg (by simp [hP])]
      rfl

/-- The bytes behind those that a list begins with. -/
theorem read_drop {as : List UInt8} (hbs : read mem p n = as ++ bs) :
    read mem (p + as.length) (n - as.length) = bs := by
  have hlen : n = as.length + bs.length := by
    rw [← List.length_append, ← hbs, length_read]
  rw [hlen, read_add] at hbs
  have hdrop := (List.append_inj hbs (length_read _ _ _)).2
  rwa [hlen, Nat.add_sub_cancel_left]

/-- **A terminated string** is taken. -/
theorem cString_eq (hbs : read mem p (bs.length + 1) = bs ++ [0]) (hne : ∀ b ∈ bs, b ≠ 0)
    (hfuel : bs.length < fuel) : cString mem fuel p = some bs := by
  induction bs generalizing p fuel with
  | nil =>
    obtain ⟨fuel, rfl⟩ : ∃ k, fuel = k + 1 := ⟨fuel - 1, by omega⟩
    rw [read_succ] at hbs
    unfold cString
    exact if_pos (List.cons.inj hbs).1
  | cons b bs ih =>
    obtain ⟨fuel, rfl⟩ : ∃ k, fuel = k + 1 := ⟨fuel - 1, by omega⟩
    rw [List.length_cons, read_succ, List.cons_append] at hbs
    obtain ⟨hb, hbs⟩ := List.cons.inj hbs
    obtain ⟨hbne, hne⟩ := List.forall_mem_cons.mp hne
    unfold cString
    rw [hb, if_neg hbne, ih hbs hne (Nat.lt_of_succ_lt_succ hfuel)]
    rfl

end ByteMemory
