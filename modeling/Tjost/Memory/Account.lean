import Tjost.Library.Transition
import Tjost.Memory.Tlsf

/-!
# The account of the real-time memory

`tjost_alloc`, `tjost_realloc` and `tjost_free` keep the counter `used` next to
the allocator: every call subtracts the size of the block that it is given and
adds the size of the block that it answers with, in `size_t` arithmetic.

A reallocation subtracts before it knows whether it will be granted. If it is
refused, the answer is `NULL`, whose size is `0`, but the old block stays
allocated: its size is lost from the counter. This is the only way to lose track
(`Memory.Loses`). `used_accounts_iff` states it for whole sequences of calls: the
counter equals the sum of the sizes of the live blocks after every call, and
never underflows, if and only if no call of the sequence is such a refusal.
-/

open Transition

namespace Tjost

/-- The allocator of a host with its account. -/
structure Memory where
  live : List Block
  used : UInt64
  rtmemSum : UInt64
  rtmemFlag : Bool
  /-- `uv_async_send(&host->rtmem)` so far. -/
  requests : ℕ
  /-- Texts passed to `tjost_host_message_push`. -/
  messages : List String
  deriving DecidableEq, Repr

namespace Memory

/-- A heap of that many bytes before the first call. -/
def start (rtmemSum : UInt64) : Memory :=
  { live := [], used := 0, rtmemSum, rtmemFlag := false, requests := 0, messages := [] }

/-! ### The calls -/

/-- Ask for more memory once half of it is used. -/
def requestMemory (s : Memory) : Memory :=
  if s.rtmemFlag = false ∧ s.rtmemSum / 2 < s.used then
    { s with rtmemFlag := true, requests := s.requests + 1 }
  else s

/-- The message of a call that got no block. -/
def outOfMemory (text : String) (data : UInt64) (s : Memory) : Memory :=
  if data = 0 then { s with messages := s.messages ++ [text] } else s

/-- `tjost_alloc`. -/
def alloc (answer : Tlsf.Answer) (s : Memory) : Memory :=
  let (live, data) := Tlsf.malloc answer s.live
  let s := outOfMemory "tjost_alloc: out of memory" data { s with live }
  requestMemory { s with used := s.used + Tlsf.blockSize s.live data }

/-- `tjost_realloc`. -/
def realloc (answer : Tlsf.Answer) (len buf : UInt64) (s : Memory) : Memory :=
  let s := { s with used := s.used - Tlsf.blockSize s.live buf }
  let (live, data) := Tlsf.realloc answer buf len s.live
  let s := outOfMemory "tjost_realloc: out of memory" data { s with live }
  requestMemory { s with used := s.used + Tlsf.blockSize s.live data }

/-- `tjost_free`. -/
def free (buf : UInt64) (s : Memory) : Memory :=
  { s with
    used := s.used - Tlsf.blockSize s.live buf
    live := Tlsf.free buf s.live }

/-- A call, with the answer that the allocator's search ends in. The length of a
`tjost_alloc` matters to that search only. -/
inductive Call
  | alloc (len : UInt64) (answer : Tlsf.Answer)
  | realloc (len buf : UInt64) (answer : Tlsf.Answer)
  | free (buf : UInt64)
  deriving DecidableEq, Repr

/-- `_alloc`, the allocator of the Lua state, as a call of one of the three. -/
def luaAlloc (ptr nsize : UInt64) (answer : Tlsf.Answer) : Option Call :=
  if nsize = 0 then
    if ptr ≠ 0 then some (.free ptr) else none
  else if ptr ≠ 0 then some (.realloc nsize ptr answer)
  else some (.alloc nsize answer)

/-- A pointer that may be given back: `NULL` or that of a live block. -/
def Owned (s : Memory) (buf : UInt64) : Prop :=
  buf = 0 ∨ ∃ b ∈ s.live, b.ptr = buf

instance (s : Memory) (buf : UInt64) : Decidable (s.Owned buf) :=
  inferInstanceAs (Decidable (_ ∨ _))

/-- A possible call. -/
def step (s : Memory) : Call → Option Memory
  | .alloc _ answer => if answer.Possible s.live 0 then some (s.alloc answer) else none
  | .realloc len buf answer =>
    if s.Owned buf ∧ answer.Possible s.live buf then some (s.realloc answer len buf) else none
  | .free buf => if s.Owned buf then some (s.free buf) else none

/-- Sequences of possible calls, from a heap without live blocks. -/
def machine : Machine Memory Call where
  init s := s.live = [] ∧ s.used = 0
  step := step

/-! ### The account -/

/-- The counter is the sum of the sizes of the live blocks. -/
def Accounts (s : Memory) : Prop :=
  s.used.toNat = totalSize s.live

/-- What a call subtracts from the counter first. -/
def subtracted (s : Memory) : Call → UInt64
  | .alloc _ _ => 0
  | .realloc _ buf _ | .free buf => Tlsf.blockSize s.live buf

/-- The call leaves the counter right, and does not underflow it on the way. -/
def Keeps (s : Memory) (c : Call) : Prop :=
  (s.subtracted c).toNat ≤ s.used.toNat ∧ ∀ s', s.step c = some s' → s'.Accounts

/-- A refused reallocation of a live block, to a nonzero length. -/
def Loses (s : Memory) : Call → Prop
  | .realloc len buf .refuse => len ≠ 0 ∧ buf ≠ 0 ∧ Tlsf.blockSize s.live buf ≠ 0
  | _ => False

section Step

variable {s s' : Memory} {c : Call}

@[simp] theorem requestMemory_live (s : Memory) : s.requestMemory.live = s.live := by
  unfold requestMemory
  split <;> rfl

@[simp] theorem requestMemory_used (s : Memory) : s.requestMemory.used = s.used := by
  unfold requestMemory
  split <;> rfl

@[simp] theorem outOfMemory_live (text : String) (data : UInt64) (s : Memory) :
    (s.outOfMemory text data).live = s.live := by
  unfold outOfMemory
  split <;> rfl

@[simp] theorem outOfMemory_used (text : String) (data : UInt64) (s : Memory) :
    (s.outOfMemory text data).used = s.used := by
  unfold outOfMemory
  split <;> rfl

/-- Which blocks are live after a call, and which sizes it adds and subtracts. -/
theorem step_cases (h : s.step c = some s') :
    (∃ len answer, c = .alloc len answer ∧ answer.Possible s.live 0 ∧
      s'.live = (Tlsf.malloc answer s.live).1 ∧
      s'.used = s.used + Tlsf.blockSize s'.live (Tlsf.malloc answer s.live).2) ∨
    (∃ len buf answer, c = .realloc len buf answer ∧ s.Owned buf ∧
      answer.Possible s.live buf ∧
      s'.live = (Tlsf.realloc answer buf len s.live).1 ∧
      s'.used = s.used - Tlsf.blockSize s.live buf +
        Tlsf.blockSize s'.live (Tlsf.realloc answer buf len s.live).2) ∨
    (∃ buf, c = .free buf ∧ s.Owned buf ∧ s'.live = Tlsf.free buf s.live ∧
      s'.used = s.used - Tlsf.blockSize s.live buf) := by
  cases c with
  | alloc len answer =>
    simp only [step] at h
    split at h
    · next hpos =>
      obtain rfl := Option.some.inj h
      refine Or.inl ⟨len, answer, rfl, hpos, ?_, ?_⟩ <;> simp [alloc]
    · cases h
  | realloc len buf answer =>
    simp only [step] at h
    split at h
    · next hpos =>
      obtain rfl := Option.some.inj h
      refine Or.inr (Or.inl ⟨len, buf, answer, rfl, hpos.1, hpos.2, ?_, ?_⟩) <;> simp [realloc]
    · cases h
  | free buf =>
    simp only [step] at h
    split at h
    · next howned =>
      obtain rfl := Option.some.inj h
      exact Or.inr (Or.inr ⟨buf, rfl, howned, rfl, rfl⟩)
    · cases h

/-- A counter that was right and takes off a live block ends at `used - sub + add`,
as numbers. -/
theorem toNat_sub_add {used sub add : UInt64} {total total' : ℕ} (hused : used.toNat = total)
    (hsub : sub.toNat ≤ total) (hsum : total' + sub.toNat = total + add.toNat)
    (hlt : total' < 2 ^ 64) : (used - sub + add).toNat = total' := by
  have hle : sub ≤ used := by
    rw [UInt64.le_iff_toNat_le]
    omega
  rw [UInt64.toNat_add, UInt64.toNat_sub_of_le _ _ hle]
  omega

theorem step_heap (hh : Heap s.live) (h : s.step c = some s') : Heap s'.live := by
  obtain ⟨len, answer, rfl, hpos, hlive, -⟩ | ⟨len, buf, answer, rfl, howned, hpos, hlive, -⟩ |
    ⟨buf, rfl, -, hlive, -⟩ := step_cases h
  · rw [hlive]
    exact (hh.malloc_spec hpos).1
  · rw [hlive]
    exact (hh.realloc_spec _ howned hpos).1
  · rw [hlive]
    exact hh.free buf

/-- **One call.** From a right counter, a call leads to a right counter exactly if
it does not lose a block. -/
theorem step_accounts_iff (hh : Heap s.live) (ha : s.Accounts) (h : s.step c = some s') :
    s'.Accounts ↔ ¬ s.Loses c := by
  have hh' := step_heap hh h
  unfold Accounts at ha ⊢
  obtain ⟨len, answer, rfl, hpos, hlive, hused⟩ |
    ⟨len, buf, answer, rfl, howned, hpos, hlive, hused⟩ | ⟨buf, rfl, -, hlive, hused⟩ :=
      step_cases h
  · -- an allocation adds its block
    have htotal := (hh.malloc_spec hpos).2
    rw [← hlive] at htotal
    refine iff_of_true ?_ id
    rw [hused, ← UInt64.sub_zero s.used]
    exact toNat_sub_add ha (Nat.zero_le _) htotal hh'.total_lt
  · obtain ⟨-, hexchange, hrefused⟩ := hh.realloc_spec len howned hpos
    have hle := hh.blockSize_le_total buf
    by_cases hrefuse : buf ≠ 0 ∧ len ≠ 0 ∧ answer = .refuse
    · -- a refusal: the old block stays, its size is subtracted all the same
      obtain ⟨hbuf, hlen, rfl⟩ := hrefuse
      rw [hrefused hbuf hlen rfl] at hlive hused
      have hsame : s'.live = s.live := hlive
      have hsub : s'.used.toNat + (Tlsf.blockSize s.live buf).toNat = totalSize s.live := by
        have hle' : Tlsf.blockSize s.live buf ≤ s.used := by
          rw [UInt64.le_iff_toNat_le]
          omega
        rw [hused, Heap.blockSize_null, UInt64.add_zero, UInt64.toNat_sub_of_le _ _ hle']
        omega
      have hzero : (Tlsf.blockSize s.live buf).toNat = 0 ↔ Tlsf.blockSize s.live buf = 0 := by
        rw [← UInt64.toNat_inj]
        rfl
      rw [hsame]
      unfold Loses
      constructor
      · rintro hright ⟨-, -, hne⟩
        exact hne (hzero.mp (by omega))
      · intro hnot
        have hsize : Tlsf.blockSize s.live buf = 0 := by
          by_contra hne
          exact hnot ⟨hlen, hbuf, hne⟩
        have := hzero.mpr hsize
        omega
    · have htotal := hexchange hrefuse
      rw [← hlive] at htotal
      refine iff_of_true ?_ ?_
      · rw [hused]
        exact toNat_sub_add ha hle htotal hh'.total_lt
      · unfold Loses
        cases answer with
        | refuse => exact fun hl => hrefuse ⟨hl.2.1, hl.1, rfl⟩
        | grant block => exact id
        | inPlace size => exact id
  · -- freeing takes the block off
    refine iff_of_true ?_ id
    have htotal := hh.totalSize_free buf
    rw [← hlive] at htotal
    rw [hused, ← UInt64.add_zero (s.used - _)]
    exact toNat_sub_add ha (hh.blockSize_le_total buf) htotal hh'.total_lt

/-- A right counter does not underflow. -/
theorem subtracted_le (hh : Heap s.live) (ha : s.Accounts) (c : Call) :
    (s.subtracted c).toNat ≤ s.used.toNat := by
  rw [ha]
  cases c with
  | alloc len answer => exact Nat.zero_le _
  | realloc len buf answer => exact hh.blockSize_le_total buf
  | free buf => exact hh.blockSize_le_total buf

/-- A call that loses a block is possible. -/
theorem Loses.enabled (h : s.Loses c) : ∃ s', s.step c = some s' := by
  cases c with
  | alloc len answer => exact h.elim
  | free buf => exact h.elim
  | realloc len buf answer =>
    cases answer with
    | grant block => exact h.elim
    | inPlace size => exact h.elim
    | refuse =>
      obtain ⟨-, hbuf, hsize⟩ := h
      have howned : s.Owned buf := by
        refine Or.inr ?_
        by_contra hnone
        refine hsize ?_
        unfold Tlsf.blockSize
        rw [if_neg hbuf, List.find?_eq_none.mpr]
        · rfl
        · intro b hb hptr
          exact hnone ⟨b, hb, by simpa using hptr⟩
      refine ⟨s.realloc .refuse len buf, ?_⟩
      unfold step
      exact if_pos ⟨howned, trivial⟩

/-- Lua's allocator loses a block when resizing one is refused, and only then. -/
theorem luaAlloc_loses_iff {ptr nsize : UInt64} {answer : Tlsf.Answer}
    (h : luaAlloc ptr nsize answer = some c) :
    s.Loses c ↔ nsize ≠ 0 ∧ ptr ≠ 0 ∧ answer = .refuse ∧ Tlsf.blockSize s.live ptr ≠ 0 := by
  unfold luaAlloc at h
  by_cases hsize : nsize = 0 <;> by_cases hptr : ptr = 0
  · simp [hsize, hptr] at h
  · obtain rfl : Call.free ptr = c := by simpa [hsize, hptr] using h
    simp [Loses, hsize]
  · obtain rfl : Call.alloc nsize answer = c := by simpa [hsize, hptr] using h
    simp [Loses, hptr]
  · obtain rfl : Call.realloc nsize ptr answer = c := by simpa [hsize, hptr] using h
    cases answer <;> simp [Loses, hptr]

end Step

/-! ### Sequences of calls -/

/-- **The account is right exactly without refused reallocations.** Along a
sequence of calls, the counter equals the sum of the sizes of the live blocks
after every call, and no call underflows it, if and only if none of the calls is
a refused reallocation of a live block to a nonzero length. -/
theorem used_accounts_iff (s : Memory) (calls : List Call) (h : machine.init s) :
    machine.Meets Keeps s calls ↔ machine.Meets (fun s c => ¬ s.Loses c) s calls := by
  have hrun : ∀ (calls : List Call) (s : Memory), Heap s.live → s.Accounts →
      (machine.Meets Keeps s calls ↔ machine.Meets (fun s c => ¬ s.Loses c) s calls) := by
    intro calls
    induction calls with
    | nil => exact fun _ _ _ => Iff.rfl
    | cons c calls ih =>
      intro s hh ha
      constructor
      · rintro ⟨hkeeps, hrest⟩
        refine ⟨fun hloses => ?_, fun s' hs' => ?_⟩
        · obtain ⟨s', hs'⟩ := hloses.enabled
          exact (step_accounts_iff hh ha hs').mp (hkeeps.2 s' hs') hloses
        · exact (ih s' (step_heap hh hs') (hkeeps.2 s' hs')).mp (hrest s' hs')
      · rintro ⟨hnot, hrest⟩
        refine ⟨⟨subtracted_le hh ha c, fun s' hs' => ?_⟩, fun s' hs' => ?_⟩
        · exact (step_accounts_iff hh ha hs').mpr hnot
        · have ha' := (step_accounts_iff hh ha hs').mpr hnot
          exact (ih s' (step_heap hh hs') ha').mpr (hrest s' hs')
  obtain ⟨hlive, hused⟩ := h
  refine hrun calls s (hlive ▸ Heap.nil) ?_
  unfold Accounts
  rw [hlive, hused]
  rfl

theorem used_accounts_iff_start :
    machine.Meets Keeps (start 0x1000000)
        [.alloc 10 (.grant ⟨16, 32⟩), .realloc 50 16 (.grant ⟨64, 56⟩), .free 64] ↔
      machine.Meets (fun s c => ¬ s.Loses c) (start 0x1000000)
        [.alloc 10 (.grant ⟨16, 32⟩), .realloc 50 16 (.grant ⟨64, 56⟩), .free 64] :=
  used_accounts_iff _ _ ⟨rfl, rfl⟩

/-- **A lost block.** A block of 32 bytes is allocated and its reallocation is
refused: the block is still live, and nothing is accounted for. Freeing it
underflows the counter. -/
theorem refused_realloc_loses :
    ∃ s s' : Memory,
      machine.exec (start 0x1000000) [.alloc 10 (.grant ⟨16, 32⟩), .realloc 50 16 .refuse] =
          some s ∧
        machine.step s (.free 16) = some s' ∧
        (totalSize s.live = 32 ∧ s.used = 0) ∧ s.used < s.subtracted (.free 16) ∧
        (totalSize s'.live = 0 ∧ s'.used = 0xffffffffffffffe0) :=
  ⟨_, _, rfl, rfl, by decide, by decide, by decide⟩

end Memory

end Tjost
