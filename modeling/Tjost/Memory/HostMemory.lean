import Tjost.Memory.Growth
import Tjost.Memory.TlsfRuns

/-!
# The memory of a host

`tjost_alloc`, `tjost_realloc`, `tjost_free` and `tjost_add_memory` on the allocator that they call,
with its blocks, headers and lists. `HostMemory.abs` forgets them: what is left is the list of live
blocks and the counter, as in `Memory`, where the answers of the allocator were arbitrary.

A run is a run of legal calls (`Legal`): a pointer that is passed is held, a size has a class, and
`tjost_add_memory` gets an area that there is room for, or one that TLSF turns down.

* `alloc_refines`, `realloc_refines`, `free_refines` — every legal call on the real allocator is one
  of the abstract ones, with an answer that was possible there.
* `exists_exec_abs` — so every run is one of the abstract ones, and the pointers, the counter, the
  requests for memory and the messages are the same.
* `account_iff` — the counter is the sum of the `tlsf_block_size` of the pointers that are held, at
  all times of a run, if and only if no reallocation of the run is refused.
-/

open Transition

namespace Tjost

open TwoLevel BoundaryTags

/-- The allocator of a host with its account. -/
structure HostMemory where
  control : Control
  pools : List Region
  /-- The pointers that have been handed out and not given back. -/
  held : List ℕ
  used : UInt64
  rtmemSum : UInt64
  rtmemFlag : Bool
  /-- `uv_async_send(&host->rtmem)` so far. -/
  requests : ℕ
  /-- Texts passed to `tjost_host_message_push`. -/
  messages : List String

namespace HostMemory

variable (ctl : ℕ)

/-! ### The calls -/

/-- Ask for more memory once half of it is used. -/
def requestMemory (s : HostMemory) : HostMemory :=
  if s.rtmemFlag = false ∧ s.rtmemSum / 2 < s.used then
    { s with rtmemFlag := true, requests := s.requests + 1 }
  else s

/-- The message of a call that got no block. -/
def outOfMemory (text : String) (data : ℕ) (s : HostMemory) : HostMemory :=
  if data = 0 then { s with messages := s.messages ++ [text] } else s

/-- `tlsf_block_size`, as a `size_t`. -/
def blockSize (s : HostMemory) (ptr : ℕ) : UInt64 :=
  UInt64.ofNat (tlsfBlockSize s.control.mem ptr)

/-- `tjost_alloc`. -/
def tjostAlloc (s : HostMemory) (len : ℕ) : Option (HostMemory × ℕ) := do
  let (control, data) ← TwoLevel.malloc ctl s.control len
  let s := outOfMemory "tjost_alloc: out of memory" data { s with control }
  let s := { s with used := s.used + s.blockSize data }
  some (requestMemory s, data)

/-- `tjost_realloc`. -/
def tjostRealloc (s : HostMemory) (len buf : ℕ) : Option (HostMemory × ℕ) := do
  let s := { s with used := s.used - s.blockSize buf }
  let (control, data) ← TwoLevel.realloc ctl s.control buf len
  let s := outOfMemory "tjost_realloc: out of memory" data { s with control }
  let s := { s with used := s.used + s.blockSize data }
  some (requestMemory s, data)

/-- `tjost_free`. -/
def tjostFree (s : HostMemory) (buf : ℕ) : Option HostMemory := do
  let s := { s with used := s.used - s.blockSize buf }
  let control ← TwoLevel.free ctl s.control buf
  some { s with control }

/-- `tjost_add_memory`, behind the read of the chunk. -/
def tjostAddMemory (s : HostMemory) (area size : ℕ) : Option HostMemory := do
  let (control, pool) ← TwoLevel.addPool ctl s.control area size
  let pools := if pool = 0 then s.pools else poolRegion area size :: s.pools
  let rtmemSum := s.rtmemSum + UInt64.ofNat size
  some { s with
    control, pools, rtmemSum, rtmemFlag := false
    messages := s.messages ++ [Growth.extended rtmemSum] }

/-- `_alloc`, the allocator of the Lua state. -/
def luaAlloc (s : HostMemory) (ptr nsize : ℕ) : Option (HostMemory × ℕ) :=
  if nsize = 0 then
    if ptr ≠ 0 then do
      let s ← tjostFree ctl s ptr
      some (s, 0)
    else some (s, 0)
  else if ptr ≠ 0 then tjostRealloc ctl s nsize ptr
  else tjostAlloc ctl s nsize

/-! ### The machine -/

inductive Call
  | alloc (len : ℕ)
  | realloc (len buf : ℕ)
  | free (buf : ℕ)
  /-- A write into a block that is held. -/
  | store (ptr i : ℕ) (byte : UInt8)
  | addMemory (area size : ℕ)
  deriving DecidableEq, Repr

/-- The pointers that are held after a call with that answer. -/
def exchange (buf data : ℕ) (held : List ℕ) : List ℕ :=
  let held := held.filter (· ≠ buf)
  if data = 0 then held else data :: held

/-- A call, with the pointers that are held after it. A reallocation that is refused leaves its
pointer. -/
def call (s : HostMemory) : Call → Option HostMemory
  | .alloc len => do
    let (s, data) ← tjostAlloc ctl s len
    some { s with held := exchange 0 data s.held }
  | .realloc len buf => do
    let (s, data) ← tjostRealloc ctl s len buf
    some { s with held := if data = 0 ∧ len ≠ 0 then s.held else exchange buf data s.held }
  | .free buf => do
    let s ← tjostFree ctl s buf
    some { s with held := exchange buf 0 s.held }
  | .store ptr i byte =>
    some { s with control :=
      { s.control with mem := Function.update s.control.mem (ptr + i) byte } }
  | .addMemory area size => tjostAddMemory ctl s area size

/-- What the callers have to keep to. -/
def Legal (s : HostMemory) : Call → Prop
  | .alloc len => Classed len
  | .realloc len buf => buf = 0 ∧ Classed len ∨ buf ∈ s.held ∧ len ≤ 2 ^ 32 - 2 ^ 26
  | .free buf => buf = 0 ∨ buf ∈ s.held
  | .store ptr i _ => ptr ∈ s.held ∧ i < tlsfBlockSize s.control.mem ptr
  | .addMemory area size => Unsuitable area size ∨ Room ctl s.pools area size

instance (s : HostMemory) (c : Call) : Decidable (Legal ctl s c) := by
  cases c <;> unfold Legal <;> infer_instance

/-- `tlsf_create_with_pool` in `_tjost_init`. -/
def create (mem : ByteMemory.Memory) (bytes : ℕ) : Option HostMemory :=
  (createWithPool mem ctl bytes).map fun control => {
    control
    pools := [poolRegion (getPool ctl) (bytes - 6536)]
    held := []
    used := 0
    rtmemSum := UInt64.ofNat bytes
    rtmemFlag := false
    requests := 0
    messages := [] }

/-- Only legal calls are steps. -/
def machine : Machine HostMemory Call where
  init s := 0 < ctl ∧ 8 ∣ ctl ∧ ∃ mem bytes, 6576 ≤ bytes ∧ bytes < 2 ^ 32 + 6552 ∧
    ctl + bytes ≤ 2 ^ 64 ∧ create ctl mem bytes = some s
  step s c := if Legal ctl s c then call ctl s c else none

/-! ### What the callers see -/

/-- The block behind a pointer. -/
def blockAt (control : Control) (ptr : ℕ) : Block :=
  ⟨UInt64.ofNat ptr, UInt64.ofNat (tlsfBlockSize control.mem ptr)⟩

/-- The live blocks and the account. -/
def abs (s : HostMemory) : Memory where
  live := s.held.map (blockAt s.control)
  used := s.used
  rtmemSum := s.rtmemSum
  rtmemFlag := s.rtmemFlag
  requests := s.requests
  messages := s.messages

variable {ctl}
variable {s s' : HostMemory} {T T' : Tags} {c : Call} {a b k z len buf ptr size : ℕ}

/-- The pointers are those of the blocks with the given sizes. -/
def Pointers (held : List ℕ) (sizes : ℕ → Option ℕ) : Prop :=
  ∀ ptr, ptr ∈ held ↔ ∃ a z, ptr = a + 16 ∧ sizes a = some z

/-- **The invariant.** The pointers that are held are those of the blocks in use. -/
structure Inv (ctl : ℕ) (s : HostMemory) (T : Tags) : Prop where
  intact : Intact ctl s.pools ∅ ∅ s.control T
  held : Pointers s.held (live T)
  nodup : s.held.Nodup

namespace Pointers

variable {held : List ℕ} {sizes : ℕ → Option ℕ}

theorem null (h : Pointers held sizes) : 0 ∉ held := by
  intro hc
  obtain ⟨a, z, ha, -⟩ := (h 0).mp hc
  omega

theorem filter_null (h : Pointers held sizes) : held.filter (· ≠ 0) = held := by
  refine List.filter_eq_self.mpr fun p hp => decide_eq_true ?_
  rintro rfl
  exact h.null hp

theorem notMem (h : Pointers held sizes) (ha : sizes a = none) : a + 16 ∉ held := by
  intro hc
  obtain ⟨b, z, hb, hz⟩ := (h (a + 16)).mp hc
  obtain rfl : a = b := by omega
  rw [ha] at hz
  cases hz

theorem insert (h : Pointers held sizes) (a k : ℕ) :
    Pointers ((a + 16) :: held) (Function.update sizes a (some k)) := by
  intro ptr
  rw [List.mem_cons, h]
  constructor
  · rintro (rfl | ⟨b, z, rfl, hz⟩)
    · exact ⟨a, k, rfl, Function.update_self ..⟩
    · by_cases hb : b = a
      · exact ⟨b, k, rfl, update_some_eq_some.mpr (Or.inl ⟨hb, rfl⟩)⟩
      · exact ⟨b, z, rfl, update_some_eq_some.mpr (Or.inr ⟨hb, hz⟩)⟩
  · rintro ⟨b, z, rfl, hz⟩
    obtain ⟨rfl, -⟩ | ⟨-, hz⟩ := update_some_eq_some.mp hz
    · exact Or.inl rfl
    · exact Or.inr ⟨b, z, rfl, hz⟩

theorem erase (h : Pointers held sizes) (a : ℕ) :
    Pointers (held.filter (· ≠ a + 16)) (Function.update sizes a none) := by
  intro ptr
  rw [List.mem_filter, h, decide_eq_true_eq]
  constructor
  · rintro ⟨⟨b, z, rfl, hz⟩, hne⟩
    have hb : b ≠ a := fun he => hne (he ▸ rfl)
    exact ⟨b, z, rfl, update_none_eq_some.mpr ⟨hb, hz⟩⟩
  · rintro ⟨b, z, rfl, hz⟩
    obtain ⟨hb, hz⟩ := update_none_eq_some.mp hz
    exact ⟨⟨b, z, rfl, hz⟩, by omega⟩

end Pointers

theorem toNat_ofNat {n : ℕ} (h : n < 2 ^ 64) : (UInt64.ofNat n).toNat = n :=
  UInt64.toNat_ofNat_of_lt' h

theorem blockAt_eq {R : List Region} {control : Control} (h : Intact ctl R ∅ ∅ control T)
    (ha : live T a = some z) :
    blockAt control (a + 16) = ⟨UInt64.ofNat (a + 16), UInt64.ofNat z⟩ := by
  unfold blockAt
  rw [tlsfBlockSize_eq h ha]

/-- Where a block in use can be. -/
theorem live_bounds {R : List Region} {control : Control} (h : Intact ctl R ∅ ∅ control T)
    (ha : live T a = some z) : 0 < a ∧ a + 16 + z ≤ 2 ^ 64 ∧ 24 ≤ z ∧ z < 2 ^ 32 := by
  obtain ⟨hstatus, hne⟩ := live_eq_some_iff.mp ha
  obtain ⟨t, ht, he⟩ := Option.map_eq_some_iff.mp hstatus
  obtain ⟨rfl, -⟩ := Prod.mk.inj he
  have hP := h.sound.placed
  exact ⟨(hP.bounds ht).1, (hP.bounds ht).2, hP.least ht hne, hP.small ht⟩

namespace Inv

variable (hI : Inv ctl s T)
include hI

/-- A pointer that is held. -/
theorem block (hptr : ptr ∈ s.held) :
    ∃ a z, ptr = a + 16 ∧ live T a = some z ∧
      blockAt s.control ptr = ⟨UInt64.ofNat ptr, UInt64.ofNat z⟩ ∧
      (UInt64.ofNat ptr).toNat = ptr ∧ (UInt64.ofNat z).toNat = z := by
  obtain ⟨a, z, rfl, ha⟩ := (hI.held ptr).mp hptr
  obtain ⟨-, hend, hlo, hhi⟩ := live_bounds hI.intact ha
  refine ⟨a, z, rfl, ha, ?_, toNat_ofNat (by omega), toNat_ofNat (by omega)⟩
  unfold blockAt
  rw [tlsfBlockSize_eq hI.intact ha]

/-- The pointers as 64-bit numbers. -/
theorem ofNat_inj {ptr' : ℕ} (hptr : ptr ∈ s.held) (hptr' : ptr' = 0 ∨ ptr' ∈ s.held) :
    UInt64.ofNat ptr = UInt64.ofNat ptr' ↔ ptr = ptr' := by
  obtain ⟨a, z, -, -, -, hto, -⟩ := hI.block hptr
  rw [← UInt64.toNat_inj, hto]
  rcases hptr' with rfl | hptr'
  · rfl
  · obtain ⟨b, y, -, -, -, hto', -⟩ := hI.block hptr'
    rw [hto']

theorem heap : Heap s.abs.live where
  inSpace := by
    intro b hb
    obtain ⟨ptr, hptr, rfl⟩ := List.mem_map.mp hb
    obtain ⟨a, z, rfl, ha, hblock, hto, htoz⟩ := hI.block hptr
    have hbounds := live_bounds hI.intact ha
    rw [hblock]
    refine ⟨fun hc => ?_, ?_⟩
    · have hzero := (hI.ofNat_inj hptr (Or.inl rfl)).mp hc
      omega
    · simp only [hto, htoz]
      omega
  apart := by
    refine List.pairwise_map.mpr (hI.nodup.pairwise_of_forall_ne fun ptr hptr ptr' hptr' hne => ?_)
    obtain ⟨a, z, rfl, ha, hblock, hto, htoz⟩ := hI.block hptr
    obtain ⟨b, y, rfl, hb, hblock', hto', htoy⟩ := hI.block hptr'
    have hapart := hI.intact.sound.placed.live_apart (show a ≠ b by omega) ha hb
    rw [hblock, hblock']
    refine ⟨fun hc => hne ((hI.ofNat_inj hptr (Or.inr hptr')).mp hc), ?_⟩
    simp only [hto, htoz, hto', htoy]
    omega

/-- The sizes of the abstract blocks are the ones in the headers. -/
theorem blockSize_abs (hptr : ptr = 0 ∨ ptr ∈ s.held) :
    Tlsf.blockSize s.abs.live (UInt64.ofNat ptr) = s.blockSize ptr := by
  rcases hptr with rfl | hptr
  · rfl
  · have hmem : blockAt s.control ptr ∈ s.abs.live := List.mem_map_of_mem hptr
    exact hI.heap.blockSize_of_mem hmem

omit hI in
theorem owned (hptr : ptr = 0 ∨ ptr ∈ s.held) : s.abs.Owned (UInt64.ofNat ptr) := by
  rcases hptr with rfl | hptr
  · exact Or.inl rfl
  · exact Or.inr ⟨blockAt s.control ptr, List.mem_map_of_mem hptr, rfl⟩

theorem free_abs (hptr : ptr = 0 ∨ ptr ∈ s.held) :
    Tlsf.free (UInt64.ofNat ptr) s.abs.live =
      (s.held.filter (· ≠ ptr)).map (blockAt s.control) := by
  -- the filter by pointers of 64 bits is the filter by addresses
  have hkeep : ∀ p ∈ s.held,
      ((blockAt s.control p).ptr != UInt64.ofNat ptr) = decide (p ≠ ptr) := by
    intro p hp
    have hiff := hI.ofNat_inj hp hptr
    show (UInt64.ofNat p != UInt64.ofNat ptr) = decide (p ≠ ptr)
    by_cases hpp : p = ptr
    · simp [hpp]
    · have hne : UInt64.ofNat p ≠ UInt64.ofNat ptr := fun hc => hpp (hiff.mp hc)
      simp [hpp, hne]
  have hfilter : s.abs.live.filter (fun b => b.ptr != UInt64.ofNat ptr) =
      (s.held.filter (· ≠ ptr)).map (blockAt s.control) := by
    show (s.held.map (blockAt s.control)).filter _ = _
    rw [List.filter_map]
    congr 1
    exact List.filter_congr hkeep
  unfold Tlsf.free
  split
  · next hzero =>
    -- no pointer that is held is `NULL`
    have hnull : ptr = 0 := by
      rcases hptr with hptr | hptr
      · exact hptr
      · exact (hI.ofNat_inj hptr (Or.inl rfl)).mp hzero
    have hall : s.held.filter (· ≠ ptr) = s.held := by
      refine List.filter_eq_self.mpr fun p hp => decide_eq_true ?_
      rintro rfl
      exact hI.held.null (hnull ▸ hp)
    rw [hall]
    rfl
  · exact hfilter

end Inv

/-- The blocks that a call does not touch are the same ones. -/
theorem Pointers.map_blockAt {R R' : List Region} {control control' : Control} {rest : List ℕ}
    {sizes : ℕ → Option ℕ} (hrest : Pointers rest sizes) (h : Intact ctl R ∅ ∅ control T)
    (h' : Intact ctl R' ∅ ∅ control' T')
    (hkept : ∀ {a z}, sizes a = some z → live T a = some z ∧ live T' a = some z) :
    rest.map (blockAt control') = rest.map (blockAt control) := by
  refine List.map_congr_left fun ptr hptr => ?_
  obtain ⟨a, z, rfl, hz⟩ := (hrest ptr).mp hptr
  obtain ⟨ha, ha'⟩ := hkept hz
  unfold blockAt
  rw [tlsfBlockSize_eq h ha, tlsfBlockSize_eq h' ha']

/-- A block that lies apart from others fits to them. -/
theorem Inv.fits {l : List ℕ} (hI : Inv ctl s T) (hend : a + 16 + k ≤ 2 ^ 64) (hpos : 0 < k)
    (hk : k < 2 ^ 32) (hsub : ∀ ptr ∈ l, ptr ∈ s.held)
    (hl : ∀ b z, b + 16 ∈ l → live T b = some z →
      b ≠ a ∧ (a + 8 + k ≤ b ∨ b + 8 + z ≤ a)) :
    Block.Fits ⟨UInt64.ofNat (a + 16), UInt64.ofNat k⟩ (l.map (blockAt s.control)) := by
  have hto := toNat_ofNat (show a + 16 < 2 ^ 64 by omega)
  have htok := toNat_ofNat (show k < 2 ^ 64 by omega)
  refine ⟨⟨fun hc => ?_, ?_⟩, fun c hc => ?_⟩
  · rw [← UInt64.toNat_inj, hto] at hc
    exact absurd hc (by simp)
  · simp only [hto, htok]
    exact hend
  · obtain ⟨ptr, hptr, rfl⟩ := List.mem_map.mp hc
    obtain ⟨b, z, rfl, hb, hblock, hto', htoz⟩ := hI.block (hsub ptr hptr)
    obtain ⟨hne, hapart⟩ := hl b z hptr hb
    rw [hblock]
    refine ⟨fun hc => ?_, ?_⟩
    · simp only at hc
      rw [← UInt64.toNat_inj, hto, hto'] at hc
      omega
    · simp only [hto, htok, hto', htoz]
      omega

/-! ### The account of a call -/

@[simp] theorem requestMemory_held (s : HostMemory) : s.requestMemory.held = s.held := by
  unfold requestMemory
  split <;> rfl

/-- What `tjost_alloc` and `tjost_realloc` do once the allocator has answered. -/
def settle (text : String) (control : Control) (data : ℕ) (used : UInt64) (held : List ℕ)
    (s : HostMemory) : HostMemory :=
  { requestMemory { outOfMemory text data { s with control } with used } with held }

theorem settle_control (text : String) (control : Control) (data : ℕ) (used : UInt64)
    (held : List ℕ) (s : HostMemory) :
    (settle text control data used held s).control = control := by
  unfold settle requestMemory outOfMemory
  split <;> split <;> rfl

theorem settle_pools (text : String) (control : Control) (data : ℕ) (used : UInt64)
    (held : List ℕ) (s : HostMemory) : (settle text control data used held s).pools = s.pools := by
  unfold settle requestMemory outOfMemory
  split <;> split <;> rfl

/-- The account does the same above the allocator and above its abstraction. -/
theorem abs_settle (text : String) (control : Control) (data : ℕ) (used : UInt64) (held : List ℕ)
    (s : HostMemory) (hdata : data < 2 ^ 64) :
    (settle text control data used held s).abs = Memory.requestMemory
      { Memory.outOfMemory text (UInt64.ofNat data)
          { s.abs with live := held.map (blockAt control) } with used } := by
  have hnull : UInt64.ofNat data = 0 ↔ data = 0 := by
    rw [← UInt64.toNat_inj, toNat_ofNat hdata]
    rfl
  unfold settle requestMemory outOfMemory Memory.requestMemory Memory.outOfMemory abs
  simp only [hnull]
  split <;> split <;> rfl

/-- What the allocator has answered, and the outcome that the abstract one has. -/
structure Answered (ctl : ℕ) (s : HostMemory) (control : Control) (data : ℕ) (held : List ℕ)
    (outcome : List Block × UInt64) : Prop where
  inv : ∃ T', Inv ctl { s with control, held } T'
  known : data = 0 ∨ data ∈ held
  abs : outcome = (held.map (blockAt control), UInt64.ofNat data)

theorem Answered.settle {control : Control} {data : ℕ} {held : List ℕ}
    {outcome : List Block × UInt64} (h : Answered ctl s control data held outcome) (text : String)
    (used : UInt64) :
    (∃ T', Inv ctl (settle text control data
        (used + UInt64.ofNat (tlsfBlockSize control.mem data)) held s) T') ∧
      (settle text control data
        (used + UInt64.ofNat (tlsfBlockSize control.mem data)) held s).abs =
          Memory.requestMemory { Memory.outOfMemory text outcome.2
            { s.abs with live := outcome.1 } with
              used := used + Tlsf.blockSize outcome.1 outcome.2 } := by
  obtain ⟨T', hI⟩ := h.inv
  refine ⟨⟨T', ?_, hI.held, hI.nodup⟩, ?_⟩
  · rw [settle_control, settle_pools]
    exact hI.intact
  · have hsize : Tlsf.blockSize (held.map (blockAt control)) (UInt64.ofNat data) =
        UInt64.ofNat (tlsfBlockSize control.mem data) := hI.blockSize_abs h.known
    have hdata : data < 2 ^ 64 := by
      rcases h.known with rfl | hmem
      · decide
      · obtain ⟨a, z, rfl, ha⟩ := (hI.held data).mp hmem
        obtain ⟨-, hend, hlo, -⟩ := live_bounds hI.intact ha
        omega
    rw [abs_settle _ _ _ _ _ _ hdata, h.abs, hsize]

/-! ### The answers -/

/-- **A block that is granted** joins the pointers that stay, which are those of the blocks in
`sizes`. -/
theorem Inv.granted {control : Control} {rest : List ℕ} {sizes : ℕ → Option ℕ} (hI : Inv ctl s T)
    (h' : Intact ctl s.pools ∅ ∅ control T') (hrest : Pointers rest sizes) (hnodup : rest.Nodup)
    (hkept : ∀ {a z}, sizes a = some z → live T a = some z) (hb : sizes b = none)
    (hlive : live T' = Function.update sizes b (some k)) :
    Answered ctl s control (b + 16) ((b + 16) :: rest)
      (⟨UInt64.ofNat (b + 16), UInt64.ofNat k⟩ :: rest.map (blockAt s.control),
        UInt64.ofNat (b + 16)) := by
  have hself : live T' b = some k := by rw [hlive, Function.update_self]
  have hother : ∀ {a z}, sizes a = some z → live T' a = some z := by
    intro a z ha
    have hne : a ≠ b := by
      rintro rfl
      rw [hb] at ha
      cases ha
    rw [hlive, Function.update_of_ne hne, ha]
  have hmap := hrest.map_blockAt hI.intact h' fun ha => ⟨hkept ha, hother ha⟩
  refine ⟨⟨T', h', hlive ▸ hrest.insert b k,
    List.nodup_cons.mpr ⟨hrest.notMem hb, hnodup⟩⟩, Or.inr List.mem_cons_self, ?_⟩
  rw [List.map_cons, hmap, blockAt_eq h' hself]

/-- It fits to the blocks that stay. -/
theorem Inv.granted_fits {control : Control} {rest : List ℕ} {sizes : ℕ → Option ℕ}
    (hI : Inv ctl s T) (h' : Intact ctl s.pools ∅ ∅ control T') (hrest : Pointers rest sizes)
    (hkept : ∀ {a z}, sizes a = some z → live T a = some z) (hb : sizes b = none)
    (hlive : live T' = Function.update sizes b (some k)) :
    Block.Fits ⟨UInt64.ofNat (b + 16), UInt64.ofNat k⟩ (rest.map (blockAt s.control)) := by
  have hself : live T' b = some k := by rw [hlive, Function.update_self]
  obtain ⟨-, hend, hlo, hhi⟩ := live_bounds h' hself
  refine hI.fits hend (by omega) hhi (fun ptr hptr => ?_) fun c z hc hz => ?_
  · obtain ⟨a, z, rfl, ha⟩ := (hrest ptr).mp hptr
    exact (hI.held _).mpr ⟨a, z, rfl, hkept ha⟩
  · obtain ⟨a, y, he, ha⟩ := (hrest _).mp hc
    obtain rfl : c = a := by omega
    obtain rfl := Option.some.inj (hz.symm.trans (hkept ha))
    have hne : c ≠ b := by
      rintro rfl
      rw [hb] at ha
      cases ha
    have hc' : live T' c = some z := by rw [hlive, Function.update_of_ne hne, ha]
    exact ⟨hne, h'.sound.placed.live_apart hne.symm hself hc'⟩

theorem malloc_answered (hI : Inv ctl s T) (hlen : Classed len) :
    ∃ control data answer, TwoLevel.malloc ctl s.control len = some (control, data) ∧
      Tlsf.Answer.Possible s.abs.live 0 answer ∧
      Answered ctl s control data (exchange 0 data s.held) (Tlsf.malloc answer s.abs.live) := by
  rcases malloc_spec hI.intact hlen with ⟨-, hm⟩ | ⟨-, control, a, k, T', hm, h', ha, hk, hlive, -⟩
  · have hheld : exchange 0 0 s.held = s.held := hI.held.filter_null
    refine ⟨s.control, 0, .refuse, hm, trivial, ?_⟩
    rw [hheld]
    exact ⟨⟨T, hI⟩, Or.inl rfl, rfl⟩
  · have hheld : exchange 0 (a + 16) s.held = (a + 16) :: s.held := by
      unfold exchange
      rw [hI.held.filter_null]
      rfl
    refine ⟨control, a + 16, .grant _, hm, hI.granted_fits h' hI.held id ha hlive, ?_⟩
    rw [hheld]
    exact hI.granted h' hI.held hI.nodup id ha hlive

theorem free_answered (hI : Inv ctl s T) (hbuf : buf ∈ s.held) :
    ∃ control, TwoLevel.free ctl s.control buf = some control ∧
      Answered ctl s control 0 (exchange buf 0 s.held)
        (Tlsf.free (UInt64.ofNat buf) s.abs.live, 0) := by
  obtain ⟨a, z, rfl, ha⟩ := (hI.held buf).mp hbuf
  obtain ⟨control, T', hfree, h', hlive, -⟩ := free_spec hI.intact ha
  have hrest := hI.held.erase a
  refine ⟨control, hfree, ⟨T', h', hlive ▸ hrest, hI.nodup.filter _⟩, Or.inl rfl, ?_⟩
  have hmap := hrest.map_blockAt hI.intact h' fun hb =>
    ⟨(update_none_eq_some.mp hb).2, hlive ▸ hb⟩
  rw [hI.free_abs (Or.inr hbuf), ← hmap]
  rfl

/-- A reallocation that is granted, in place or with a move. -/
theorem reallocated_answered {control : Control} {z : ℕ} (hI : Inv ctl s T)
    (ha : live T a = some z) (hR : Reallocated ctl s.pools s.control T a z len control b) :
    ∃ answer, Tlsf.Answer.Possible s.abs.live (UInt64.ofNat (a + 16)) answer ∧
      answer ≠ .refuse ∧
      ∀ size : UInt64, size ≠ 0 → Answered ctl s control (b + 16)
        (exchange (a + 16) (b + 16) s.held)
        (Tlsf.realloc answer (UInt64.ofNat (a + 16)) size s.abs.live) := by
  have hbuf : a + 16 ∈ s.held := (hI.held _).mpr ⟨a, z, rfl, ha⟩
  have hnull : UInt64.ofNat (a + 16) ≠ 0 := fun hc =>
    hI.held.null ((hI.ofNat_inj hbuf (Or.inl rfl)).mp hc ▸ hbuf)
  have hfree := hI.free_abs (Or.inr hbuf)
  obtain ⟨k, T', h', hk, hlive, hapart⟩ := hR.intact
  -- the blocks that stay are the ones that a call of `tlsf_free` would leave
  have hrest := hI.held.erase a
  have hkept : ∀ {c y}, Function.update (live T) a none c = some y → live T c = some y :=
    fun hc => (update_none_eq_some.mp hc).2
  have hb : Function.update (live T) a none b = none := by
    by_cases hba : b = a
    · rw [hba, Function.update_self]
    · rw [Function.update_of_ne hba]
      exact (hR.fresh.resolve_left hba).1
  have hnew : Answered ctl s control (b + 16) (exchange (a + 16) (b + 16) s.held)
      (⟨UInt64.ofNat (b + 16), UInt64.ofNat k⟩ :: Tlsf.free (UInt64.ofNat (a + 16)) s.abs.live,
        UInt64.ofNat (b + 16)) :=
    hfree ▸ hI.granted h' hrest (hI.nodup.filter _) hkept hb hlive
  have hfits := hI.granted_fits h' hrest hkept hb hlive
  rw [← hfree] at hfits
  by_cases hba : b = a
  · subst hba
    refine ⟨.inPlace (UInt64.ofNat k), hfits, nofun, fun size hsize => ?_⟩
    unfold Tlsf.realloc
    rw [if_neg (fun hc => hsize hc.2), if_neg hnull]
    exact hnew
  · have hself : live T' b = some k := by rw [hlive, Function.update_self]
    obtain ⟨-, hend, hlo, hhi⟩ := live_bounds h' hself
    have hall : Block.Fits ⟨UInt64.ofNat (b + 16), UInt64.ofNat k⟩ s.abs.live := by
      refine hI.fits hend (by omega) hhi (fun _ hp => hp) fun c y _ hy => ?_
      by_cases hca : c = a
      · -- the old block is still there when the new one is granted
        subst hca
        obtain rfl := Option.some.inj (hy.symm.trans ha)
        exact ⟨Ne.symm hba, hapart hba⟩
      · have hcb : c ≠ b := by
          rintro rfl
          rw [Function.update_of_ne hca, hy] at hb
          cases hb
        have hc' : live T' c = some y := by
          rw [hlive, Function.update_of_ne hcb, Function.update_of_ne hca, hy]
        exact ⟨hcb, h'.sound.placed.live_apart hcb.symm hself hc'⟩
    refine ⟨.grant ⟨UInt64.ofNat (b + 16), UInt64.ofNat k⟩, hall, nofun, fun size hsize => ?_⟩
    obtain ⟨-, -, -, -, -, hto, -⟩ := hI.block hbuf
    have hne : UInt64.ofNat (b + 16) ≠ UInt64.ofNat (a + 16) := by
      intro hc
      rw [← UInt64.toNat_inj, toNat_ofNat (by omega), hto] at hc
      omega
    unfold Tlsf.realloc
    rw [if_neg (fun hc => hsize hc.2), if_neg hnull]
    simp only [Tlsf.malloc]
    rw [Heap.free_cons_of_ne hne]
    exact hnew

theorem realloc_answered (hI : Inv ctl s T) (hbuf : buf ∈ s.held) (hlen : len ≤ 2 ^ 32 - 2 ^ 26) :
    ∃ control data answer, TwoLevel.realloc ctl s.control buf len = some (control, data) ∧
      Tlsf.Answer.Possible s.abs.live (UInt64.ofNat buf) answer ∧ (answer = .refuse ↔ data = 0) ∧
      Answered ctl s control data
        (if data = 0 ∧ len ≠ 0 then s.held else exchange buf data s.held)
        (Tlsf.realloc answer (UInt64.ofNat buf) (UInt64.ofNat len) s.abs.live) := by
  have hnull : UInt64.ofNat buf ≠ 0 := fun hc =>
    hI.held.null ((hI.ofNat_inj hbuf (Or.inl rfl)).mp hc ▸ hbuf)
  have hzero : UInt64.ofNat len = 0 ↔ len = 0 := by
    rw [← UInt64.toNat_inj, toNat_ofNat (by omega)]
    rfl
  by_cases hl : len = 0
  · -- a call of `tlsf_free`
    obtain ⟨control, hfree, hA⟩ := free_answered hI hbuf
    refine ⟨control, 0, .refuse, ?_, trivial, iff_of_true rfl rfl, ?_⟩
    · unfold TwoLevel.realloc
      rw [if_pos ⟨fun hc => hI.held.null (hc ▸ hbuf), hl⟩, hfree]
      rfl
    · unfold Tlsf.realloc
      rw [if_neg (fun hc => hc.2 hl), if_pos ⟨hnull, hzero.mpr hl⟩]
      exact hA
  have hsize : UInt64.ofNat len ≠ 0 := fun hc => hl (hzero.mp hc)
  obtain ⟨a, z, rfl, ha⟩ := (hI.held buf).mp hbuf
  rcases realloc_spec hI.intact ha hl hlen with ⟨-, -, hre⟩ | ⟨control, b, hre, hR⟩
  · -- refused, and nothing has changed
    refine ⟨s.control, 0, .refuse, hre, trivial, iff_of_true rfl rfl, ?_⟩
    unfold Tlsf.realloc
    rw [if_pos ⟨rfl, hl⟩, if_neg (fun hc => hsize hc.2), if_neg hnull]
    exact ⟨⟨T, hI⟩, Or.inl rfl, rfl⟩
  · obtain ⟨answer, hpossible, hgranted, hA⟩ := reallocated_answered hI ha hR
    refine ⟨control, b + 16, answer, hre, hpossible,
      iff_of_false hgranted (Nat.succ_ne_zero _), ?_⟩
    rw [if_neg (fun hc => absurd hc.1 (Nat.succ_ne_zero _))]
    exact hA _ hsize

/-- A reallocation of `NULL` is an allocation. -/
theorem realloc_null_answered (hI : Inv ctl s T) (hlen : Classed len) :
    ∃ control data answer, TwoLevel.realloc ctl s.control 0 len = some (control, data) ∧
      Tlsf.Answer.Possible s.abs.live 0 answer ∧
      Answered ctl s control data (if data = 0 ∧ len ≠ 0 then s.held else exchange 0 data s.held)
        (Tlsf.realloc answer 0 (UInt64.ofNat len) s.abs.live) := by
  obtain ⟨control, data, answer, hm, hpos, hA⟩ := malloc_answered hI hlen
  have habs : Tlsf.realloc answer 0 (UInt64.ofNat len) s.abs.live =
      Tlsf.malloc answer s.abs.live := by
    unfold Tlsf.realloc
    rw [if_neg (fun hc => hc.1 rfl), if_pos rfl]
  have hheld : (if data = 0 ∧ len ≠ 0 then s.held else exchange 0 data s.held) =
      exchange 0 data s.held := by
    split
    · next hc =>
      rw [hc.1]
      exact hI.held.filter_null.symm
    · rfl
  rw [← TwoLevel.realloc_null] at hm
  rw [← habs, ← hheld] at hA
  exact ⟨control, data, answer, hm, hpos, hA⟩

/-! ### The calls refine the abstract ones -/

theorem alloc_refines (hI : Inv ctl s T) (hlen : Classed len) :
    ∃ s' T' answer, call ctl s (.alloc len) = some s' ∧ Inv ctl s' T' ∧
      Tlsf.Answer.Possible s.abs.live 0 answer ∧ s'.abs = s.abs.alloc answer := by
  obtain ⟨control, data, answer, hm, hpos, hA⟩ := malloc_answered hI hlen
  obtain ⟨⟨T', hI'⟩, habs⟩ := hA.settle "tjost_alloc: out of memory" s.used
  refine ⟨_, T', answer, ?_, hI', hpos, habs.trans ?_⟩
  · simp only [call, tjostAlloc, hm, Option.bind_eq_bind, Option.bind_some]
    unfold settle outOfMemory
    by_cases hd : data = 0
    · simp only [if_pos hd, requestMemory_held]
      rfl
    · simp only [if_neg hd, requestMemory_held]
      rfl
  · unfold Memory.alloc
    simp only [Memory.outOfMemory_live, Memory.outOfMemory_used]
    rfl

/-- What is left to do where the allocator has answered a reallocation. -/
theorem realloc_settles {control : Control} {data : ℕ} {answer : Tlsf.Answer}
    (hI : Inv ctl s T) (hbuf : buf = 0 ∨ buf ∈ s.held)
    (hre : TwoLevel.realloc ctl s.control buf len = some (control, data))
    (hA : Answered ctl s control data
      (if data = 0 ∧ len ≠ 0 then s.held else exchange buf data s.held)
      (Tlsf.realloc answer (UInt64.ofNat buf) (UInt64.ofNat len) s.abs.live)) :
    ∃ s' T', call ctl s (.realloc len buf) = some s' ∧ Inv ctl s' T' ∧
      s'.abs = s.abs.realloc answer (UInt64.ofNat len) (UInt64.ofNat buf) := by
  obtain ⟨⟨T', hI'⟩, habs⟩ :=
    hA.settle "tjost_realloc: out of memory" (s.used - s.blockSize buf)
  refine ⟨_, T', ?_, hI', habs.trans ?_⟩
  · simp only [call, tjostRealloc, hre, Option.bind_eq_bind, Option.bind_some]
    unfold settle outOfMemory
    by_cases hd : data = 0
    · simp only [if_pos hd, requestMemory_held]
      rfl
    · simp only [if_neg hd, requestMemory_held]
      rfl
  · rw [← hI.blockSize_abs hbuf]
    unfold Memory.realloc Memory.outOfMemory
    simp only
    split <;> rfl

theorem realloc_refines (hI : Inv ctl s T) (hlegal : Legal ctl s (.realloc len buf)) :
    ∃ s' T' answer, call ctl s (.realloc len buf) = some s' ∧ Inv ctl s' T' ∧
      s.abs.step (.realloc (UInt64.ofNat len) (UInt64.ofNat buf) answer) = some s'.abs ∧
      (buf ≠ 0 → (answer = .refuse ↔
        (TwoLevel.realloc ctl s.control buf len).map Prod.snd = some 0)) := by
  rcases hlegal with ⟨rfl, hlen⟩ | ⟨hbuf, hlen⟩
  · obtain ⟨control, data, answer, hre, hpos, hA⟩ := realloc_null_answered hI hlen
    obtain ⟨s', T', hcall, hI', habs⟩ := realloc_settles hI (Or.inl rfl) hre hA
    refine ⟨s', T', answer, hcall, hI', ?_, fun hc => absurd rfl hc⟩
    rw [habs]
    exact if_pos ⟨Or.inl rfl, hpos⟩
  · obtain ⟨control, data, answer, hre, hpos, hrefuse, hA⟩ := realloc_answered hI hbuf hlen
    obtain ⟨s', T', hcall, hI', habs⟩ := realloc_settles hI (Or.inr hbuf) hre hA
    refine ⟨s', T', answer, hcall, hI', ?_, fun _ => ?_⟩
    · rw [habs]
      exact if_pos ⟨Inv.owned (Or.inr hbuf), hpos⟩
    · rw [hrefuse, hre, Option.map_some, Option.some.injEq]

theorem free_refines (hI : Inv ctl s T) (hbuf : buf = 0 ∨ buf ∈ s.held) :
    ∃ s' T', call ctl s (.free buf) = some s' ∧ Inv ctl s' T' ∧
      s.abs.step (.free (UInt64.ofNat buf)) = some s'.abs := by
  have hsize := hI.blockSize_abs hbuf
  have howned : s.abs.step (.free (UInt64.ofNat buf)) = some (s.abs.free (UInt64.ofNat buf)) :=
    if_pos (Inv.owned hbuf)
  rw [howned]
  unfold Memory.free
  rw [hsize]
  rcases hbuf with rfl | hbuf
  · -- `NULL` has no block
    have hheld : exchange 0 0 s.held = s.held := hI.held.filter_null
    refine ⟨{ s with used := s.used - s.blockSize 0, held := exchange 0 0 s.held }, T, ?_, ?_, ?_⟩
    · simp only [call, tjostFree, TwoLevel.free, if_true, Option.bind_eq_bind, Option.bind_some]
    · rw [hheld]
      exact ⟨hI.intact, hI.held, hI.nodup⟩
    · rw [hheld]
      rfl
  · obtain ⟨control, hfree, hA⟩ := free_answered hI hbuf
    obtain ⟨T', hI'⟩ := hA.inv
    refine ⟨{ s with used := s.used - s.blockSize buf, control, held := exchange buf 0 s.held }, T',
      ?_, ⟨hI'.intact, hI'.held, hI'.nodup⟩, ?_⟩
    · simp only [call, tjostFree, hfree, Option.bind_eq_bind, Option.bind_some]
    · rw [(Prod.mk.inj hA.abs).1]
      rfl

theorem store_refines {i : ℕ} (hI : Inv ctl s T) (byte : UInt8)
    (hlegal : Legal ctl s (.store ptr i byte)) :
    ∃ s', call ctl s (.store ptr i byte) = some s' ∧ Inv ctl s' T ∧ s'.abs = s.abs := by
  obtain ⟨hptr, hi⟩ := hlegal
  obtain ⟨a, z, rfl, ha⟩ := (hI.held ptr).mp hptr
  rw [tlsfBlockSize_eq hI.intact ha] at hi
  have hused : a + 16 + i ∈ Used T := by
    rw [used_eq_bytes]
    exact ⟨a, z, ha, by omega, by omega⟩
  have hintact := hI.intact.write (Function.update s.control.mem (a + 16 + i) byte) fun x hx =>
    Function.update_of_ne (fun he : x = a + 16 + i => hx (he ▸ hused)) _ _
  refine ⟨_, rfl, ⟨hintact, hI.held, hI.nodup⟩, ?_⟩
  unfold abs
  simp only [Memory.mk.injEq, and_true]
  exact hI.held.map_blockAt hI.intact hintact fun hb => ⟨hb, hb⟩

/-- `tjost_add_memory`, for the account. -/
def extend (size : UInt64) (m : Memory) : Memory :=
  { m with
    rtmemSum := m.rtmemSum + size
    rtmemFlag := false
    messages := m.messages ++ [Growth.extended (m.rtmemSum + size)] }

theorem addMemory_refines {area : ℕ} (hI : Inv ctl s T)
    (hlegal : Legal ctl s (.addMemory area size)) :
    ∃ s' T', call ctl s (.addMemory area size) = some s' ∧ Inv ctl s' T' ∧
      s'.abs = extend (UInt64.ofNat size) s.abs := by
  rcases hlegal with hun | hr
  · refine ⟨{ s with
      rtmemSum := s.rtmemSum + UInt64.ofNat size
      rtmemFlag := false
      messages := s.messages ++ [Growth.extended (s.rtmemSum + UInt64.ofNat size)] },
      T, ?_, ⟨hI.intact, hI.held, hI.nodup⟩, rfl⟩
    simp only [call, tjostAddMemory, addPool_refused s.control hun, Option.bind_eq_bind,
      Option.bind_some, if_true]
  · obtain ⟨control, hadd, h', hlive, -⟩ := addPool_spec hI.intact hr
    have hpos := hr.pos
    refine ⟨{ s with
      control
      pools := poolRegion area size :: s.pools
      rtmemSum := s.rtmemSum + UInt64.ofNat size
      rtmemFlag := false
      messages := s.messages ++ [Growth.extended (s.rtmemSum + UInt64.ofNat size)] },
      _, ?_, ⟨h', hlive ▸ hI.held, hI.nodup⟩, ?_⟩
    · simp only [call, tjostAddMemory, hadd, Option.bind_eq_bind, Option.bind_some]
      rw [if_neg (by omega)]
    · unfold abs extend
      simp only [Memory.mk.injEq, and_true]
      exact hI.held.map_blockAt hI.intact h' fun hb => ⟨hb, hlive ▸ hb⟩

/-- The abstract machine, with its extensions. -/
def growing : Machine Memory (Memory.Call ⊕ UInt64) where
  init := Memory.machine.init
  step m
    | .inl c => m.step c
    | .inr size => some (extend size m)

theorem growing_call {m m' : Memory} {c : Memory.Call} (h : m.step c = some m') :
    growing.exec m [.inl c] = some m' := by
  have hstep : growing.step m (.inl c) = some m' := h
  rw [Machine.exec_cons, hstep]
  rfl

/-- The calls of the abstract machine that a call stands for, with any answer of the allocator. -/
def Stands : Call → List (Memory.Call ⊕ UInt64) → Prop
  | .alloc len, ls => ∃ answer, ls = [.inl (.alloc (UInt64.ofNat len) answer)]
  | .realloc len buf, ls =>
    ∃ answer, ls = [.inl (.realloc (UInt64.ofNat len) (UInt64.ofNat buf) answer)]
  | .free buf, ls => ls = [.inl (.free (UInt64.ofNat buf))]
  | .store _ _ _, ls => ls = []
  | .addMemory _ size, ls => ls = [.inr (UInt64.ofNat size)]

/-- **A legal call** does not fail. It is the one of the abstract machine that it stands for. -/
theorem call_spec (hI : Inv ctl s T) (hlegal : Legal ctl s c) :
    ∃ s' T' ls, call ctl s c = some s' ∧ Inv ctl s' T' ∧ Stands c ls ∧
      growing.exec s.abs ls = some s'.abs := by
  cases c with
  | alloc len =>
    obtain ⟨s', T', answer, hcall, hI', hpos, habs⟩ := alloc_refines hI hlegal
    have hstep : s.abs.step (.alloc (UInt64.ofNat len) answer) = some s'.abs := by
      rw [habs]
      exact if_pos hpos
    exact ⟨s', T', _, hcall, hI', ⟨answer, rfl⟩, growing_call hstep⟩
  | realloc len buf =>
    obtain ⟨s', T', answer, hcall, hI', hstep, -⟩ := realloc_refines hI hlegal
    exact ⟨s', T', _, hcall, hI', ⟨answer, rfl⟩, growing_call hstep⟩
  | free buf =>
    obtain ⟨s', T', hcall, hI', hstep⟩ := free_refines hI hlegal
    exact ⟨s', T', _, hcall, hI', rfl, growing_call hstep⟩
  | store ptr i byte =>
    obtain ⟨s', hcall, hI', habs⟩ := store_refines hI byte hlegal
    exact ⟨s', T, [], hcall, hI', rfl, congrArg some habs.symm⟩
  | addMemory area size =>
    obtain ⟨s', T', hcall, hI', habs⟩ := addMemory_refines hI hlegal
    exact ⟨s', T', [.inr (UInt64.ofNat size)], hcall, hI', rfl, congrArg some habs.symm⟩

/-! ### Runs -/

theorem inv_init (h₀ : (machine ctl).init s) : ∃ T, Inv ctl s T := by
  obtain ⟨hpos, h8, mem, bytes, hlo, hhi, hend, hcreate⟩ := h₀
  obtain ⟨control, T, hcreate', hintact, hlive⟩ := createWithPool_spec mem h8 hpos hlo hhi hend
  unfold create at hcreate
  rw [hcreate', Option.map_some] at hcreate
  obtain rfl := Option.some.inj hcreate
  refine ⟨T, hintact, fun ptr => iff_of_false List.not_mem_nil ?_, List.nodup_nil⟩
  rintro ⟨a, z, -, ha⟩
  rw [hlive] at ha
  cases ha

theorem step_inv (hI : ∃ T, Inv ctl s T) (hstep : (machine ctl).step s c = some s') :
    (∃ T, Inv ctl s' T) ∧ Legal ctl s c ∧
      ∃ ls, Stands c ls ∧ growing.exec s.abs ls = some s'.abs := by
  obtain ⟨T, hI⟩ := hI
  -- the machine makes no other calls
  have hlegal : Legal ctl s c := by
    by_contra hc
    have hnone : (machine ctl).step s c = none := if_neg hc
    rw [hnone] at hstep
    cases hstep
  have hcall' : (machine ctl).step s c = call ctl s c := if_pos hlegal
  obtain ⟨t, T', ls, hcall, hI', hls⟩ := call_spec hI hlegal
  rw [hcall', hcall] at hstep
  obtain rfl := Option.some.inj hstep
  exact ⟨⟨T', hI'⟩, hlegal, ls, hls⟩

theorem exec_abs {cs : List Call} (hinit : (machine ctl).init s)
    (hrun : (machine ctl).exec s cs = some s') :
    (∃ T, Inv ctl s' T) ∧
      ∃ lss, List.Forall₂ Stands cs lss ∧ growing.exec s.abs lss.flatten = some s'.abs :=
  Machine.exists_exec_map (I := fun s => ∃ T, Inv ctl s T)
    (fun _ _ _ hI hstep => ⟨(step_inv hI hstep).1, (step_inv hI hstep).2.2⟩) (inv_init hinit) hrun

/-- **Every run is one of the abstract ones**, with the same blocks, counter, requests and messages
at its end, and the next legal call does not fail. -/
theorem exists_exec_abs {cs : List Call} (hinit : (machine ctl).init s)
    (hrun : (machine ctl).exec s cs = some s') :
    (∃ lss, List.Forall₂ Stands cs lss ∧ growing.exec s.abs lss.flatten = some s'.abs) ∧
      ∀ c, Legal ctl s' c → ∃ s'', (machine ctl).step s' c = some s'' := by
  obtain ⟨⟨T, hI⟩, hls⟩ := exec_abs hinit hrun
  refine ⟨hls, fun c hlegal => ?_⟩
  obtain ⟨s'', T', ls, hcall, -⟩ := call_spec hI hlegal
  exact ⟨s'', (if_pos hlegal).trans hcall⟩

/-- A host with a pool of one block, of 448 bytes. -/
def smallHost : HostMemory := (create 8 (fun _ => 0) 7000).get (by decide +kernel)

theorem smallHost_init : (machine 8).init smallHost :=
  ⟨by decide, by decide, _, 7000, by decide, by decide, by decide, (Option.some_get _).symm⟩

/-- The second block is in the way of the first one, which cannot grow to 400 bytes. -/
def refusedCalls : List Call := [.alloc 100, .alloc 24, .realloc 400 6552]

theorem exists_exec_abs_refusedCalls : ∃ s' lss, (machine 8).exec smallHost refusedCalls = some s' ∧
    List.Forall₂ Stands refusedCalls lss ∧ growing.exec smallHost.abs lss.flatten = some s'.abs := by
  obtain ⟨s', hs'⟩ : ∃ s', (machine 8).exec smallHost refusedCalls = some s' :=
    Option.isSome_iff_exists.mp (by decide +kernel)
  obtain ⟨⟨lss, hlss⟩, -⟩ := exists_exec_abs smallHost_init hs'
  exact ⟨s', lss, hs', hlss⟩

/-! ### The account -/

/-- The counter is the sum of the sizes of the blocks that are held. -/
def Accounts (s : HostMemory) : Prop :=
  s.used.toNat = (s.held.map (tlsfBlockSize s.control.mem)).sum

instance (s : HostMemory) : Decidable s.Accounts := inferInstanceAs (Decidable (_ = _))

/-- A reallocation of a block, to a nonzero length, that the allocator refuses. -/
def Loses (ctl : ℕ) (s : HostMemory) : Call → Prop
  | .realloc len buf => len ≠ 0 ∧ buf ≠ 0 ∧
    (TwoLevel.realloc ctl s.control buf len).map Prod.snd = some 0
  | _ => False

instance (s : HostMemory) (c : Call) : Decidable (Loses ctl s c) := by
  cases c <;> unfold Loses <;> infer_instance

theorem accounts_abs (hI : Inv ctl s T) : s.abs.Accounts ↔ s.Accounts := by
  have hsizes : totalSize s.abs.live = (s.held.map (tlsfBlockSize s.control.mem)).sum := by
    unfold totalSize abs
    rw [List.map_map]
    congr 1
    refine List.map_congr_left fun ptr hptr => ?_
    obtain ⟨a, z, rfl, ha⟩ := (hI.held ptr).mp hptr
    obtain ⟨-, -, -, hhi⟩ := live_bounds hI.intact ha
    show (blockAt s.control (a + 16)).size.toNat = _
    rw [blockAt_eq hI.intact ha, tlsfBlockSize_eq hI.intact ha]
    exact toNat_ofNat (by omega)
  unfold Memory.Accounts Accounts
  rw [hsizes]
  rfl

/-- The abstract machine loses a block in the same calls. -/
theorem loses_abs {answer : Tlsf.Answer} (hI : Inv ctl s T)
    (hlegal : Legal ctl s (.realloc len buf))
    (hrefuse : buf ≠ 0 → (answer = .refuse ↔
      (TwoLevel.realloc ctl s.control buf len).map Prod.snd = some 0)) :
    s.abs.Loses (.realloc (UInt64.ofNat len) (UInt64.ofNat buf) answer) ↔
      Loses ctl s (.realloc len buf) := by
  have hnot : answer ≠ .refuse →
      ¬ s.abs.Loses (.realloc (UInt64.ofNat len) (UInt64.ofNat buf) answer) := by
    intro hne
    cases answer with
    | refuse => exact absurd rfl hne
    | grant block => exact id
    | inPlace size => exact id
  rcases hlegal with ⟨rfl, -⟩ | ⟨hbuf, hlen⟩
  · -- a reallocation of `NULL` has no block to lose
    refine iff_of_false ?_ fun hc => hc.2.1 rfl
    cases answer with
    | refuse => exact fun hc => hc.2.1 rfl
    | grant block => exact id
    | inPlace size => exact id
  · have hne : buf ≠ 0 := fun hc => hI.held.null (hc ▸ hbuf)
    have hzero : UInt64.ofNat len = 0 ↔ len = 0 := by
      rw [← UInt64.toNat_inj, toNat_ofNat (by omega)]
      rfl
    have hnull : UInt64.ofNat buf ≠ 0 := fun hc =>
      hne ((hI.ofNat_inj hbuf (Or.inl rfl)).mp hc)
    -- the size that the counter loses is not zero, since a block in use has 24 bytes or more
    have hsize : Tlsf.blockSize s.abs.live (UInt64.ofNat buf) ≠ 0 := by
      obtain ⟨a, z, rfl, ha⟩ := (hI.held buf).mp hbuf
      obtain ⟨-, -, hlo, hhi⟩ := live_bounds hI.intact ha
      rw [hI.blockSize_abs (Or.inr hbuf)]
      unfold HostMemory.blockSize
      rw [tlsfBlockSize_eq hI.intact ha, Ne, ← UInt64.toNat_inj, toNat_ofNat (by omega)]
      exact fun hc => absurd hc (by simp; omega)
    by_cases hanswer : answer = .refuse
    · have hnone := (hrefuse hne).mp hanswer
      subst hanswer
      constructor
      · rintro ⟨hl, -, -⟩
        exact ⟨fun hc => hl (hzero.mpr hc), hne, hnone⟩
      · rintro ⟨hl, -, -⟩
        exact ⟨fun hc => hl (hzero.mp hc), hnull, hsize⟩
    · exact iff_of_false (hnot hanswer) fun hc => hanswer ((hrefuse hne).mpr hc.2.2)

/-- One call keeps a right counter right, unless it loses a block. -/
theorem accounts_step (hI : Inv ctl s T) (ha : s.Accounts) (hlegal : Legal ctl s c)
    (hcall : call ctl s c = some s') : s'.Accounts ↔ ¬ Loses ctl s c := by
  have ha' := (accounts_abs hI).mpr ha
  cases c with
  | alloc len =>
    obtain ⟨t, T', answer, hcall', hI', hpos, habs⟩ := alloc_refines hI hlegal
    obtain rfl := Option.some.inj (hcall'.symm.trans hcall)
    have hstep : s.abs.step (.alloc (UInt64.ofNat len) answer) = some t.abs := by
      rw [habs]
      exact if_pos hpos
    rw [← accounts_abs hI']
    exact Memory.step_accounts_iff hI.heap ha' hstep
  | realloc len buf =>
    obtain ⟨t, T', answer, hcall', hI', hstep, hrefuse⟩ := realloc_refines hI hlegal
    obtain rfl := Option.some.inj (hcall'.symm.trans hcall)
    rw [← accounts_abs hI', Memory.step_accounts_iff hI.heap ha' hstep]
    exact not_congr (loses_abs hI hlegal hrefuse)
  | free buf =>
    obtain ⟨t, T', hcall', hI', hstep⟩ := free_refines hI hlegal
    obtain rfl := Option.some.inj (hcall'.symm.trans hcall)
    rw [← accounts_abs hI']
    exact Memory.step_accounts_iff hI.heap ha' hstep
  | store ptr i byte =>
    obtain ⟨t, hcall', hI', habs⟩ := store_refines hI byte hlegal
    obtain rfl := Option.some.inj (hcall'.symm.trans hcall)
    refine iff_of_true ?_ id
    rw [← accounts_abs hI', habs]
    exact ha'
  | addMemory area size =>
    obtain ⟨t, T', hcall', hI', habs⟩ := addMemory_refines hI hlegal
    obtain rfl := Option.some.inj (hcall'.symm.trans hcall)
    refine iff_of_true ?_ id
    rw [← accounts_abs hI', habs]
    exact ha'

/-- **The account is right exactly without refused reallocations**: the counter is the sum of the
`tlsf_block_size` of the pointers that are held, after every call of a run, if and only if no call
of the run is a reallocation of a block that the allocator refuses. -/
theorem account_iff {cs : List Call} (hinit : (machine ctl).init s)
    (hrun : (machine ctl).exec s cs = some s') :
    (∀ cs' t, cs' <+: cs → (machine ctl).exec s cs' = some t → t.Accounts) ↔
      (machine ctl).Meets (fun s c => ¬ Loses ctl s c) s cs := by
  refine Machine.meets_iff (S := fun s => ∃ T, Inv ctl s T) (fun _ _ _ hI hstep =>
    (step_inv hI hstep).1) (fun s c s' hI ha hstep => ?_) (inv_init hinit) ?_ hrun
  · obtain ⟨-, hlegal, -⟩ := step_inv hI hstep
    obtain ⟨T, hI⟩ := hI
    exact accounts_step hI ha hlegal ((if_pos hlegal).symm.trans hstep)
  · obtain ⟨-, -, mem, bytes, -, -, -, hcreate⟩ := hinit
    obtain ⟨control, -, rfl⟩ := Option.map_eq_some_iff.mp hcreate
    rfl

theorem account_iff_refusedCalls :
    ¬ ∀ cs' t, cs' <+: refusedCalls → (machine 8).exec smallHost cs' = some t → t.Accounts := by
  obtain ⟨s', hs'⟩ : ∃ s', (machine 8).exec smallHost refusedCalls = some s' :=
    Option.isSome_iff_exists.mp (by decide +kernel)
  rw [account_iff smallHost_init hs']
  decide +kernel

/-! ### The allocator of the Lua state -/

/-- **Shrinking does not fail**, and does not move. The Lua state relies on it: its allocator must
not fail where the new size is not larger than the old one. -/
theorem luaAlloc_shrink {nsize : ℕ} {cs : List Call} (hinit : (machine ctl).init s)
    (hrun : (machine ctl).exec s cs = some s') (hptr : ptr ∈ s'.held) (hne : nsize ≠ 0)
    (hle : nsize ≤ tlsfBlockSize s'.control.mem ptr) (hmax : nsize ≤ 2 ^ 32 - 2 ^ 26) :
    ∃ s'', luaAlloc ctl s' ptr nsize = some (s'', ptr) := by
  obtain ⟨⟨T, hI⟩, -⟩ := exec_abs hinit hrun
  have hnull : ptr ≠ 0 := fun hc => hI.held.null (hc ▸ hptr)
  obtain ⟨a, z, rfl, ha⟩ := (hI.held ptr).mp hptr
  rw [tlsfBlockSize_eq hI.intact ha] at hle
  obtain ⟨-, -, hlo, -⟩ := live_bounds hI.intact ha
  obtain ⟨t, ht, he⟩ := Option.map_eq_some_iff.mp (live_eq_some_iff.mp ha).1
  obtain ⟨rfl, -⟩ := Prod.mk.inj he
  have h8 := (hI.intact.sound.placed.aligned ht).2
  have hadjust : adjustRequestSize nsize 8 ≤ t.size := by
    rw [adjustRequestSize_eq hne (by omega)]
    omega
  -- a refusal and a move both need a block that has to grow
  have hre : ∃ control, TwoLevel.realloc ctl s'.control (a + 16) nsize =
      some (control, a + 16) := by
    rcases realloc_spec hI.intact ha hne hmax with ⟨-, hgrow, -⟩ | ⟨control, b, hre, hR⟩
    · omega
    · rcases hR.fresh with rfl | ⟨-, hgrow⟩
      · exact ⟨control, hre⟩
      · omega
  obtain ⟨control, hre⟩ := hre
  unfold luaAlloc tjostRealloc
  rw [if_neg hne, if_pos hnull]
  simp only [hre, Option.bind_eq_bind, Option.bind_some]
  exact ⟨_, rfl⟩

theorem luaAlloc_shrink_held : ∃ s', (machine 8).exec smallHost [.alloc 100] = some s' ∧
    ∃ s'', luaAlloc 8 s' 6552 50 = some (s'', 6552) := by
  obtain ⟨s', hs'⟩ : ∃ s', (machine 8).exec smallHost [.alloc 100] = some s' :=
    Option.isSome_iff_exists.mp (by decide +kernel)
  have hheld : ((machine 8).exec smallHost [.alloc 100]).map (fun s => decide
      (6552 ∈ s.held ∧ 50 ≤ tlsfBlockSize s.control.mem 6552)) = some true := by decide +kernel
  rw [hs', Option.map_some, Option.some.injEq, decide_eq_true_eq] at hheld
  exact ⟨s', hs', luaAlloc_shrink smallHost_init hs' hheld.1 (by decide) hheld.2 (by decide)⟩

end HostMemory

end Tjost
