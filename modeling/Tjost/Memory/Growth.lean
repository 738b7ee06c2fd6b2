import Tjost.Library.ByteRing
import Tjost.Library.Bytes
import Tjost.Memory.Account

/-!
# The growth of the real-time memory

Two threads extend the memory of the allocator. The real-time thread finds in
`tjost_alloc` or `tjost_realloc` that more than half of it is used, sets
`rtmem_flag` and sends a wake-up. The uv thread answers it in
`tjost_request_memory`: it maps an area, makes a chunk record for it and pushes
the address of the record into `rb_rtmem`. At the start of a later cycle
`tjost_add_memory` takes it off the ring, gives the area to TLSF and resets the
flag. `Growth.machine` has a step for each of these, and the answers of `mmap`
and `calloc` are part of its labels.

* `Growth.singleRequest_iff` — whatever the answers, at most one request is under way,
  none is while the flag is `0`, the ring has room for every push, and the pushed
  chunks are listed once each, in order. The invariant counts the places where a
  request can be (`Growth.Inv.tokens_le`): each step moves it on, or loses it. The
  listed chunks are pools, once each, at all times of a run if and only if TLSF accepts
  the area of every chunk that `tjost_add_memory` takes.
* `Growth.consistent_iff` — the sum, the list of chunks and the flag are right at
  all times of a run if and only if no mapping or chunk record of the run fails
  and TLSF accepts every area.

`MAP_FAILED` is not `NULL`, so a failed mapping passes for an area. It is pushed and
listed as one, and TLSF then refuses it (`Growth.mapFailed_refused`).

A record is a 64-bit address, `0` where `calloc` fails: writing through it ends the
program (`UvPc.fault`).
-/

open Transition

namespace Tjost

/-! ### Pools -/

namespace Tlsf

/-- `ALIGN_SIZE` on a 64-bit machine. -/
def alignSize : UInt64 := 8

/-- `tlsf_pool_overhead`, twice `block_header_overhead`. -/
def poolOverhead : UInt64 := 16

/-- `block_size_min`. -/
def blockSizeMin : UInt64 := 24

/-- `block_size_max`. -/
def blockSizeMax : UInt64 := 0x100000000

/-- `align_down`, for a power of two. -/
def alignDown (x align : UInt64) : UInt64 := x - (x &&& (align - 1))

/-- `tlsf_add_pool`: the pool, or `NULL` where the area is refused. -/
def addPool (mem bytes : UInt64) : UInt64 :=
  let poolBytes := alignDown (bytes - poolOverhead) alignSize
  if mem % alignSize ≠ 0 then 0
  else if poolBytes < blockSizeMin ∨ blockSizeMax < poolBytes then 0
  else mem

end Tlsf

/-! ### The threads -/

/-- `area_size`. -/
def areaSize : UInt64 := 0x1000000

/-- `MAP_FAILED`. -/
def mapFailed : UInt64 := 0xffffffffffffffff

/-- `sizeof(uintptr_t)`. -/
def sizeofUintptr : ℕ := 8

/-- The size of the array behind `rb_rtmem`: `2 * sizeof(Tjost_Mem_Chunk) + 1`,
rounded up to a power of two by `jack_ringbuffer_create`. -/
def rtmemRingSize : ℕ := 128

/-- A `Tjost_Mem_Chunk`. -/
structure MemChunk where
  size : UInt64
  area : UInt64
  pool : UInt64
  deriving DecidableEq, Repr

/-- A pool that TLSF has accepted, with the area that it was made of. -/
structure Pool where
  handle : UInt64
  area : Block
  deriving DecidableEq, Repr

/-- Where the real-time thread is. At shutdown the main thread takes its place. -/
inductive RtPc
  | idle
  /-- `rtmem_flag` is set, before `uv_async_send`. -/
  | send
  /-- In `tjost_add_memory`, behind the read of a chunk. -/
  | add (chunk : UInt64)
  /-- In the loop of `tjost_free_memory`. -/
  | freeMemory
  deriving DecidableEq, Repr

/-- Where the uv thread is in `tjost_request_memory`. -/
inductive UvPc
  | idle
  /-- Before `mmap`. -/
  | map
  /-- Before `calloc`. -/
  | record (area : UInt64)
  /-- Before the test for room in `rb_rtmem`. -/
  | push (chunk : UInt64)
  /-- Behind a write through `NULL`: the program has ended. -/
  | fault
  deriving DecidableEq, Repr

/-- A request is about to be sent, or its chunk is being added. -/
def RtPc.request : RtPc → ℕ
  | .send | .add _ => 1
  | .idle | .freeMemory => 0

/-- The chunk that has been taken off the ring. -/
def RtPc.taken : RtPc → List UInt64
  | .add p => [p]
  | .idle | .send | .freeMemory => []

/-- A handler is running. -/
def UvPc.request : UvPc → ℕ
  | .map | .record _ | .push _ => 1
  | .idle | .fault => 0

/-- The chunk record that the handler has made. -/
def UvPc.made : UvPc → List UInt64
  | .push p => [p]
  | .idle | .map | .record _ | .fault => []

structure Growth (ρ : Type) where
  memory : Memory
  /-- A wake-up has been sent and not been consumed. -/
  pending : Bool
  rbRtmem : ρ
  /-- The chunk records. -/
  chunk : UInt64 → MemChunk
  rtmemChunks : List UInt64
  /-- The pools of TLSF. -/
  pools : List Pool
  rt : RtPc
  uv : UvPc
  /-- The records that `calloc` has made. -/
  records : List UInt64
  /-- The chunks written to `rb_rtmem`, and those passed to `tlsf_add_pool`, in order. -/
  pushed : List UInt64
  added : List UInt64

namespace Growth

variable {ρ : Type} (R : ByteRing ρ rtmemRingSize)

/-- The steps of the two threads, with what the environment answers. -/
inductive Label
  /-- `tjost_alloc`, `tjost_realloc` or `tjost_free`. -/
  | call (c : Memory.Call)
  /-- `uv_async_send(&host->rtmem)`. -/
  | send
  /-- The start of a cycle: the test and the read of `tjost_add_memory`. -/
  | addMemory
  /-- The rest of `tjost_add_memory`. -/
  | addPool
  /-- The loop of the uv thread consumes the wake-up. -/
  | wake
  | mmap (area : UInt64)
  | calloc (chunk : UInt64)
  | push
  /-- `tjost_free_memory` is called. -/
  | shutdown
  /-- One iteration of its loop. -/
  | freeChunk
  deriving DecidableEq, Repr

/-- The bytes of a pointer. -/
def pointerBytes (p : UInt64) : List UInt8 := Bytes.toLE sizeofUintptr p.toNat

/-- The text of the message about an extension. `%x` prints the low 32 bits. -/
def extended (sum : UInt64) : String :=
  "Rt memory extended to: 0x" ++ String.ofList (Nat.toDigits 16 (sum.toNat % 2 ^ 32)) ++ " bytes"

/-- The area that a chunk record describes. -/
def areaOf (s : Growth ρ) (p : UInt64) : Block := ⟨(s.chunk p).area, (s.chunk p).size⟩

/-- `tjost_add_memory` behind the read of the chunk `p`. -/
def addMemory (p : UInt64) (s : Growth ρ) : Growth ρ :=
  let pool := Tlsf.addPool (s.chunk p).area (s.chunk p).size
  let sum := s.memory.rtmemSum + (s.chunk p).size
  { s with
    chunk := Function.update s.chunk p { s.chunk p with pool }
    pools := if pool = 0 then s.pools else ⟨pool, s.areaOf p⟩ :: s.pools
    rtmemChunks := p :: s.rtmemChunks
    memory := { s.memory with
      rtmemSum := sum
      rtmemFlag := false
      messages := s.memory.messages ++ [extended sum] }
    rt := .idle
    added := s.added ++ [p] }

/-- An iteration of `tjost_free_memory`. -/
def freeChunk (p : UInt64) (rest : List UInt64) (s : Growth ρ) : Growth ρ :=
  { s with
    pools := s.pools.eraseP fun pool => pool.handle == (s.chunk p).pool
    memory := { s.memory with rtmemSum := s.memory.rtmemSum - (s.chunk p).size }
    rtmemChunks := rest }

/-- An area that `mmap` can answer with: it lies apart from what is mapped for the
pools. -/
def Mappable (s : Growth ρ) (area : UInt64) : Prop :=
  area = mapFailed ∨ area = 0 ∨ Block.Fits ⟨area, areaSize⟩ (s.pools.map Pool.area)

instance (s : Growth ρ) (area : UInt64) : Decidable (s.Mappable area) :=
  inferInstanceAs (Decidable (_ ∨ _))

def step (s : Growth ρ) : Label → Option (Growth ρ)
  | .call c =>
    if s.rt = .idle ∧ s.uv ≠ .fault then
      (s.memory.step c).map fun memory =>
        { s with memory, rt := if memory.requests = s.memory.requests then .idle else .send }
    else none
  | .send =>
    if s.rt = .send ∧ s.uv ≠ .fault then some { s with pending := true, rt := .idle } else none
  | .addMemory =>
    if s.rt = .idle ∧ s.uv ≠ .fault then
      if sizeofUintptr ≤ R.readSpace s.rbRtmem then
        let (rbRtmem, chunk) := R.read s.rbRtmem sizeofUintptr
        some { s with rbRtmem, rt := .add (UInt64.ofNat (Bytes.ofLE chunk)) }
      else some s
    else none
  | .addPool =>
    match s.rt with
    | .add p => if s.uv ≠ .fault then some (s.addMemory p) else none
    | _ => none
  | .wake =>
    if s.pending = true ∧ s.uv = .idle ∧ s.rt ≠ .freeMemory then
      some { s with pending := false, uv := .map }
    else none
  | .mmap area =>
    if s.uv = .map ∧ s.Mappable area then
      -- only `NULL` is taken for a failure, and reported to `stderr`
      if area ≠ 0 then some { s with uv := .record area } else some { s with uv := .idle }
    else none
  | .calloc p =>
    match s.uv with
    | .record area =>
      if p = 0 then some { s with uv := .fault }
      else if p ∈ s.records then none
      else some { s with
        chunk := Function.update s.chunk p ⟨areaSize, area, 0⟩
        records := p :: s.records
        uv := .push p }
    | _ => none
  | .push =>
    match s.uv with
    | .push p =>
      if R.writeSpace s.rbRtmem < sizeofUintptr then some { s with uv := .idle }
      else some { s with
        rbRtmem := (R.write s.rbRtmem (pointerBytes p)).1
        pushed := s.pushed ++ [p]
        uv := .idle }
    | _ => none
  | .shutdown =>
    if s.rt = .idle ∧ s.uv = .idle then some { s with rt := .freeMemory } else none
  | .freeChunk =>
    match s.rt, s.rtmemChunks with
    | .freeMemory, p :: rest => some (s.freeChunk p rest)
    | _, _ => none

/-- What `_tjost_init` leaves behind: one chunk, whose area is a pool. -/
def Init (s : Growth ρ) : Prop :=
  ∃ p pool area, s.memory = Memory.start areaSize ∧ s.pending = false ∧
    R.contents s.rbRtmem = [] ∧ s.rtmemChunks = [p] ∧ s.chunk p = ⟨areaSize, area, pool⟩ ∧
    pool ≠ 0 ∧ s.pools = [⟨pool, ⟨area, areaSize⟩⟩] ∧ Block.InSpace ⟨area, areaSize⟩ ∧
    s.rt = .idle ∧ s.uv = .idle ∧ s.records = [p] ∧ s.pushed = [] ∧ s.added = []

def machine : Machine (Growth ρ) Label where
  init := Init R
  step := step R

/-! ### The places of a request -/

/-- The requests under way: a pending wake-up, a running handler, and the chunks in
`rb_rtmem`. -/
def inFlight (s : Growth ρ) : ℕ :=
  s.pending.toNat + s.uv.request + R.readSpace s.rbRtmem / sizeofUintptr

/-- An area that TLSF refuses, or that lies apart from its pools. -/
def NewArea (s : Growth ρ) (area : UInt64) : Prop :=
  area = mapFailed ∨ Block.Fits ⟨area, areaSize⟩ (s.pools.map Pool.area)

/-- A chunk whose area is a pool. -/
def accepted (s : Growth ρ) (p : UInt64) : Bool := (s.chunk p).pool != 0

/-- **The invariant of all runs.** `ring` are the pointers in `rb_rtmem`. -/
structure Inv (s : Growth ρ) (ring : List UInt64) : Prop where
  contents : R.contents s.rbRtmem = ring.flatMap pointerBytes
  /-- A request stands in one place at most, and in none while the flag is `0`. -/
  tokens_le : s.rt.request + s.pending.toNat + s.uv.request + ring.length ≤
    s.memory.rtmemFlag.toNat
  pushed_eq : s.pushed = s.added ++ s.rt.taken ++ ring
  pushed_nodup : (s.pushed ++ s.uv.made).Nodup
  pushed_records : ∀ p ∈ s.pushed ++ s.uv.made, p ∈ s.records
  chunks_eq : s.rt ≠ .freeMemory → ∃ first, s.rtmemChunks = s.added.reverse ++ [first]
  chunks_nodup : s.rtmemChunks.Nodup
  chunks_records : ∀ p ∈ s.rtmemChunks, p ∈ s.records ∧ (s.chunk p).size = areaSize
  area : ∀ area, s.uv = .record area → s.NewArea area
  new : ∀ p ∈ s.rt.taken ++ ring ++ s.uv.made, p ∉ s.rtmemChunks ∧
    (s.chunk p).size = areaSize ∧ s.NewArea (s.chunk p).area
  pools_eq : s.pools = (s.rtmemChunks.filter s.accepted).map fun p =>
    ⟨(s.chunk p).pool, s.areaOf p⟩
  heap : Heap (s.pools.map Pool.area)

variable {R} {s s' : Growth ρ} {ring : List UInt64} {p : UInt64}

@[simp] theorem length_pointerBytes (p : UInt64) : (pointerBytes p).length = sizeofUintptr :=
  Bytes.length_toLE ..

theorem ofLE_pointerBytes (p : UInt64) : UInt64.ofNat (Bytes.ofLE (pointerBytes p)) = p := by
  unfold pointerBytes
  rw [Bytes.ofLE_toLE_of_lt (by simpa [sizeofUintptr] using p.toNat_lt), UInt64.ofNat_toNat]

theorem length_pointers (ring : List UInt64) :
    (ring.flatMap pointerBytes).length = ring.length * sizeofUintptr := by
  induction ring with
  | nil => rfl
  | cons p ring ih =>
    rw [List.flatMap_cons, List.length_append, ih, length_pointerBytes, List.length_cons,
      Nat.succ_mul, Nat.add_comm]

/-- Fewer pools leave more room. -/
theorem NewArea.mono {area : UInt64} (h : s.NewArea area) (hsub : s'.pools.Sublist s.pools) :
    s'.NewArea area :=
  h.imp_right fun hfits => ⟨hfits.1, fun c hc => hfits.2 c ((hsub.map _).subset hc)⟩

/-- The record of the chunk that is added holds the answer of TLSF. -/
theorem addMemory_chunk_self (s : Growth ρ) (p : UInt64) :
    (s.addMemory p).chunk p =
      ⟨(s.chunk p).size, (s.chunk p).area, Tlsf.addPool (s.chunk p).area (s.chunk p).size⟩ :=
  Function.update_self ..

theorem addMemory_chunk_other {q : UInt64} (h : q ≠ p) : (s.addMemory p).chunk q = s.chunk q :=
  Function.update_of_ne h _ _

/-! ### What a step does -/

variable (R s) in
/-- One constructor for every branch of `step`. -/
inductive Outcome : Label → Growth ρ → Prop
  | call {c : Memory.Call} {memory : Memory} (hrt : s.rt = .idle)
      (hc : s.memory.step c = some memory) :
      Outcome (.call c)
        { s with memory, rt := if memory.requests = s.memory.requests then .idle else .send }
  | send (hrt : s.rt = .send) : Outcome .send { s with pending := true, rt := .idle }
  | take (hrt : s.rt = .idle) (hspace : sizeofUintptr ≤ R.readSpace s.rbRtmem) :
      Outcome .addMemory { s with
        rbRtmem := (R.read s.rbRtmem sizeofUintptr).1
        rt := .add (UInt64.ofNat (Bytes.ofLE (R.read s.rbRtmem sizeofUintptr).2)) }
  | nothing : Outcome .addMemory s
  | addPool {p : UInt64} (hrt : s.rt = .add p) : Outcome .addPool (s.addMemory p)
  | wake (hpending : s.pending = true) (huv : s.uv = .idle) :
      Outcome .wake { s with pending := false, uv := .map }
  | mapped {area : UInt64} (huv : s.uv = .map) (harea : s.Mappable area) (hnull : area ≠ 0) :
      Outcome (.mmap area) { s with uv := .record area }
  | unmapped (huv : s.uv = .map) : Outcome (.mmap 0) { s with uv := .idle }
  | exhausted {area : UInt64} (huv : s.uv = .record area) :
      Outcome (.calloc 0) { s with uv := .fault }
  | record {area p : UInt64} (huv : s.uv = .record area) (hnull : p ≠ 0) (hfresh : p ∉ s.records) :
      Outcome (.calloc p) { s with
        chunk := Function.update s.chunk p ⟨areaSize, area, 0⟩
        records := p :: s.records
        uv := .push p }
  | dropped {p : UInt64} (huv : s.uv = .push p) (hfull : R.writeSpace s.rbRtmem < sizeofUintptr) :
      Outcome .push { s with uv := .idle }
  | pushed {p : UInt64} (huv : s.uv = .push p) :
      Outcome .push { s with
        rbRtmem := (R.write s.rbRtmem (pointerBytes p)).1
        pushed := s.pushed ++ [p]
        uv := .idle }
  | shutdown (hrt : s.rt = .idle) (huv : s.uv = .idle) :
      Outcome .shutdown { s with rt := .freeMemory }
  | freeChunk {p : UInt64} {rest : List UInt64} (hrt : s.rt = .freeMemory)
      (hchunks : s.rtmemChunks = p :: rest) : Outcome .freeChunk (s.freeChunk p rest)

theorem step_outcome {l : Label} (h : Growth.step R s l = some s') : Outcome R s l s' := by
  cases l with
  | call c =>
    simp only [Growth.step] at h
    split at h
    · next hrt =>
      obtain ⟨memory, hc, rfl⟩ := Option.map_eq_some_iff.mp h
      exact .call hrt.1 hc
    · cases h
  | send =>
    simp only [Growth.step] at h
    split at h
    · next hrt =>
      obtain rfl := Option.some.inj h
      exact .send hrt.1
    · cases h
  | addMemory =>
    simp only [Growth.step] at h
    split at h
    · next hrt =>
      split at h
      · next hspace =>
        obtain rfl := Option.some.inj h
        exact .take hrt.1 hspace
      · obtain rfl := Option.some.inj h
        exact .nothing
    · cases h
  | addPool =>
    simp only [Growth.step] at h
    split at h
    · next p hrt =>
      split at h
      · obtain rfl := Option.some.inj h
        exact .addPool hrt
      · cases h
    · cases h
  | wake =>
    simp only [Growth.step] at h
    split at h
    · next hw =>
      obtain rfl := Option.some.inj h
      exact .wake hw.1 hw.2.1
    · cases h
  | mmap area =>
    simp only [Growth.step] at h
    split at h
    · next hm =>
      split at h
      · next hnull =>
        obtain rfl := Option.some.inj h
        exact .mapped hm.1 hm.2 hnull
      · next hnull =>
        obtain rfl := Option.some.inj h
        obtain rfl := not_not.mp hnull
        exact .unmapped hm.1
    · cases h
  | calloc p =>
    simp only [Growth.step] at h
    split at h
    · next area huv =>
      split at h
      · next hnull =>
        obtain rfl := Option.some.inj h
        subst hnull
        exact .exhausted huv
      · next hnull =>
        split at h
        · cases h
        · next hfresh =>
          obtain rfl := Option.some.inj h
          exact .record huv hnull hfresh
    · cases h
  | push =>
    simp only [Growth.step] at h
    split at h
    · next p huv =>
      split at h
      · next hfull =>
        obtain rfl := Option.some.inj h
        exact .dropped huv hfull
      · obtain rfl := Option.some.inj h
        exact .pushed huv
    · cases h
  | shutdown =>
    simp only [Growth.step] at h
    split at h
    · next hidle =>
      obtain rfl := Option.some.inj h
      exact .shutdown hidle.1 hidle.2
    · cases h
  | freeChunk =>
    simp only [Growth.step] at h
    split at h
    · next p rest hrt hchunks =>
      obtain rfl := Option.some.inj h
      exact .freeChunk hrt hchunks
    · cases h

namespace Inv

/-- The requests under way, by the pointers in the ring. -/
theorem inFlight_eq (hi : Inv R s ring) :
    s.inFlight R = s.pending.toNat + s.uv.request + ring.length := by
  unfold inFlight
  rw [R.readSpace_eq, hi.contents, length_pointers, Nat.mul_div_cancel _ (by decide)]

theorem ring_length_le (hi : Inv R s ring) : ring.length ≤ 1 := by
  have h := hi.tokens_le
  have hflag := Bool.toNat_le s.memory.rtmemFlag
  omega

/-- A handler that is about to push a chunk finds room for it. -/
theorem push_fits (hi : Inv R s ring) (huv : s.uv = .push p) :
    ring = [] ∧ sizeofUintptr ≤ R.writeSpace s.rbRtmem := by
  have hring : ring = [] := by
    have htokens := hi.tokens_le
    have hflag := Bool.toNat_le s.memory.rtmemFlag
    simp only [huv, UvPc.request] at htokens
    exact List.length_eq_zero_iff.mp (by omega)
  refine ⟨hring, ?_⟩
  rw [R.writeSpace_eq, hi.contents, hring]
  decide

end Inv

/-- A chunk is under way in one place at most. -/
theorem Inv.flying_length_le (hi : Inv R s ring) :
    (s.rt.taken ++ ring ++ s.uv.made).length ≤ 1 := by
  have htokens := hi.tokens_le
  have hflag := Bool.toNat_le s.memory.rtmemFlag
  have hrt : s.rt.taken.length ≤ s.rt.request := by
    cases s.rt <;> simp [RtPc.taken, RtPc.request]
  have huv : s.uv.made.length ≤ s.uv.request := by
    cases s.uv <;> simp [UvPc.made, UvPc.request]
  rw [List.length_append, List.length_append]
  omega

/-- **A call of the allocator** sends at most one request, and only if the flag is
not set. -/
theorem call_cases {m m' : Memory} {c : Memory.Call} (h : m.step c = some m') :
    m'.rtmemSum = m.rtmemSum ∧
      (m'.requests = m.requests ∧ m'.rtmemFlag = m.rtmemFlag ∨
        m'.requests ≠ m.requests ∧ m.rtmemFlag = false ∧ m'.rtmemFlag = true) := by
  -- only `tjost_request_memory` touches the flag, and it asks for it first
  have hrequest : ∀ n : Memory, n.rtmemSum = m.rtmemSum → n.requests = m.requests →
      n.rtmemFlag = m.rtmemFlag → n.requestMemory.rtmemSum = m.rtmemSum ∧
        (n.requestMemory.requests = m.requests ∧ n.requestMemory.rtmemFlag = m.rtmemFlag ∨
          n.requestMemory.requests ≠ m.requests ∧ m.rtmemFlag = false ∧
            n.requestMemory.rtmemFlag = true) := by
    intro n hsum hreq hflag
    unfold Memory.requestMemory
    split
    · next hraise =>
      refine ⟨hsum, Or.inr ⟨?_, hflag ▸ hraise.1, rfl⟩⟩
      change n.requests + 1 ≠ _
      omega
    · exact ⟨hsum, Or.inl ⟨hreq, hflag⟩⟩
  -- the message of an allocation that fails is about something else
  have hmessage : ∀ (text : String) (data : UInt64) (n : Memory),
      (n.outOfMemory text data).rtmemSum = n.rtmemSum ∧
        (n.outOfMemory text data).requests = n.requests ∧
          (n.outOfMemory text data).rtmemFlag = n.rtmemFlag := by
    intro text data n
    unfold Memory.outOfMemory
    split <;> exact ⟨rfl, rfl, rfl⟩
  cases c with
  | alloc len answer =>
    simp only [Memory.step] at h
    split at h
    · obtain rfl := Option.some.inj h
      obtain ⟨hsum, hreq, hflag⟩ := hmessage "tjost_alloc: out of memory"
        (Tlsf.malloc answer m.live).2 { m with live := (Tlsf.malloc answer m.live).1 }
      exact hrequest _ hsum hreq hflag
    · cases h
  | realloc len buf answer =>
    simp only [Memory.step] at h
    split at h
    · obtain rfl := Option.some.inj h
      obtain ⟨hsum, hreq, hflag⟩ := hmessage "tjost_realloc: out of memory"
        (Tlsf.realloc answer buf len m.live).2
        { m with
          used := m.used - Tlsf.blockSize m.live buf
          live := (Tlsf.realloc answer buf len m.live).1 }
      exact hrequest _ hsum hreq hflag
    · cases h
  | free buf =>
    simp only [Memory.step] at h
    split at h
    · obtain rfl := Option.some.inj h
      exact ⟨rfl, Or.inl ⟨rfl, rfl⟩⟩
    · cases h

namespace Inv

/-! ### The steps keep the invariant -/

theorem call (hi : Inv R s ring) {c : Memory.Call} {memory : Memory} (hrt : s.rt = .idle)
    (hc : s.memory.step c = some memory) :
    Inv R { s with memory, rt := if memory.requests = s.memory.requests then .idle else .send }
      ring := by
  obtain ⟨-, ⟨hreq, hflag⟩ | ⟨hreq, hunset, hset⟩⟩ := call_cases hc
  · rw [if_pos hreq, ← hrt]
    exact { hi with tokens_le := by rw [hflag]; exact hi.tokens_le }
  · rw [if_neg hreq]
    have htokens := hi.tokens_le
    have hpushed := hi.pushed_eq
    have hnew := hi.new
    rw [hunset] at htokens
    rw [hrt] at htokens hpushed hnew
    refine { hi with
      tokens_le := ?_
      pushed_eq := hpushed
      chunks_eq := fun _ => hi.chunks_eq (by rw [hrt]; exact RtPc.noConfusion)
      new := hnew }
    change 1 + s.pending.toNat + s.uv.request + ring.length ≤ memory.rtmemFlag.toNat
    rw [hset]
    simp only [RtPc.request, Bool.toNat_false, Bool.toNat_true] at htokens ⊢
    omega

theorem send (hi : Inv R s ring) (hrt : s.rt = .send) :
    Inv R { s with pending := true, rt := .idle } ring := by
  have htokens := hi.tokens_le
  have hflag := Bool.toNat_le s.memory.rtmemFlag
  have hpushed := hi.pushed_eq
  have hnew := hi.new
  rw [hrt] at htokens hpushed hnew
  refine { hi with
    tokens_le := ?_
    pushed_eq := hpushed
    chunks_eq := fun _ => hi.chunks_eq (by rw [hrt]; exact RtPc.noConfusion)
    new := hnew }
  change 0 + 1 + s.uv.request + ring.length ≤ s.memory.rtmemFlag.toNat
  simp only [RtPc.request] at htokens
  omega

/-- `tjost_add_memory` takes the only pointer off the ring, or finds none. -/
theorem addMemory (hi : Inv R s ring) (hrt : s.rt = .idle)
    (hspace : sizeofUintptr ≤ R.readSpace s.rbRtmem) :
    ∃ p, ring = [p] ∧ UInt64.ofNat (Bytes.ofLE (R.read s.rbRtmem sizeofUintptr).2) = p ∧
      Inv R { s with rbRtmem := (R.read s.rbRtmem sizeofUintptr).1, rt := .add p } [] := by
  -- there are eight bytes, so there is a pointer, and there are not two of them
  rw [R.readSpace_eq, hi.contents, length_pointers] at hspace
  have hle := hi.ring_length_le
  obtain ⟨p, rfl⟩ : ∃ p, ring = [p] := by
    refine List.length_eq_one_iff.mp ?_
    unfold sizeofUintptr at hspace
    omega
  have hcontents : R.contents s.rbRtmem = pointerBytes p ++ [] := by
    rw [hi.contents, List.flatMap_singleton, List.append_nil]
  obtain ⟨hrest, hread⟩ := R.read_append hcontents
  rw [length_pointerBytes] at hrest hread
  refine ⟨p, rfl, by rw [hread, ofLE_pointerBytes], ?_⟩
  have htokens := hi.tokens_le
  have hpushed := hi.pushed_eq
  have hnew := hi.new
  rw [hrt] at htokens hpushed hnew
  refine { hi with
    contents := hrest
    tokens_le := ?_
    pushed_eq := ?_
    chunks_eq := fun _ => hi.chunks_eq (by rw [hrt]; exact RtPc.noConfusion)
    new := ?_ }
  · -- the request goes from the ring to the process thread
    change 1 + s.pending.toNat + s.uv.request + 0 ≤ s.memory.rtmemFlag.toNat
    simp only [RtPc.request, List.length_singleton] at htokens
    omega
  · rw [hpushed]
    simp [RtPc.taken]
  · intro q hq
    exact hnew q (by simpa [RtPc.taken] using hq)

/-- While a chunk is being added, it is the only one under way. -/
theorem add_alone (hi : Inv R s ring) (hrt : s.rt = .add p) :
    s.memory.rtmemFlag = true ∧ s.pending = false ∧ s.uv.request = 0 ∧ s.uv.made = [] ∧
      ring = [] := by
  have htokens := hi.tokens_le
  have hflag := Bool.toNat_le s.memory.rtmemFlag
  simp only [hrt, RtPc.request] at htokens
  have hring : ring = [] := List.length_eq_zero_iff.mp (by omega)
  have hpending : s.pending = false := Bool.toNat_eq_zero.mp (by omega)
  have hset : s.memory.rtmemFlag = true := Bool.toNat_eq_one.mp (by omega)
  have huv : s.uv.request = 0 := by omega
  have hmade := hi.flying_length_le
  rw [hrt, RtPc.taken, List.length_append, List.length_append, List.length_singleton] at hmade
  exact ⟨hset, hpending, huv, List.length_eq_zero_iff.mp (by omega), hring⟩

/-- A failed mapping is no multiple of `ALIGN_SIZE`. -/
theorem mapFailed_refused : Tlsf.addPool mapFailed areaSize = 0 := by
  decide

/-- **The rest of `tjost_add_memory`.** -/
theorem addPool (hi : Inv R s ring) (hrt : s.rt = .add p) : Inv R (s.addMemory p) [] := by
  obtain ⟨-, hpending, huv, hmade, rfl⟩ := hi.add_alone hrt
  have hpushed := hi.pushed_eq
  rw [hrt, RtPc.taken, List.append_nil] at hpushed
  obtain ⟨hnew, hsize, harea⟩ := hi.new p (by simp [hrt, RtPc.taken])
  have hp : p ∈ s.records := hi.pushed_records p (by simp [hpushed])
  -- the other chunk records keep their pools
  have hother : ∀ q ∈ s.rtmemChunks, (s.addMemory p).chunk q = s.chunk q := by
    intro q hq
    refine addMemory_chunk_other ?_
    rintro rfl
    exact hnew hq
  have hself := addMemory_chunk_self s p
  exact {
    contents := hi.contents
    tokens_le := by
      change 0 + s.pending.toNat + s.uv.request + 0 ≤ _
      rw [hpending, huv]
      exact Nat.zero_le _
    pushed_eq := by
      change s.pushed = s.added ++ [p] ++ [] ++ []
      rw [hpushed, List.append_nil, List.append_nil]
    pushed_nodup := hi.pushed_nodup
    pushed_records := hi.pushed_records
    chunks_eq := by
      intro _
      obtain ⟨first, hfirst⟩ := hi.chunks_eq (by rw [hrt]; exact RtPc.noConfusion)
      refine ⟨first, ?_⟩
      change p :: s.rtmemChunks = (s.added ++ [p]).reverse ++ [first]
      rw [hfirst, List.reverse_append]
      rfl
    chunks_nodup := List.nodup_cons.mpr ⟨hnew, hi.chunks_nodup⟩
    chunks_records := by
      intro q hq
      rcases List.mem_cons.mp hq with rfl | hq
      · exact ⟨hp, by rw [hself]; exact hsize⟩
      · rw [hother q hq]
        exact hi.chunks_records q hq
    area := by
      intro area huvarea
      have huvarea : s.uv = .record area := huvarea
      rw [huvarea] at huv
      cases huv
    new := by
      intro q hq
      have hq : q ∈ s.uv.made := hq
      rw [hmade] at hq
      exact absurd hq List.not_mem_nil
    pools_eq := by
      have hfilter : s.rtmemChunks.filter (s.addMemory p).accepted =
          s.rtmemChunks.filter s.accepted := by
        refine List.filter_congr fun q hq => ?_
        unfold accepted
        rw [hother q hq]
      have hmap : ∀ q ∈ s.rtmemChunks.filter s.accepted,
          (⟨(s.chunk q).pool, s.areaOf q⟩ : Pool) =
            ⟨((s.addMemory p).chunk q).pool, (s.addMemory p).areaOf q⟩ := by
        intro q hq
        unfold areaOf
        rw [hother q (List.mem_filter.mp hq).1]
      change (if Tlsf.addPool (s.chunk p).area (s.chunk p).size = 0 then s.pools else _) =
        ((p :: s.rtmemChunks).filter (s.addMemory p).accepted).map _
      split
      · next hrefused =>
        have hp : ¬ (s.addMemory p).accepted p = true := by
          unfold accepted
          rw [hself, hrefused]
          exact Bool.false_ne_true
        rw [List.filter_cons_of_neg hp, hfilter, hi.pools_eq]
        exact List.map_congr_left hmap
      · next haccepted =>
        have hp : (s.addMemory p).accepted p = true := by
          unfold accepted
          rw [hself]
          exact bne_iff_ne.mpr haccepted
        rw [List.filter_cons_of_pos hp, hfilter, List.map_cons, hi.pools_eq]
        congr 1
        · unfold areaOf
          rw [hself]
        · exact List.map_congr_left hmap
    heap := by
      change Heap (List.map Pool.area (if _ then s.pools else _))
      split
      · exact hi.heap
      · next haccepted =>
        refine hi.heap.cons ?_
        unfold areaOf
        rcases harea with hfailed | hfits
        · rw [hsize, hfailed] at haccepted
          exact absurd mapFailed_refused haccepted
        · rwa [hsize] }

theorem wake (hi : Inv R s ring) (hpending : s.pending = true) (huv : s.uv = .idle) :
    Inv R { s with pending := false, uv := .map } ring := by
  have htokens := hi.tokens_le
  have hnodup := hi.pushed_nodup
  have hrecords := hi.pushed_records
  have hnew := hi.new
  rw [huv] at htokens hnodup hrecords hnew
  refine { hi with
    tokens_le := ?_
    pushed_nodup := hnodup
    pushed_records := hrecords
    area := fun _ h => UvPc.noConfusion h
    new := hnew }
  change s.rt.request + 0 + 1 + ring.length ≤ s.memory.rtmemFlag.toNat
  simp only [hpending, UvPc.request, Bool.toNat_true] at htokens
  omega

/-- `mmap` answers with an area. -/
theorem mmap (hi : Inv R s ring) (huv : s.uv = .map) {area : UInt64} (harea : s.Mappable area)
    (hnull : area ≠ 0) : Inv R { s with uv := .record area } ring := by
  have htokens := hi.tokens_le
  have hnodup := hi.pushed_nodup
  have hrecords := hi.pushed_records
  have hnew := hi.new
  rw [huv] at htokens hnodup hrecords hnew
  refine { hi with
    tokens_le := htokens
    pushed_nodup := hnodup
    pushed_records := hrecords
    area := ?_
    new := hnew }
  intro a ha
  obtain rfl : area = a := UvPc.record.inj ha
  exact harea.imp_right fun h => h.resolve_left hnull

/-- The handler gives up: nothing is mapped, or the program ends. -/
theorem lose (hi : Inv R s ring) {pc : UvPc} (hpc : pc = .idle ∨ pc = .fault) :
    Inv R { s with uv := pc } ring := by
  have hrequest : pc.request = 0 ∧ pc.made = [] := by
    rcases hpc with rfl | rfl <;> exact ⟨rfl, rfl⟩
  have htokens := hi.tokens_le
  refine { hi with
    tokens_le := ?_
    pushed_nodup := ?_
    pushed_records := ?_
    area := ?_
    new := ?_ }
  · change s.rt.request + s.pending.toNat + pc.request + ring.length ≤ s.memory.rtmemFlag.toNat
    omega
  · change (s.pushed ++ pc.made).Nodup
    rw [hrequest.2, List.append_nil]
    exact (List.nodup_append.mp hi.pushed_nodup).1
  · intro q hq
    change q ∈ s.pushed ++ pc.made at hq
    rw [hrequest.2, List.append_nil] at hq
    exact hi.pushed_records q (List.mem_append_left _ hq)
  · intro area harea
    change pc = .record area at harea
    rcases hpc with rfl | rfl <;> cases harea
  · intro q hq
    change q ∈ s.rt.taken ++ ring ++ pc.made at hq
    rw [hrequest.2, List.append_nil] at hq
    exact hi.new q (List.mem_append_left _ hq)

/-- `calloc` makes a chunk record. -/
theorem calloc (hi : Inv R s ring) {area : UInt64} (huv : s.uv = .record area)
    (hfresh : p ∉ s.records) :
    Inv R { s with
      chunk := Function.update s.chunk p ⟨areaSize, area, 0⟩
      records := p :: s.records
      uv := .push p } ring := by
  have htokens := hi.tokens_le
  have hnodup := hi.pushed_nodup
  have hrecords := hi.pushed_records
  have hnew := hi.new
  rw [huv] at htokens hnodup hrecords hnew
  have hpushed : p ∉ s.pushed := fun hp => hfresh (hrecords p (List.mem_append_left _ hp))
  have hlisted : p ∉ s.rtmemChunks := fun hp => hfresh (hi.chunks_records p hp).1
  -- the records that exist are not touched
  have hother : ∀ q ∈ s.records, Function.update s.chunk p ⟨areaSize, area, 0⟩ q = s.chunk q := by
    intro q hq
    refine Function.update_of_ne ?_ _ _
    rintro rfl
    exact hfresh hq
  have hflying : ∀ q ∈ s.rt.taken ++ ring, q ∈ s.records := by
    intro q hq
    refine hrecords q (List.mem_append_left _ ?_)
    rw [hi.pushed_eq, List.append_assoc]
    exact List.mem_append_right _ hq
  refine { hi with
    tokens_le := htokens
    pushed_nodup := ?_
    pushed_records := ?_
    chunks_records := ?_
    area := fun _ h => UvPc.noConfusion h
    new := ?_
    pools_eq := ?_ }
  · have hnodup : s.pushed.Nodup := (List.nodup_append.mp hi.pushed_nodup).1
    exact List.nodup_append.mpr ⟨hnodup, List.nodup_singleton p, fun a ha b hb hab => by
      rw [List.mem_singleton.mp hb] at hab
      exact hpushed (hab ▸ ha)⟩
  · intro q hq
    rcases List.mem_append.mp hq with hq | hq
    · exact List.mem_cons_of_mem _ (hrecords q (List.mem_append_left _ hq))
    · rw [List.mem_singleton.mp hq]
      exact List.mem_cons_self
  · intro q hq
    obtain ⟨hrecord, hsize⟩ := hi.chunks_records q hq
    refine ⟨List.mem_cons_of_mem _ hrecord, ?_⟩
    change (Function.update s.chunk p _ q).size = areaSize
    rw [hother q hrecord]
    exact hsize
  · intro q hq
    change q ∉ s.rtmemChunks ∧ (Function.update s.chunk p _ q).size = areaSize ∧
      s.NewArea (Function.update s.chunk p _ q).area
    rcases List.mem_append.mp hq with hq | hq
    · rw [hother q (hflying q hq)]
      exact hnew q (List.mem_append_left _ hq)
    · rw [List.mem_singleton.mp hq, Function.update_self]
      exact ⟨hlisted, rfl, hi.area area huv⟩
  · change s.pools = _
    rw [hi.pools_eq]
    have hfilter : s.rtmemChunks.filter s.accepted = s.rtmemChunks.filter fun q =>
        (Function.update s.chunk p ⟨areaSize, area, 0⟩ q).pool != 0 := by
      refine List.filter_congr fun q hq => ?_
      rw [hother q (hi.chunks_records q hq).1]
      rfl
    rw [hfilter]
    refine List.map_congr_left fun q hq => ?_
    change _ = Pool.mk (Function.update s.chunk p _ q).pool
      ⟨(Function.update s.chunk p _ q).area, (Function.update s.chunk p _ q).size⟩
    rw [hother q (hi.chunks_records q (List.mem_filter.mp hq).1).1]
    rfl

/-- The chunk goes into the ring. -/
theorem push (hi : Inv R s ring) (huv : s.uv = .push p) :
    Inv R { s with
      rbRtmem := (R.write s.rbRtmem (pointerBytes p)).1
      pushed := s.pushed ++ [p]
      uv := .idle } [p] := by
  obtain ⟨rfl, hroom⟩ := hi.push_fits huv
  have htokens := hi.tokens_le
  have hnodup := hi.pushed_nodup
  have hrecords := hi.pushed_records
  have hnew := hi.new
  rw [huv] at htokens hnodup hrecords hnew
  refine { hi with
    contents := ?_
    tokens_le := ?_
    pushed_eq := ?_
    pushed_nodup := ?_
    pushed_records := ?_
    area := fun _ h => UvPc.noConfusion h
    new := ?_ }
  · -- all eight bytes are written
    change R.contents (R.write s.rbRtmem (pointerBytes p)).1 = _
    rw [R.contents_write_of_fits (by rwa [length_pointerBytes]), hi.contents]
    simp
  · -- the request goes from the handler to the ring
    change s.rt.request + s.pending.toNat + 0 + 1 ≤ s.memory.rtmemFlag.toNat
    simp only [UvPc.request, List.length_nil] at htokens
    omega
  · change s.pushed ++ [p] = s.added ++ s.rt.taken ++ [p]
    rw [hi.pushed_eq, List.append_nil]
  · change (s.pushed ++ [p] ++ []).Nodup
    rw [List.append_nil]
    exact hnodup
  · intro q hq
    change q ∈ s.pushed ++ [p] ++ [] at hq
    rw [List.append_nil] at hq
    exact hrecords q hq
  · intro q hq
    change q ∈ s.rt.taken ++ [p] ++ [] at hq
    exact hnew q (by simpa [UvPc.made] using hq)

theorem shutdown (hi : Inv R s ring) (hrt : s.rt = .idle) :
    Inv R { s with rt := .freeMemory } ring := by
  have htokens := hi.tokens_le
  have hpushed := hi.pushed_eq
  have hnew := hi.new
  rw [hrt] at htokens hpushed hnew
  exact { hi with
    tokens_le := htokens
    pushed_eq := hpushed
    chunks_eq := fun h => absurd rfl h
    new := hnew }

/-- **An iteration of `tjost_free_memory`** removes the pool of the chunk, if it has
one. -/
theorem freeChunk (hi : Inv R s ring) (hrt : s.rt = .freeMemory) {rest : List UInt64}
    (hchunks : s.rtmemChunks = p :: rest) : Inv R (s.freeChunk p rest) ring := by
  have hnodup := hi.chunks_nodup
  have hlisted := hi.chunks_records
  have hnew := hi.new
  have hpools := hi.pools_eq
  rw [hchunks] at hnodup hlisted hnew hpools
  have hsub : (s.freeChunk p rest).pools.Sublist s.pools := List.eraseP_sublist
  refine { hi with
    chunks_eq := fun h => absurd hrt h
    chunks_nodup := hnodup.of_cons
    chunks_records := fun q hq => hlisted q (List.mem_cons_of_mem _ hq)
    area := ?_
    new := ?_
    pools_eq := ?_
    heap := ?_ }
  · exact fun area h => (hi.area area h).mono hsub
  · intro q hq
    obtain ⟨hlist, hsize, harea⟩ := hnew q hq
    exact ⟨fun h => hlist (List.mem_cons_of_mem _ h), hsize, harea.mono hsub⟩
  · change s.pools.eraseP _ = (rest.filter s.accepted).map _
    rw [hpools]
    by_cases hp : s.accepted p = true
    · rw [List.filter_cons_of_pos hp, List.map_cons]
      exact List.eraseP_cons_of_pos (beq_self_eq_true (s.chunk p).pool)
    · -- the handles of the pools are not `NULL`
      have hnull : (s.chunk p).pool = 0 := by simpa [accepted] using hp
      rw [List.filter_cons_of_neg hp, List.eraseP_of_forall_not]
      · rfl
      · intro pool hpool hmatch
        obtain ⟨q, hq, rfl⟩ := List.mem_map.mp hpool
        have haccepted := (List.mem_filter.mp hq).2
        rw [hnull] at hmatch
        exact bne_iff_ne.mp haccepted (beq_iff_eq.mp hmatch)
  · exact hi.heap.sublist (hsub.map _)

/-- **Every step keeps the invariant.** -/
theorem step (hi : Inv R s ring) {l : Label} (h : Growth.step R s l = some s') :
    ∃ ring', Inv R s' ring' := by
  cases step_outcome h with
  | call hrt hc => exact ⟨ring, hi.call hrt hc⟩
  | send hrt => exact ⟨ring, hi.send hrt⟩
  | take hrt hspace =>
    obtain ⟨p, -, hp, hi'⟩ := hi.addMemory hrt hspace
    rw [hp]
    exact ⟨[], hi'⟩
  | nothing => exact ⟨ring, hi⟩
  | addPool hrt => exact ⟨[], hi.addPool hrt⟩
  | wake hpending huv => exact ⟨ring, hi.wake hpending huv⟩
  | mapped huv harea hnull => exact ⟨ring, hi.mmap huv harea hnull⟩
  | unmapped huv => exact ⟨ring, hi.lose (Or.inl rfl)⟩
  | exhausted huv => exact ⟨ring, hi.lose (Or.inr rfl)⟩
  | record huv hnull hfresh => exact ⟨ring, hi.calloc huv hfresh⟩
  -- there is always room in the ring
  | dropped huv hfull => exact absurd hfull (Nat.not_lt.mpr (hi.push_fits huv).2)
  | pushed huv => exact ⟨_, hi.push huv⟩
  | shutdown hrt huv => exact ⟨ring, hi.shutdown hrt⟩
  | freeChunk hrt hchunks => exact ⟨ring, hi.freeChunk hrt hchunks⟩

end Inv

theorem Init.inv (h : Init R s) : Inv R s [] := by
  obtain ⟨p, pool, area, hmemory, hpending, hring, hchunks, hchunk, hpool, hpools, hspace, hrt, huv,
    hrecords, hpushed, hadded⟩ := h
  have haccepted : s.accepted p = true := by
    unfold accepted
    rw [hchunk]
    exact bne_iff_ne.mpr hpool
  exact {
    contents := hring
    tokens_le := by
      rw [hrt, hpending, huv]
      exact Nat.zero_le _
    pushed_eq := by
      rw [hpushed, hadded, hrt]
      rfl
    pushed_nodup := by
      rw [hpushed, huv]
      exact List.nodup_nil
    pushed_records := by
      rw [hpushed, huv]
      exact fun q hq => absurd hq List.not_mem_nil
    chunks_eq := fun _ => ⟨p, by rw [hchunks, hadded]; rfl⟩
    chunks_nodup := by
      rw [hchunks]
      exact List.nodup_singleton p
    chunks_records := by
      rw [hchunks, hrecords]
      intro q hq
      rw [List.mem_singleton.mp hq, hchunk]
      exact ⟨List.mem_singleton_self p, rfl⟩
    area := by
      intro a ha
      rw [huv] at ha
      cases ha
    new := by
      rw [hrt, huv]
      exact fun q hq => absurd hq List.not_mem_nil
    pools_eq := by
      rw [hpools, hchunks, List.filter_cons_of_pos haccepted]
      unfold areaOf
      rw [List.filter_nil, List.map_singleton, hchunk]
    heap := by
      rw [hpools]
      exact Heap.nil.cons ⟨hspace, fun c hc => absurd hc List.not_mem_nil⟩ }

theorem exists_inv (hs : (machine R).Reachable s) : ∃ ring, Inv R s ring := by
  refine hs.invariant (I := fun s => ∃ ring, Inv R s ring) (fun s h => ⟨[], Init.inv h⟩) ?_
  rintro s l s' ⟨ring, hi⟩ h
  exact hi.step h

/-! ### One request, and one pool for each chunk -/

variable (R) in
/-- **One request at a time.** Every chunk that is pushed gets into `rtmem_chunks` once. -/
structure OneRequest (s : Growth ρ) : Prop where
  inFlight_le : s.inFlight R ≤ 1
  unset : s.memory.rtmemFlag = false → s.inFlight R = 0
  /-- The ring does not overflow. -/
  room : ∀ p, s.uv = .push p → sizeofUintptr ≤ R.writeSpace s.rbRtmem
  pushed_nodup : s.pushed.Nodup
  /-- A pushed chunk has been added, is being added, or waits for the next cycle. -/
  handed : ∃ ring, R.contents s.rbRtmem = ring.flatMap pointerBytes ∧
    s.pushed = s.added ++ s.rt.taken ++ ring ∧
    ∀ p rest, ring = p :: rest → s.rt = .idle → s.uv ≠ .fault →
      ∃ t, (machine R).exec s [.addMemory, .addPool] = some t ∧
        t.added = s.added ++ [p] ∧ t.rtmemChunks = p :: s.rtmemChunks
  /-- The chunks that have been added stand in the list, behind the one of the start. -/
  listed : s.rt ≠ .freeMemory → ∃ first, s.rtmemChunks = s.added.reverse ++ [first]
  listed_nodup : s.rtmemChunks.Nodup

variable (R) in
/-- Every chunk gets into TLSF as well. -/
structure SingleRequest (s : Growth ρ) : Prop extends OneRequest R s where
  /-- The area of each chunk in the list is a pool, and is one once. -/
  pooled : s.pools = s.rtmemChunks.map fun p => ⟨(s.chunk p).pool, s.areaOf p⟩
  accepted : ∀ p ∈ s.rtmemChunks, s.accepted p = true

/-- **TLSF accepts the area.** The condition on a state and the step taken in it. -/
def Accepts (s : Growth ρ) : Label → Prop
  | .addPool => ∀ p, s.rt = .add p → Tlsf.addPool (s.chunk p).area (s.chunk p).size ≠ 0
  | _ => True

theorem accepts_addPool {s : Growth ρ} {p : UInt64} (h : s.rt = .add p) :
    s.Accepts .addPool ↔ Tlsf.addPool (s.chunk p).area (s.chunk p).size ≠ 0 := by
  constructor
  · intro haccepts
    exact haccepts p h
  · intro hpool q hq
    obtain rfl : p = q := RtPc.add.inj (h.symm.trans hq)
    exact hpool

theorem accepts_addPool_of_ne {s : Growth ρ} (h : ∀ p, s.rt ≠ .add p) : s.Accepts .addPool :=
  fun p hp => absurd hp (h p)

instance (s : Growth ρ) : ∀ l, Decidable (s.Accepts l)
  | .addPool =>
    match h : s.rt with
    | .add p => decidable_of_iff (Tlsf.addPool (s.chunk p).area (s.chunk p).size ≠ 0)
        (accepts_addPool h).symm
    | .idle | .send | .freeMemory =>
      isTrue (accepts_addPool_of_ne (by rw [h]; intro p hp; cases hp))
  | .call _ | .send | .addMemory | .wake | .mmap _ | .calloc _ | .push | .shutdown
  | .freeChunk => instDecidableTrue

namespace Inv

/-- The next cycle reads the pointer in the first step and adds the chunk in the
second. -/
theorem exec_add (hi : Inv R s (p :: ring)) (hrt : s.rt = .idle) (hfault : s.uv ≠ .fault) :
    ∃ t, (machine R).exec s [.addMemory, .addPool] = some t ∧
      t.added = s.added ++ [p] ∧ t.rtmemChunks = p :: s.rtmemChunks := by
  have hspace : sizeofUintptr ≤ R.readSpace s.rbRtmem := by
    rw [R.readSpace_eq, hi.contents, length_pointers, List.length_cons, Nat.succ_mul]
    exact Nat.le_add_left _ _
  obtain ⟨q, hq, hread, -⟩ := hi.addMemory hrt hspace
  obtain rfl : p = q := (List.cons.inj hq).1
  refine ⟨Growth.addMemory p { s with
    rbRtmem := (R.read s.rbRtmem sizeofUintptr).1
    rt := .add p }, ?_, rfl, rfl⟩
  have hfirst : (machine R).step s .addMemory = some { s with
      rbRtmem := (R.read s.rbRtmem sizeofUintptr).1
      rt := .add p } := by
    change Growth.step R s .addMemory = _
    simp only [Growth.step]
    rw [if_pos ⟨hrt, hfault⟩, if_pos hspace, hread]
  rw [Machine.exec_cons, hfirst, Option.bind_some, Machine.exec_cons]
  have hsecond : (machine R).step { s with
      rbRtmem := (R.read s.rbRtmem sizeofUintptr).1
      rt := .add p } .addPool = some (Growth.addMemory p { s with
        rbRtmem := (R.read s.rbRtmem sizeofUintptr).1
        rt := .add p }) := if_pos hfault
  rw [hsecond]
  rfl

theorem oneRequest (hi : Inv R s ring) : OneRequest R s := by
  have htokens := hi.tokens_le
  have hflag := Bool.toNat_le s.memory.rtmemFlag
  refine ⟨?_, ?_, fun p huv => (hi.push_fits huv).2, (List.nodup_append.mp hi.pushed_nodup).1,
    ⟨ring, hi.contents, hi.pushed_eq, ?_⟩, hi.chunks_eq, hi.chunks_nodup⟩
  · rw [hi.inFlight_eq]
    omega
  · intro hunset
    rw [hunset, Bool.toNat_false] at htokens
    rw [hi.inFlight_eq]
    omega
  · rintro p rest rfl hrt hfault
    exact hi.exec_add hrt hfault

theorem singleRequest (hi : Inv R s ring) (haccepted : ∀ p ∈ s.rtmemChunks, s.accepted p = true) :
    SingleRequest R s := by
  have hpools := hi.pools_eq
  rw [List.filter_eq_self.mpr haccepted] at hpools
  exact ⟨hi.oneRequest, hpools, haccepted⟩

/-- **The end of `tjost_add_memory`** lists a chunk with a pool exactly if TLSF accepts
its area. -/
theorem accepted_addPool (hi : Inv R s ring) (haccepted : ∀ q ∈ s.rtmemChunks, s.accepted q = true)
    (hrt : s.rt = .add p) :
    (∀ q ∈ (s.addMemory p).rtmemChunks, (s.addMemory p).accepted q = true) ↔
      Tlsf.addPool (s.chunk p).area (s.chunk p).size ≠ 0 := by
  have hself : (s.addMemory p).accepted p = true ↔
      Tlsf.addPool (s.chunk p).area (s.chunk p).size ≠ 0 := by
    unfold accepted
    rw [addMemory_chunk_self]
    exact bne_iff_ne
  constructor
  · intro h
    exact hself.mp (h p List.mem_cons_self)
  · intro hpool q hq
    rcases List.mem_cons.mp hq with rfl | hq
    · exact hself.mpr hpool
    · -- the other records are not touched
      have hlisted : q ∈ s.rtmemChunks := hq
      have hne : q ≠ p := by
        rintro rfl
        exact (hi.new q (by simp [hrt, RtPc.taken])).1 hlisted
      unfold accepted
      rw [addMemory_chunk_other hne]
      exact haccepted q hlisted

/-- **One step** lists a chunk without a pool only where TLSF refuses an area. -/
theorem accepted_step (hi : Inv R s ring) (haccepted : ∀ q ∈ s.rtmemChunks, s.accepted q = true)
    {l : Label} (h : Growth.step R s l = some s') :
    (∀ q ∈ s'.rtmemChunks, s'.accepted q = true) ↔ s.Accepts l := by
  cases step_outcome h with
  | addPool hrt => exact (hi.accepted_addPool haccepted hrt).trans (accepts_addPool hrt).symm
  | record huv hnull hfresh =>
    refine iff_of_true (fun q hq => ?_) trivial
    -- the new record is not in the list yet
    have hrecord : q ∈ s.records := (hi.chunks_records q hq).1
    unfold accepted
    dsimp only
    rw [Function.update_of_ne (ne_of_mem_of_not_mem hrecord hfresh)]
    exact haccepted q hq
  | freeChunk hrt hchunks =>
    exact iff_of_true (fun q hq => haccepted q (hchunks ▸ List.mem_cons_of_mem _ hq)) trivial
  | call | send | take | nothing | wake | mapped | unmapped | exhausted | dropped | pushed
  | shutdown => exact iff_of_true haccepted trivial

end Inv

/-- The chunk of the start has a pool. -/
theorem Init.singleRequest (h : Init R s) : SingleRequest R s := by
  refine (Init.inv h).singleRequest ?_
  obtain ⟨p, pool, area, -, -, -, hchunks, hchunk, hpool, -⟩ := h
  rw [hchunks]
  intro q hq
  unfold accepted
  rw [List.mem_singleton.mp hq, hchunk]
  exact bne_iff_ne.mpr hpool

/-- **One request at a time** in every state, **and each chunk a pool once** exactly while
TLSF accepts the areas. -/
theorem singleRequest_iff {s₀ : Growth ρ} {ls : List Label} (h₀ : (machine R).init s₀)
    (hrun : (machine R).exec s₀ ls = some s) :
    OneRequest R s ∧
      ((∀ ls' t, ls' <+: ls → (machine R).exec s₀ ls' = some t → SingleRequest R t) ↔
        (machine R).Meets Accepts s₀ ls) := by
  obtain ⟨ring, hi⟩ := exists_inv ⟨s₀, ls, h₀, hrun⟩
  refine ⟨hi.oneRequest, ?_⟩
  refine Machine.meets_iff (S := fun s => ∃ ring, Inv R s ring) ?_ ?_ ⟨[], Init.inv h₀⟩
    (Init.singleRequest h₀) hrun
  · rintro s l s' ⟨ring, hi⟩ h
    exact hi.step h
  · rintro s l s' ⟨ring, hi⟩ hsingle h
    obtain ⟨ring', hi'⟩ := hi.step h
    rw [← hi.accepted_step hsingle.accepted h]
    exact ⟨SingleRequest.accepted, hi'.singleRequest⟩

/-- One chunk at `1`, whose area is at `0x40000000`. -/
def start : Growth (ByteRing.Fifo rtmemRingSize) where
  memory := Memory.start areaSize
  pending := false
  rbRtmem := ByteRing.Fifo.empty rtmemRingSize (Nat.succ_pos 127)
  chunk _ := ⟨areaSize, 0x40000000, 0x40001880⟩
  rtmemChunks := [1]
  pools := [⟨0x40001880, ⟨0x40000000, areaSize⟩⟩]
  rt := .idle
  uv := .idle
  records := [1]
  pushed := []
  added := []

theorem start_init : Init (ByteRing.fifo rtmemRingSize) start :=
  ⟨1, 0x40001880, 0x40000000, rfl, rfl, rfl, rfl, rfl, by decide, rfl, by decide, rfl, rfl, rfl,
    rfl, rfl⟩

/-- More than half of the memory is allocated, and the request is answered with the
area. -/
def requestRun (area : UInt64) : List Label :=
  [.call (.alloc 0x900000 (.grant ⟨0x40002000, 0x900000⟩)), .send, .wake, .mmap area, .calloc 2,
    .push, .addMemory, .addPool]

/-- The chunk of a request that is mapped is listed, and its area is a pool. -/
theorem singleRequest_iff_start :
    ∃ s, (machine (ByteRing.fifo rtmemRingSize)).exec start (requestRun 0x50000000) = some s ∧
      s.pushed = [2] ∧ s.rtmemChunks = [2, 1] ∧
      s.pools.map Pool.area = [⟨0x50000000, areaSize⟩, ⟨0x40000000, areaSize⟩] ∧
      ∀ ls' t, ls' <+: requestRun 0x50000000 →
        (machine (ByteRing.fifo rtmemRingSize)).exec start ls' = some t →
          SingleRequest (ByteRing.fifo rtmemRingSize) t := by
  have haccepts : (machine (ByteRing.fifo rtmemRingSize)).Meets Accepts start
      (requestRun 0x50000000) := by
    decide +kernel
  have hrun : ((machine (ByteRing.fifo rtmemRingSize)).exec start (requestRun 0x50000000)).map
      (fun s => (s.pushed, s.rtmemChunks, s.pools.map Pool.area)) =
        some ([2], [2, 1], [⟨0x50000000, areaSize⟩, ⟨0x40000000, areaSize⟩]) := by
    decide +kernel
  obtain ⟨s, hs, hobserved⟩ := Option.map_eq_some_iff.mp hrun
  obtain ⟨hpushed, hobserved⟩ := Prod.mk.inj hobserved
  obtain ⟨hchunks, hpools⟩ := Prod.mk.inj hobserved
  exact ⟨s, hs, hpushed, hchunks, hpools, (singleRequest_iff start_init hs).2.mpr haccepts⟩

/-- **A failed mapping is pushed and listed**, and is no pool. -/
theorem mapFailed_listed :
    ∃ s, (machine (ByteRing.fifo rtmemRingSize)).exec start (requestRun mapFailed) = some s ∧
      s.pushed = [2] ∧ s.rtmemChunks = [2, 1] ∧
      s.pools.map Pool.area = [⟨0x40000000, areaSize⟩] ∧
      ¬ SingleRequest (ByteRing.fifo rtmemRingSize) s := by
  have hrun : ((machine (ByteRing.fifo rtmemRingSize)).exec start (requestRun mapFailed)).map
      (fun s => (s.pushed, s.rtmemChunks, s.pools.map Pool.area)) =
        some ([2], [2, 1], [⟨0x40000000, areaSize⟩]) := by
    decide +kernel
  obtain ⟨s, hs, hobserved⟩ := Option.map_eq_some_iff.mp hrun
  obtain ⟨hpushed, hobserved⟩ := Prod.mk.inj hobserved
  obtain ⟨hchunks, hpools⟩ := Prod.mk.inj hobserved
  refine ⟨s, hs, hpushed, hchunks, hpools, fun h => ?_⟩
  -- two chunks are listed, and there is one pool
  have hlength := congrArg List.length hpools
  rw [h.pooled, hchunks, List.length_map, List.length_map] at hlength
  cases hlength

/-! ### Failures -/

variable (R) in
/-- **The account of the pools and of the request.** -/
structure Consistent (s : Growth ρ) : Prop where
  sum : s.memory.rtmemSum.toNat = totalSize (s.pools.map Pool.area)
  accepted : ∀ p ∈ s.rtmemChunks, (s.chunk p).pool ≠ 0 ∧ ⟨(s.chunk p).pool, s.areaOf p⟩ ∈ s.pools
  /-- A request is about to be sent, under way, or being answered. -/
  growing : s.memory.rtmemFlag = true → 0 < s.rt.request + s.inFlight R

/-- **Nothing fails.** The condition on a state and the step taken in it. -/
def Keeps (s : Growth ρ) : Label → Prop
  | .mmap area => area ≠ 0
  | .calloc p => p ≠ 0
  | l => s.Accepts l

instance (s : Growth ρ) : ∀ l, Decidable (s.Keeps l)
  | .mmap _ | .calloc _ => inferInstanceAs (Decidable (_ ≠ _))
  | .addPool => inferInstanceAs (Decidable (s.Accepts .addPool))
  | .call _ | .send | .addMemory | .wake | .push | .shutdown | .freeChunk => instDecidableTrue

/-- What the account does not read may change. -/
theorem Consistent.of_eq (h : Consistent R s)
    (hsum : s'.memory.rtmemSum = s.memory.rtmemSum) (hpools : s'.pools = s.pools)
    (hchunks : s'.rtmemChunks = s.rtmemChunks)
    (hchunk : ∀ p ∈ s.rtmemChunks, s'.chunk p = s.chunk p)
    (hgrowing : s'.memory.rtmemFlag = true → 0 < s'.rt.request + s'.inFlight R) :
    Consistent R s' where
  sum := by
    rw [hsum, hpools]
    exact h.sum
  accepted p hp := by
    rw [hchunks] at hp
    unfold areaOf
    rw [hpools, hchunk p hp]
    exact h.accepted p hp
  growing := hgrowing

namespace Inv

/-- The request in the account, by the pointers in the ring. -/
theorem growing_iff (hi : Inv R s ring) :
    (s.memory.rtmemFlag = true → 0 < s.rt.request + s.inFlight R) ↔
      (s.memory.rtmemFlag = true →
        0 < s.rt.request + s.pending.toNat + s.uv.request + ring.length) := by
  rw [hi.inFlight_eq]
  simp only [Nat.add_assoc]

/-- A handler that gives up leaves the flag set, and no request under way. -/
theorem not_consistent_lose (hi : Inv R s ring) (huv : s.uv.request = 1) {pc : UvPc}
    (hpc : pc = .idle ∨ pc = .fault) : ¬ Consistent R { s with uv := pc } := by
  intro h
  have htokens := hi.tokens_le
  have hflag := Bool.toNat_le s.memory.rtmemFlag
  have hset : s.memory.rtmemFlag = true := Bool.toNat_eq_one.mp (by omega)
  have hgrowing := (hi.lose hpc).growing_iff.mp h.growing hset
  have hrequest : pc.request = 0 := by rcases hpc with rfl | rfl <;> rfl
  change 0 < s.rt.request + s.pending.toNat + pc.request + ring.length at hgrowing
  omega

/-- **The end of `tjost_add_memory`** keeps the account exactly if TLSF accepts the
area. -/
theorem consistent_addPool (hi : Inv R s ring) (h : Consistent R s) (hrt : s.rt = .add p) :
    Consistent R (s.addMemory p) ↔ Tlsf.addPool (s.chunk p).area (s.chunk p).size ≠ 0 := by
  have hself := addMemory_chunk_self s p
  constructor
  · intro h'
    have hpool := (h'.accepted p List.mem_cons_self).1
    rwa [hself] at hpool
  · intro haccepted
    have hpools : (s.addMemory p).pools =
        ⟨Tlsf.addPool (s.chunk p).area (s.chunk p).size, s.areaOf p⟩ :: s.pools :=
      if_neg haccepted
    refine ⟨?_, ?_, fun hset => absurd hset Bool.false_ne_true⟩
    · -- the areas are disjoint, so their sizes do not overflow a `size_t`
      have hlt := (hi.addPool hrt).heap.total_lt
      rw [hpools, List.map_cons, totalSize_cons] at hlt ⊢
      change (s.memory.rtmemSum + (s.chunk p).size).toNat = _
      rw [UInt64.toNat_add, h.sum, Nat.add_comm]
      exact Nat.mod_eq_of_lt hlt
    · intro q hq
      rw [hpools]
      rcases List.mem_cons.mp hq with rfl | hq
      · unfold areaOf
        rw [hself]
        exact ⟨haccepted, List.mem_cons_self⟩
      · have hlisted : q ∈ s.rtmemChunks := hq
        have hne : q ≠ p := by
          rintro rfl
          exact (hi.new q (by simp [hrt, RtPc.taken])).1 hlisted
        unfold areaOf
        rw [addMemory_chunk_other hne]
        obtain ⟨hpool, hmem⟩ := h.accepted q hq
        exact ⟨hpool, List.mem_cons_of_mem _ hmem⟩

/-- **An iteration of `tjost_free_memory`** keeps the account. -/
theorem consistent_freeChunk (hi : Inv R s ring) (h : Consistent R s) {rest : List UInt64}
    (hchunks : s.rtmemChunks = p :: rest) : Consistent R (s.freeChunk p rest) := by
  -- every chunk has a pool, so the first one is that of the first chunk
  have hall : s.rtmemChunks.filter s.accepted = s.rtmemChunks := by
    refine List.filter_eq_self.mpr fun q hq => ?_
    exact bne_iff_ne.mpr (h.accepted q hq).1
  have hpools := hi.pools_eq
  rw [hall, hchunks, List.map_cons] at hpools
  have hrest : (s.freeChunk p rest).pools =
      rest.map fun q => ⟨(s.chunk q).pool, s.areaOf q⟩ := by
    change s.pools.eraseP _ = _
    rw [hpools]
    exact List.eraseP_cons_of_pos (beq_self_eq_true (s.chunk p).pool)
  have hsum := h.sum
  rw [hpools, List.map_cons, totalSize_cons] at hsum
  refine ⟨?_, ?_, h.growing⟩
  · change (s.memory.rtmemSum - (s.chunk p).size).toNat = _
    have hle : (s.chunk p).size ≤ s.memory.rtmemSum := by
      rw [UInt64.le_iff_toNat_le, hsum]
      exact Nat.le_add_right _ _
    rw [UInt64.toNat_sub_of_le _ _ hle, hsum, hrest]
    exact Nat.add_sub_cancel_left ..
  · intro q hq
    rw [hrest]
    refine ⟨(h.accepted q (hchunks ▸ List.mem_cons_of_mem _ hq)).1, ?_⟩
    exact List.mem_map.mpr ⟨q, hq, rfl⟩

/-- **One step.** From a right account a step leads to a right account exactly if
nothing fails in it. -/
theorem consistent_step (hi : Inv R s ring) (h : Consistent R s) {l : Label}
    (hs : Growth.step R s l = some s') : Consistent R s' ↔ s.Keeps l := by
  have hgrowing := hi.growing_iff.mp h.growing
  cases step_outcome hs with
  | call hrt hc =>
    have hi' := hi.call hrt hc
    obtain ⟨hsum, hcases⟩ := call_cases hc
    refine iff_of_true (h.of_eq hsum rfl rfl (fun _ _ => rfl) (hi'.growing_iff.mpr ?_)) trivial
    intro hset
    rcases hcases with ⟨hreq, hflag⟩ | ⟨hreq, -, -⟩
    · -- no request is sent: the one under way is where it was
      have hone := hgrowing (hflag ▸ hset)
      rw [hrt] at hone
      rw [if_pos hreq]
      exact hone
    · rw [if_neg hreq]
      change 0 < 1 + s.pending.toNat + s.uv.request + ring.length
      omega
  -- in the next steps the request is found in another place
  | send hrt =>
    refine iff_of_true (h.of_eq rfl rfl rfl (fun _ _ => rfl)
      ((hi.send hrt).growing_iff.mpr fun _ => ?_)) trivial
    change 0 < 0 + 1 + s.uv.request + ring.length
    omega
  | take hrt hspace =>
    obtain ⟨p, -, hp, hi'⟩ := hi.addMemory hrt hspace
    rw [hp]
    refine iff_of_true (h.of_eq rfl rfl rfl (fun _ _ => rfl)
      (hi'.growing_iff.mpr fun _ => ?_)) trivial
    change 0 < 1 + s.pending.toNat + s.uv.request + 0
    omega
  | nothing => exact iff_of_true h trivial
  | addPool hrt => exact (hi.consistent_addPool h hrt).trans (accepts_addPool hrt).symm
  | wake hpending huv =>
    refine iff_of_true (h.of_eq rfl rfl rfl (fun _ _ => rfl)
      ((hi.wake hpending huv).growing_iff.mpr fun _ => ?_)) trivial
    change 0 < s.rt.request + 0 + 1 + ring.length
    omega
  | mapped huv harea hnull =>
    refine iff_of_true (h.of_eq rfl rfl rfl (fun _ _ => rfl)
      ((hi.mmap huv harea hnull).growing_iff.mpr fun _ => ?_)) hnull
    change 0 < s.rt.request + s.pending.toNat + 1 + ring.length
    omega
  -- a handler that gives up takes the request with it
  | unmapped huv =>
    exact iff_of_false (hi.not_consistent_lose (by rw [huv]; rfl) (Or.inl rfl)) (not_not.mpr rfl)
  | exhausted huv =>
    exact iff_of_false (hi.not_consistent_lose (by rw [huv]; rfl) (Or.inr rfl)) (not_not.mpr rfl)
  | record huv hnull hfresh =>
    refine iff_of_true (h.of_eq rfl rfl rfl ?_
      ((hi.calloc huv hfresh).growing_iff.mpr fun _ => ?_)) hnull
    · intro q hq
      refine Function.update_of_ne ?_ _ _
      rintro rfl
      exact hfresh (hi.chunks_records q hq).1
    · change 0 < s.rt.request + s.pending.toNat + 1 + ring.length
      omega
  | dropped huv hfull => exact absurd hfull (Nat.not_lt.mpr (hi.push_fits huv).2)
  | pushed huv =>
    refine iff_of_true (h.of_eq rfl rfl rfl (fun _ _ => rfl)
      ((hi.push huv).growing_iff.mpr fun _ => ?_)) trivial
    change 0 < s.rt.request + s.pending.toNat + 0 + 1
    omega
  | shutdown hrt huv =>
    refine iff_of_true (h.of_eq rfl rfl rfl (fun _ _ => rfl)
      ((hi.shutdown hrt).growing_iff.mpr fun hset => ?_)) trivial
    have hone := hgrowing hset
    rw [hrt] at hone
    exact hone
  | freeChunk hrt hchunks => exact iff_of_true (hi.consistent_freeChunk h hchunks) trivial

end Inv

theorem Init.consistent (h : Init R s) : Consistent R s := by
  obtain ⟨p, pool, area, hmemory, -, -, hchunks, hchunk, hpool, hpools, -, -, -, -⟩ := h
  refine ⟨?_, ?_, ?_⟩
  · rw [hmemory, hpools]
    rfl
  · rw [hchunks, hpools]
    intro q hq
    unfold areaOf
    rw [List.mem_singleton.mp hq, hchunk]
    exact ⟨hpool, List.mem_singleton_self _⟩
  · rw [hmemory]
    exact fun hset => absurd hset Bool.false_ne_true

/-- **The growth is right exactly while nothing fails.** -/
theorem consistent_iff {s₀ : Growth ρ} {ls : List Label} (h₀ : (machine R).init s₀)
    (hrun : (machine R).exec s₀ ls = some s) :
    (∀ ls' t, ls' <+: ls → (machine R).exec s₀ ls' = some t → Consistent R t) ↔
      (machine R).Meets Keeps s₀ ls := by
  refine Machine.meets_iff (S := fun s => ∃ ring, Inv R s ring) ?_ ?_ ⟨[], Init.inv h₀⟩
    (Init.consistent h₀) hrun
  · rintro s l s' ⟨ring, hi⟩ h
    exact hi.step h
  · rintro s l s' ⟨ring, hi⟩ hc h
    exact hi.consistent_step hc h

/-- A request that succeeds. -/
theorem consistent_iff_start :
    ∃ s, (machine (ByteRing.fifo rtmemRingSize)).exec start (requestRun 0x50000000) = some s ∧
      s.memory.rtmemSum = 0x2000000 ∧
      ∀ ls' t, ls' <+: requestRun 0x50000000 →
        (machine (ByteRing.fifo rtmemRingSize)).exec start ls' = some t →
          Consistent (ByteRing.fifo rtmemRingSize) t := by
  have hkeeps : (machine (ByteRing.fifo rtmemRingSize)).Meets Keeps start
      (requestRun 0x50000000) := by
    decide +kernel
  have hrun : ((machine (ByteRing.fifo rtmemRingSize)).exec start (requestRun 0x50000000)).map
      (fun s => s.memory.rtmemSum) = some 0x2000000 := by
    decide +kernel
  obtain ⟨s, hs, hsum⟩ := Option.map_eq_some_iff.mp hrun
  exact ⟨s, hs, hsum, (consistent_iff start_init hs).mpr hkeeps⟩

/-- **A failed mapping counts.** `mmap` answers `MAP_FAILED`: the sum grows by an
area, and TLSF gets none. -/
theorem mapFailed_counts :
    ∃ s, (machine (ByteRing.fifo rtmemRingSize)).exec start (requestRun mapFailed) = some s ∧
      s.memory.rtmemSum = 0x2000000 ∧ totalSize (s.pools.map Pool.area) = 0x1000000 ∧
      ¬ Consistent (ByteRing.fifo rtmemRingSize) s := by
  have hrun : ((machine (ByteRing.fifo rtmemRingSize)).exec start (requestRun mapFailed)).map
      (fun s => (s.memory.rtmemSum, totalSize (s.pools.map Pool.area))) =
        some (0x2000000, 0x1000000) := by
    decide +kernel
  obtain ⟨s, hs, hobserved⟩ := Option.map_eq_some_iff.mp hrun
  obtain ⟨hsum, htotal⟩ := Prod.mk.inj hobserved
  refine ⟨s, hs, hsum, htotal, fun h => ?_⟩
  have hbad := h.sum
  rw [hsum, htotal] at hbad
  exact absurd hbad (by decide)

end Growth

end Tjost
