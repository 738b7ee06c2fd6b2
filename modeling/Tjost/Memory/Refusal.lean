import Tjost.Host.State
import Tjost.Pipe.Channel
import Tjost.Lua.Serialize

/-!
# Refused requests

`tjost_alloc` answers `NULL` where `tlsf_malloc` refuses the request, and reports
it. This file is about the six places that ask for a block and what they do with
that answer: the three scheduling functions, `tjost_pipe_consume` with an
`alloc_cb` that schedules, `_chain`, and the bundle push of the serialiser.

None of them looks at the pointer before the first store through it (in
`tjost_pipe.c` a comment says so: `FIXME check return`). A call therefore ends in
one of three ways (`Fate`): it returns, it is still in its loop, or it has stored
through `NULL`.

What the calls should do instead is `dropRefused`: a call is a list of `items`,
one for each request, and an item whose request is refused is left out. A call
survives (`Survives`) if it does that, and leaves the pipe at the end of a record.

`survives_iff`: a call survives if and only if all of its requests are granted.
For a drain of a pipe the induction is on the records in the pipe
(`consume_take`); at the first refusal the header of the record is off the pipe,
and its payload is not (`consume_refused`).
-/

namespace Tjost

namespace Refusal

/-! ### State -/

/-- The structures that the calls work on: the host with its queues and child
lists, and the serialiser's part of the modules with their bundle stacks. -/
structure Structures (ρ σ : Type) where
  host : Host ρ σ
  out : ModulePtr → OutModule

/-- The structures, the pipe that is drained, and the number of requests made so
far. -/
structure State (ρ σ : Type) where
  structures : Structures ρ σ
  pipe : ρ
  requests : ℕ

/-- What becomes of a call. -/
inductive Fate (ρ σ : Type)
  | returned (s : State ρ σ)
  /-- The call is at the test of its loop. -/
  | running (s : State ρ σ)
  /-- The call has stored through `NULL`. -/
  | nullStore (s : State ρ σ)

-- `grants` are the answers of `tlsf_malloc`, by the number of the request
variable {ρ σ : Type} (P : Platform ρ σ) (O : LibOsc) (grants : ℕ → Bool)

/-- `tjost_alloc`, and whether the pointer it returns can be stored through. -/
def tjostAlloc (s : State ρ σ) : State ρ σ × Bool :=
  if grants s.requests then ({ s with requests := s.requests + 1 }, true)
  else
    let host := s.structures.host.messagePush ["tjost_alloc: out of memory"]
    ({ s with requests := s.requests + 1, structures := { s.structures with host } }, false)

/-- Ask for a block, and store through the pointer. `item` is what all of the
stores come to, if the pointer is not `NULL`. -/
def storing (item : Structures ρ σ → Structures ρ σ) (s : State ρ σ) : Fate ρ σ :=
  let (s, ok) := tjostAlloc grants s
  if ok then .returned { s with structures := item s.structures } else .nullStore s

/-! ### Items -/

/-- An item of the host queue. -/
def hostItem (module : ModulePtr) (time : NFrames) (buf : List UInt8) (x : Structures ρ σ) :
    Structures ρ σ :=
  { x with host := Tjost.hostSchedule P module time buf x.host }

/-- An item of the host queue that is written in place. -/
def inlineItem (module : ModulePtr) (time : NFrames) (block : List UInt8)
    (x : Structures ρ σ) : Structures ρ σ :=
  { x with host := Tjost.hostScheduleInline P module time block x.host }

/-- An item of the queue of a module. -/
def moduleItem (m : ModulePtr) (time : NFrames) (buf : List UInt8) (x : Structures ρ σ) :
    Structures ρ σ :=
  { x with host := Tjost.moduleSchedule P m time buf x.host }

/-- An item of a child list: `eina_inlist_append`. -/
def childItem (modIn modOut : ModulePtr) (x : Structures ρ σ) : Structures ρ σ :=
  let y := x.host.module modIn
  { x with host := x.host.setModule modIn { y with children := y.children ++ [modOut] } }

/-- An item of a bundle stack. -/
def bundleItem (m : ModulePtr) (x : Structures ρ σ) : Structures ρ σ :=
  { x with out := Function.update x.out m (Tjost.pushBundle O (x.out m)) }

/-! ### The calls -/

/-- `tjost_host_schedule`. The first store is `tev->time = time`. -/
def hostSchedule (module : ModulePtr) (time : NFrames) (buf : List UInt8) :
    State ρ σ → Fate ρ σ :=
  storing grants (hostItem P module time buf)

/-- `tjost_host_schedule_inline`, with what its caller leaves in the block. -/
def hostScheduleInline (module : ModulePtr) (time : NFrames) (block : List UInt8) :
    State ρ σ → Fate ρ σ :=
  storing grants (inlineItem P module time block)

/-- `tjost_module_schedule`. -/
def moduleSchedule (m : ModulePtr) (time : NFrames) (buf : List UInt8) :
    State ρ σ → Fate ρ σ :=
  storing grants (moduleItem P m time buf)

/-- `_chain`. The first store is `child->module = mod_out`. -/
def chain (modIn modOut : ModulePtr) (s : State ρ σ) : Fate ρ σ :=
  if isInput (s.structures.host.module modIn).type &&
      isOutput (s.structures.host.module modOut).type then
    storing grants (childItem modIn modOut) s
  else .returned s

/-- The branch of `/bundle/push` in `_serialize_packet`. Inside of a bundle the size
field of the new element and `module->itm` come before the request. The first store
behind it is that of `osc_start_bundle` through `&bndl->ptr`: `eina_inlist_prepend` tests
its argument for `NULL`. -/
def bundlePush (m : ModulePtr) (s : State ρ σ) : Fate ρ σ :=
  let x := s.structures.out m
  let (buffer, itm) :=
    if x.bndls = [] then (x.buffer, x.itm)
    else
      let (buffer, _, itm) := O.startBundleItem x.buffer x.bufPtr
      (buffer, itm)
  let (s, ok) := tjostAlloc grants s
  if ok then .returned { s with structures := bundleItem O m s.structures }
  else
    .nullStore { s with structures := { s.structures with
      out := Function.update s.structures.out m { x with buffer, itm } } }

/-- `tjost_pipe_consume` in the thread of the host, for so many iterations. Its
`alloc_cb` is `tjost_host_schedule_inline` with the module and the time that it
takes from the header, and its `sched_cb` answers `0`. -/
def consume (target : EventHeader → ModulePtr × NFrames) : ℕ → State ρ σ → Fate ρ σ
  | 0, s => .running s
  | n + 1, s =>
    if P.ring.readSpace s.pipe < sizeofEvent then .returned s
    else
      let image := P.ring.peek s.pipe sizeofEvent
      if image.length ≠ sizeofEvent then .returned s
      else
        let tev := EventHeader.decode image
        if P.ring.readSpace s.pipe < (UInt64.ofNat sizeofEvent + tev.size).toNat then
          consume target n s
        else
          let s := { s with pipe := P.ring.readAdvance s.pipe sizeofEvent }
          -- `alloc_cb`, whose first store is `tev->time = time`
          let (s, ok) := tjostAlloc grants s
          if ok then
            let (pipe, block) := P.ring.read s.pipe tev.size.toNat
            let s := { s with
              pipe
              structures := inlineItem P (target tev).1 (target tev).2 block s.structures }
            if block.length ≠ tev.size.toNat then .returned s else consume target n s
          else .nullStore s

/-- A call that asks for blocks. -/
inductive Op
  | hostSchedule (module : ModulePtr) (time : NFrames) (buf : List UInt8)
  | hostScheduleInline (module : ModulePtr) (time : NFrames) (block : List UInt8)
  | moduleSchedule (m : ModulePtr) (time : NFrames) (buf : List UInt8)
  | consume (target : EventHeader → ModulePtr × NFrames)
  | chain (modIn modOut : ModulePtr)
  | bundlePush (m : ModulePtr)

/-- Run a call. A loop gets so many iterations. -/
def Op.run (n : ℕ) : Op → State ρ σ → Fate ρ σ
  | .hostSchedule module time buf => Refusal.hostSchedule P grants module time buf
  | .hostScheduleInline module time block => Refusal.hostScheduleInline P grants module time block
  | .moduleSchedule m time buf => Refusal.moduleSchedule P grants m time buf
  | .consume target => Refusal.consume P grants target n
  | .chain modIn modOut => Refusal.chain grants modIn modOut
  | .bundlePush m => Refusal.bundlePush O grants m

/-! ### Survival -/

/-- The complete records of the pipe as items. -/
def recordItems (target : EventHeader → ModulePtr × NFrames) (records : List Record) :
    List (Structures ρ σ → Structures ρ σ) :=
  records.map fun r => inlineItem P (target r.header).1 (target r.header).2 r.buf

/-- What a call adds to the structures: one item for each request it makes. -/
def Op.items (records : List Record) (x : Structures ρ σ) :
    Op → List (Structures ρ σ → Structures ρ σ)
  | .hostSchedule module time buf => [hostItem P module time buf]
  | .hostScheduleInline module time block => [inlineItem P module time block]
  | .moduleSchedule m time buf => [moduleItem P m time buf]
  | .consume target => recordItems P target records
  | .chain modIn modOut =>
    if isInput (x.host.module modIn).type && isOutput (x.host.module modOut).type then
      [childItem modIn modOut]
    else []
  | .bundlePush m => [bundleItem O m]

/-- The records that a call takes off the pipe with its first `k` items. -/
def Op.taken (k : ℕ) : Op → ℕ
  | .consume _ => k
  | _ => 0

/-- Add the items whose requests are granted, and drop the others. The first
request has the number `i`. -/
def dropRefused : ℕ → List (Structures ρ σ → Structures ρ σ) → Structures ρ σ → Structures ρ σ
  | _, [], x => x
  | i, item :: items, x => dropRefused (i + 1) items (if grants i then item x else x)

/-- The same queues, child lists and bundle stacks. -/
structure SameStructures (x y : Structures ρ σ) : Prop where
  queue : x.host.queue = y.host.queue
  module : x.host.module = y.host.module
  bndls : ∀ m, (x.out m).bndls = (y.out m).bndls

theorem SameStructures.refl (x : Structures ρ σ) : SameStructures x x :=
  ⟨rfl, rfl, fun _ => rfl⟩

/-- The pipe holds these records, and behind them less than one. -/
structure Holds (pipe : ρ) (records : List Record) (rest : List UInt8) : Prop where
  contents : P.ring.contents pipe = records.flatMap Record.bytes ++ rest
  sized : ∀ r ∈ records, r.Sized
  partly : sizeofEvent ≤ rest.length →
    rest.length < (UInt64.ofNat sizeofEvent + (EventHeader.decode (rest.take sizeofEvent)).size).toNat

/-- **Survival.** After any number of iterations the call has not stored through
`NULL`. It has dealt with `k` of its items, where those refused are dropped and
nothing else has changed, and the pipe starts at a record. If it has returned, it
has dealt with all of them. -/
def Survives (op : Op) (records : List Record) (rest : List UInt8) (s : State ρ σ) : Prop :=
  ∀ n, ∃ s' k, (op.run P O grants n s = .returned s' ∧ k = (op.items P O records s.structures).length
      ∨ op.run P O grants n s = .running s') ∧
    SameStructures s'.structures
      (dropRefused grants s.requests ((op.items P O records s.structures).take k) s.structures) ∧
    P.ring.contents s'.pipe = (records.drop (op.taken k)).flatMap Record.bytes ++ rest

section Storing

variable {grants} {item : Structures ρ σ → Structures ρ σ} {s : State ρ σ}

theorem tjostAlloc_granted (h : grants s.requests = true) :
    tjostAlloc grants s = ({ s with requests := s.requests + 1 }, true) := by
  unfold tjostAlloc
  rw [if_pos h]

theorem tjostAlloc_refused (h : grants s.requests = false) : (tjostAlloc grants s).2 = false := by
  unfold tjostAlloc
  rw [if_neg (by simp [h])]

theorem storing_granted (h : grants s.requests = true) :
    storing grants item s =
      .returned { s with structures := item s.structures, requests := s.requests + 1 } := by
  unfold storing
  rw [tjostAlloc_granted h]
  rfl

variable (item) in
theorem storing_refused (h : grants s.requests = false) :
    ∃ s', storing grants item s = .nullStore s' := by
  unfold storing
  simp only [tjostAlloc_refused h, Bool.false_eq_true, if_false]
  exact ⟨_, rfl⟩

theorem bundlePush_granted (m : ModulePtr) (h : grants s.requests = true) :
    bundlePush O grants m s = .returned
      { s with structures := bundleItem O m s.structures, requests := s.requests + 1 } := by
  unfold bundlePush
  rw [tjostAlloc_granted h]
  rfl

theorem bundlePush_refused (m : ModulePtr) (h : grants s.requests = false) :
    ∃ s', bundlePush O grants m s = .nullStore s' := by
  unfold bundlePush
  simp only [tjostAlloc_refused h, Bool.false_eq_true, if_false]
  exact ⟨_, rfl⟩

end Storing

/-! ### The drain of a pipe -/

section Consume

variable {P grants} {target : EventHeader → ModulePtr × NFrames} {r : Record}
  {records : List Record} {rest : List UInt8} {s : State ρ σ}

/-- What the iteration that finds a record leaves in the pipe before it asks for a
block. -/
theorem Holds.advance (h : Holds P s.pipe (r :: records) rest) :
    P.ring.contents (P.ring.readAdvance s.pipe sizeofEvent) =
      r.buf ++ (records.flatMap Record.bytes ++ rest) := by
  have hcontents : P.ring.contents s.pipe =
      r.header.encode ++ (r.buf ++ (records.flatMap Record.bytes ++ rest)) := by
    rw [h.contents, List.flatMap_cons, Record.bytes, List.append_assoc, List.append_assoc]
  have hadvance := P.ring.readAdvance_append hcontents
  rwa [Record.length_header] at hadvance

/-- The iteration that finds a record. -/
theorem consume_succ (h : Holds P s.pipe (r :: records) rest) (n : ℕ) :
    consume P grants target (n + 1) s =
      let (s', ok) := tjostAlloc grants { s with pipe := P.ring.readAdvance s.pipe sizeofEvent }
      if ok then
        let (pipe, block) := P.ring.read s'.pipe r.header.size.toNat
        let s' := { s' with
          pipe
          structures := inlineItem P (target r.header).1 (target r.header).2 block s'.structures }
        if block.length ≠ r.header.size.toNat then .returned s' else consume P grants target n s'
      else .nullStore s' := by
  have hsized : r.Sized := h.sized r List.mem_cons_self
  have hcontents : P.ring.contents s.pipe =
      r.header.encode ++ (r.buf ++ (records.flatMap Record.bytes ++ rest)) := by
    rw [h.contents, List.flatMap_cons, Record.bytes, List.append_assoc, List.append_assoc]
  have hpeek : P.ring.peek s.pipe sizeofEvent = r.header.encode := by
    have happend := P.ring.peek_append hcontents
    rwa [Record.length_header] at happend
  have hspace : sizeofEvent + r.buf.length ≤ P.ring.readSpace s.pipe := by
    rw [P.ring.readSpace_eq, hcontents, List.length_append, List.length_append,
      Record.length_header]
    omega
  rw [consume, if_neg (by omega)]
  simp only [hpeek, Record.length_header, EventHeader.decode_encode, ne_eq, not_true_eq_false,
    if_false]
  rw [if_neg (by rw [hsized.recordSize]; omega)]

variable (target) in
/-- A record whose block is granted is queued, and off the pipe. -/
theorem consume_granted (h : Holds P s.pipe (r :: records) rest)
    (hgrant : grants s.requests = true) :
    ∃ pipe, Holds P pipe records rest ∧ ∀ n, consume P grants target (n + 1) s =
      consume P grants target n
        { pipe, requests := s.requests + 1
          structures := inlineItem P (target r.header).1 (target r.header).2 r.buf s.structures } := by
  have hsize : r.header.size.toNat = r.buf.length := (h.sized r List.mem_cons_self).size
  -- the payload is all that is read into the block
  obtain ⟨hrest, hblock⟩ := P.ring.read_append h.advance
  refine ⟨_, ⟨hrest, fun r' hr' => h.sized r' (List.mem_cons_of_mem _ hr'), h.partly⟩, ?_⟩
  intro n
  have hgrant' : grants
      ({ s with pipe := P.ring.readAdvance s.pipe sizeofEvent } : State ρ σ).requests = true :=
    hgrant
  rw [consume_succ h, tjostAlloc_granted hgrant']
  simp only [if_true, hsize, hblock, ne_eq, not_true_eq_false, if_false]

variable (grants target) in
/-- **A refusal** in the middle of a drain: the store goes through `NULL`, and the
pipe starts with the payload of the record, without its header. -/
theorem consume_refused (h : Holds P s.pipe (r :: records) rest)
    (hrefuse : grants s.requests = false) (n : ℕ) :
    ∃ s', consume P grants target (n + 1) s = .nullStore s' ∧
      P.ring.contents s'.pipe = r.buf ++ (records.flatMap Record.bytes ++ rest) := by
  refine ⟨(tjostAlloc grants { s with pipe := P.ring.readAdvance s.pipe sizeofEvent }).1, ?_, ?_⟩
  · have hnull : (tjostAlloc grants
        { s with pipe := P.ring.readAdvance s.pipe sizeofEvent }).2 = false :=
      tjostAlloc_refused hrefuse
    rw [consume_succ h]
    simp only [hnull, Bool.false_eq_true, if_false]
  · unfold tjostAlloc
    split
    · exact h.advance
    · exact h.advance

variable (grants target) in
/-- Behind the last complete record the call returns, or goes on testing. -/
theorem consume_nil (h : Holds P s.pipe [] rest) (n : ℕ) :
    consume P grants target n s = .returned s ∨ consume P grants target n s = .running s := by
  have hcontents : P.ring.contents s.pipe = rest := by
    rw [h.contents]
    rfl
  induction n with
  | zero => exact Or.inr rfl
  | succ n ih =>
    rw [consume]
    by_cases hspace : P.ring.readSpace s.pipe < sizeofEvent
    · exact Or.inl (if_pos hspace)
    · have hlen : sizeofEvent ≤ rest.length := by
        rw [P.ring.readSpace_eq, hcontents] at hspace
        omega
      have hpartly := h.partly hlen
      rw [if_neg hspace]
      simp only [P.ring.peek_eq, P.ring.readSpace_eq, hcontents, List.length_take]
      rw [if_neg (by omega), if_pos hpartly]
      exact ih

variable (target) in
/-- **The first records of a drain**, if their blocks are granted. -/
theorem consume_take (k : ℕ) (h : Holds P s.pipe records rest) (hk : k ≤ records.length)
    (hgrants : ∀ i < k, grants (s.requests + i) = true) :
    ∃ s', Holds P s'.pipe (records.drop k) rest ∧ s'.requests = s.requests + k ∧
      s'.structures =
        dropRefused grants s.requests ((recordItems P target records).take k) s.structures ∧
      ∀ n, consume P grants target (k + n) s = consume P grants target n s' := by
  induction k generalizing s records with
  | zero => exact ⟨s, h, rfl, rfl, fun n => by rw [Nat.zero_add]⟩
  | succ k ih =>
    obtain _ | ⟨r, records⟩ := records
    · exact absurd hk (Nat.not_succ_le_zero k)
    · have hgrant : grants s.requests = true := hgrants 0 (Nat.succ_pos k)
      obtain ⟨pipe, hpipe, hstep⟩ := consume_granted target h hgrant
      obtain ⟨s', hholds, hrequests, hstructures, hrun⟩ :=
        ih (s := ⟨inlineItem P (target r.header).1 (target r.header).2 r.buf s.structures, pipe,
            s.requests + 1⟩) hpipe (Nat.le_of_succ_le_succ hk) fun i hi => by
          have hnext := hgrants (i + 1) (Nat.succ_lt_succ hi)
          rwa [← Nat.add_assoc, Nat.add_right_comm] at hnext
      refine ⟨s', hholds, ?_, ?_, ?_⟩
      · rw [hrequests, Nat.add_assoc, Nat.add_comm 1 k]
      · rw [hstructures]
        show _ = dropRefused grants s.requests (_ :: (recordItems P target records).take k) _
        rw [dropRefused, if_pos hgrant]
      · intro n
        rw [Nat.add_right_comm, hstep, hrun]

end Consume

/-! ### When a call survives -/

section Survive

variable {P O grants} {op : Op} {records : List Record} {rest : List UInt8} {s : State ρ σ}

/-- A call with one request, which fills in its item if that is granted and stores
through `NULL` if not. -/
theorem survives_iff_of_one (item : Structures ρ σ → Structures ρ σ)
    (h : Holds P s.pipe records rest) (htaken : ∀ k, op.taken k = 0)
    (hitems : op.items P O records s.structures = [item])
    (hgranted : grants s.requests = true → ∀ n, op.run P O grants n s =
      .returned { s with structures := item s.structures, requests := s.requests + 1 })
    (hrefused : grants s.requests = false → ∀ n, ∃ s', op.run P O grants n s = .nullStore s') :
    Survives P O grants op records rest s ↔
      ∀ i < (op.items P O records s.structures).length, grants (s.requests + i) = true := by
  rw [hitems]
  constructor
  · intro hsurvives i hi
    obtain rfl : i = 0 := by
      simp only [List.length_singleton] at hi
      omega
    by_contra hgrant
    obtain ⟨s', hnull⟩ := hrefused (by simpa using hgrant) 0
    obtain ⟨s'', k, hrun | hrun, -⟩ := hsurvives 0
    · exact nomatch hnull.symm.trans hrun.1
    · exact nomatch hnull.symm.trans hrun
  · intro hgrants n
    have hgrant : grants s.requests = true := hgrants 0 Nat.one_pos
    refine ⟨_, 1, Or.inl ⟨hgranted hgrant n, by rw [hitems]; rfl⟩, ?_, ?_⟩
    · rw [hitems]
      show SameStructures _ (dropRefused grants s.requests [item] s.structures)
      rw [dropRefused, dropRefused, if_pos hgrant]
      exact SameStructures.refl _
    · rw [htaken, List.drop_zero]
      exact h.contents

/-- A call without a request survives. -/
theorem survives_of_none (h : Holds P s.pipe records rest) (htaken : ∀ k, op.taken k = 0)
    (hitems : op.items P O records s.structures = [])
    (hrun : ∀ n, op.run P O grants n s = .returned s) : Survives P O grants op records rest s := by
  intro n
  refine ⟨s, 0, Or.inl ⟨hrun n, by rw [hitems]; rfl⟩, SameStructures.refl _, ?_⟩
  rw [htaken, List.drop_zero]
  exact h.contents

/-- A drain survives if and only if the block of every complete record is
granted. -/
theorem survives_consume_iff (target : EventHeader → ModulePtr × NFrames)
    (h : Holds P s.pipe records rest) :
    Survives P O grants (.consume target) records rest s ↔
      ∀ i < records.length, grants (s.requests + i) = true := by
  constructor
  · intro hsurvives
    by_contra hrefused
    simp only [not_forall, exists_prop] at hrefused
    -- the first refusal
    classical
    obtain ⟨hi, hrefuse⟩ := Nat.find_spec hrefused
    set i := Nat.find hrefused with hidef
    have hbefore : ∀ j < i, grants (s.requests + j) = true := by
      intro j hj
      by_contra hgrant
      exact Nat.find_min hrefused hj ⟨hj.trans hi, hgrant⟩
    obtain ⟨s', hholds, hrequests, -, hrun⟩ :=
      consume_take target i h hi.le hbefore
    rw [List.drop_eq_getElem_cons hi] at hholds
    obtain ⟨s'', hnull, -⟩ := consume_refused grants target hholds
      (by rw [hrequests]; simpa using hrefuse) 0
    have hfate : (Op.consume target).run P O grants (i + 1) s = .nullStore s'' :=
      (hrun 1).trans hnull
    obtain ⟨t, k, hend | hend, -⟩ := hsurvives (i + 1)
    · exact nomatch hfate.symm.trans hend.1
    · exact nomatch hfate.symm.trans hend
  · intro hgrants n
    obtain ⟨s', hholds, -, hstructures, hrun⟩ :=
      consume_take target (min n records.length) h (Nat.min_le_right _ _)
        fun i hi => hgrants i (lt_of_lt_of_le hi (Nat.min_le_right _ _))
    have hlength : (recordItems P target records).length = records.length := List.length_map _
    have hfate : consume P grants target n s =
        consume P grants target (n - min n records.length) s' := by
      rw [← hrun, Nat.add_sub_cancel' (Nat.min_le_left _ _)]
    refine ⟨s', min n records.length, ?_, ?_, hholds.contents⟩
    · by_cases hn : n < records.length
      · right
        show consume P grants target n s = _
        rw [hfate, Nat.min_eq_left hn.le, Nat.sub_self]
        rfl
      · -- all complete records are done
        have hmin : min n records.length = records.length := Nat.min_eq_right (by omega)
        rw [hmin, List.drop_length] at hholds
        rw [hmin] at hfate
        obtain hend | hend := consume_nil grants target hholds
          (n - records.length)
        · exact Or.inl ⟨hfate.trans hend, hmin.trans hlength.symm⟩
        · exact Or.inr (hfate.trans hend)
    · rw [hstructures]
      exact SameStructures.refl _

/-- **When a call survives.** It does if and only if `tlsf_malloc` refuses none of
its requests. -/
theorem survives_iff (op : Op) (h : Holds P s.pipe records rest) :
    Survives P O grants op records rest s ↔
      ∀ i < (op.items P O records s.structures).length, grants (s.requests + i) = true := by
  cases op with
  | hostSchedule module time buf =>
    exact survives_iff_of_one _ h (fun _ => rfl) rfl (fun hgrant _ => storing_granted hgrant)
      fun hrefuse _ => storing_refused _ hrefuse
  | hostScheduleInline module time block =>
    exact survives_iff_of_one _ h (fun _ => rfl) rfl (fun hgrant _ => storing_granted hgrant)
      fun hrefuse _ => storing_refused _ hrefuse
  | moduleSchedule m time buf =>
    exact survives_iff_of_one _ h (fun _ => rfl) rfl (fun hgrant _ => storing_granted hgrant)
      fun hrefuse _ => storing_refused _ hrefuse
  | consume target =>
    rw [survives_consume_iff target h]
    show _ ↔ ∀ i < (recordItems P target records).length, _
    rw [recordItems, List.length_map]
  | chain modIn modOut =>
    by_cases htypes : isInput (s.structures.host.module modIn).type &&
        isOutput (s.structures.host.module modOut).type
    · refine survives_iff_of_one (childItem modIn modOut) h (fun _ => rfl) (if_pos htypes)
        (fun hgrant _ => ?_) fun hrefuse _ => ?_
      · exact (if_pos htypes).trans (storing_granted hgrant)
      · obtain ⟨s', hnull⟩ := storing_refused (childItem modIn modOut) hrefuse
        exact ⟨s', (if_pos htypes).trans hnull⟩
    · have hitems : (Op.chain modIn modOut).items P O records s.structures = [] := if_neg htypes
      rw [hitems]
      constructor
      · intro _ i hi
        exact absurd hi (Nat.not_lt_zero i)
      · intro _
        exact survives_of_none h (fun _ => rfl) hitems fun _ => if_neg htypes
  | bundlePush m =>
    exact survives_iff_of_one _ h (fun _ => rfl) rfl
      (fun hgrant _ => bundlePush_granted O m hgrant) fun hrefuse _ => bundlePush_refused O m hrefuse

end Survive

/-- An event on its way through a pipe. -/
def ping : Record := ⟨⟨0, 0, 0, 0⟩, 1, 32, [47, 97, 0, 0]⟩

/-- A host with nothing queued, and a pipe with one event. -/
def start : State (ByteRing.Fifo ringbufSize) Unit where
  structures :=
    { host := Host.start () [] [] (fun _ => Module.start moduleInput [] false .input)
        (ByteRing.Fifo.empty ringbufSize ringbufSize_pos)
      out := fun _ => OutModule.new }
  pipe := ⟨ping.bytes, 0, by rw [Record.length_bytes]; decide⟩
  requests := 0

theorem holds_start :
    Holds (Platform.plain 4096 (LuaScript.pass 0)) start.pipe [ping] [] where
  contents := by rw [List.flatMap_cons, List.flatMap_nil, List.append_nil, List.append_nil]; rfl
  sized r hr := by
    rw [List.mem_singleton.mp hr]
    decide
  partly hlen := absurd hlen (by decide)

theorem survives_iff_start :
    Survives (Platform.plain 4096 (LuaScript.pass 0)) LibOsc.plain (fun i => i == 0)
        (.consume fun tev => (tev.module, tev.time)) [ping] [] start ↔
      ∀ i < 1, (start.requests + i == 0) = true :=
  survives_iff (.consume fun tev => (tev.module, tev.time)) holds_start

/-- The drain of a pipe with one event, where the pool is empty. -/
theorem drain_nullStore :
    ¬ Survives (Platform.plain 4096 (LuaScript.pass 0)) LibOsc.plain (fun _ => false)
      (.consume fun tev => (tev.module, tev.time)) [ping] [] start := by
  intro hsurvives
  obtain ⟨s, hnull, -⟩ := consume_refused (fun _ => false)
    (fun tev => (tev.module, tev.time)) holds_start rfl 0
  obtain ⟨s', k, hrun | hrun, -⟩ := hsurvives 1
  · exact nomatch hnull.symm.trans hrun.1
  · exact nomatch hnull.symm.trans hrun

end Refusal

end Tjost
