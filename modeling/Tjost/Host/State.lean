import Mathlib.Logic.Function.Basic
import Tjost.Platform
import Tjost.Library.StableQueue

/-!
# The host and its queues

`Host` is the part of `Tjost_Host` that a process cycle works on: the host
queue, the lists of input/output modules and of uplinks, and the modules
themselves behind their addresses. The three scheduling functions of `tjost.c`
insert into a queue with the comparison `scheduleSort`, which never answers a
tie: an event goes behind the queued events of the same time.

The fields below "ghost" are a record for the proofs, written by the functions
of the model and read by none of them.

A queue is kept in the order `Event.Before` (time, then order of scheduling) by
every insertion: this is `sortedInsert_pairwise`, through the general
`StableQueue.pairwise_precedes_insertStable`.
-/

open StableQueue

namespace Tjost

/-! ### Modules -/

/-- The private data of a `cv_out` module. `portBuf` is the memory its port
buffer starts in. -/
structure CvOutData where
  portBuf : ℕ → UInt32
  time : NFrames
  value : UInt32

/-- What `module->dat` points to, for each module that has a `process_out`. The
event ports stand for what their buffers hold. -/
inductive ModuleDat (ρ : Type)
  | oscOut (port : List PortEvent)
  | midiOut (port : List PortEvent)
  | cvOut (dat : CvOutData)
  | seqOut (pipe : ρ)
  | rtmidiOut (pipe : ρ)
  | dump (pipe : ρ)
  | write (pipe : ρ) (offset : NFrames)
  | serial (pipeTx : ρ)
  | net (rbTx : ρ)
  | uplink
  | loopback
  | input

/-- `Tjost_Module`. `children` lists the modules of the child records in list
order. -/
structure Module (ρ : Type) where
  type : ModuleType
  children : List ModulePtr
  hasLuaCallback : Bool
  queue : List Event
  dat : ModuleDat ρ

/-! ### The host -/

/-- Where the main loop hands an event to. -/
inductive Target
  | child (module : ModulePtr)
  | lua (module : ModulePtr)
  deriving DecidableEq, Repr

/-- One hand-over by the main loop: of which event, to whom, and the time and
bytes it got. -/
structure Delivery where
  seq : ℕ
  target : Target
  time : NFrames
  buf : List UInt8
  deriving DecidableEq, Repr

/-- One event taken off a queue by a drain loop: the event as it was queued, its
time after the clamp, and whether it was reported late. -/
structure Drained where
  ev : Event
  time : NFrames
  late : Bool
  deriving DecidableEq, Repr

/-- `Tjost_Host`. -/
structure Host (ρ σ : Type) where
  /-- Events allocated so far. -/
  seq : ℕ
  lua : σ
  /-- Texts passed to `tjost_host_message_push`. -/
  messages : List String
  modules : List ModulePtr
  uplinks : List ModulePtr
  module : ModulePtr → Module ρ
  queue : List Event
  pipeUplinkTx : ρ
  pipeUplinkTxCount : ℕ
  /-- Ghost: the events that entered the host queue. -/
  scheduled : List Event
  /-- Ghost: the events that the main loop took off the host queue. -/
  dispatched : List Drained
  /-- Ghost: the hand-overs of the main loop. -/
  delivered : List Delivery
  /-- Ghost: the events that the main loop put into a child's queue. -/
  forwarded : List (ModulePtr × Event)
  /-- Ghost: the events that each `process_out` took off its queue. -/
  drained : List (ModulePtr × Drained)

variable {ρ σ : Type} (P : Platform ρ σ)

/-- A module as `tjost_lua.c` registers it, with nothing queued. -/
def Module.start (type : ModuleType) (children : List ModulePtr) (hasLuaCallback : Bool)
    (dat : ModuleDat ρ) : Module ρ :=
  { type, children, hasLuaCallback, queue := [], dat }

/-- A host before its first cycle, with nothing queued. -/
def Host.start (lua : σ) (modules uplinks : List ModulePtr) (module : ModulePtr → Module ρ)
    (pipeUplinkTx : ρ) : Host ρ σ :=
  { seq := 0, lua, messages := [], modules, uplinks, module, queue := []
    pipeUplinkTx, pipeUplinkTxCount := 0
    scheduled := [], dispatched := [], delivered := [], forwarded := [], drained := [] }

/-! ### Scheduling -/

/-- `_tjost_schedule_sort`. -/
def scheduleSort (ev1 ev2 : Event) : ℤ :=
  if ev1.time ≤ ev2.time then -1 else 1

/-- `tjost_host_message_push` of formatted texts. -/
def Host.messagePush (h : Host ρ σ) (texts : List String) : Host ρ σ :=
  { h with messages := h.messages ++ texts }

/-- `tjost_host_schedule`. -/
def hostSchedule (module : ModulePtr) (time : NFrames) (buf : List UInt8) (h : Host ρ σ) :
    Host ρ σ :=
  let tev : Event := { seq := h.seq, module, time, buf }
  { h with
    seq := h.seq + 1
    queue := P.eina.sortedInsert h.queue tev scheduleSort
    scheduled := h.scheduled ++ [tev] }

/-- `tjost_host_schedule_inline`. It answers the block behind the event, and
`block` is what its caller leaves there: every caller fills the block before the
queue is read again. -/
def hostScheduleInline (module : ModulePtr) (time : NFrames) (block : List UInt8)
    (h : Host ρ σ) : Host ρ σ :=
  let tev : Event := { seq := h.seq, module, time, buf := block }
  { h with
    seq := h.seq + 1
    queue := P.eina.sortedInsert h.queue tev scheduleSort
    scheduled := h.scheduled ++ [tev] }

/-- Replace the module behind an address. -/
def Host.setModule (h : Host ρ σ) (m : ModulePtr) (x : Module ρ) : Host ρ σ :=
  { h with module := Function.update h.module m x }

/-- `tjost_module_schedule`. -/
def moduleSchedule (m : ModulePtr) (time : NFrames) (buf : List UInt8) (h : Host ρ σ) :
    Host ρ σ :=
  let tev : Event := { seq := h.seq, module := 0, time, buf }
  let x := h.module m
  { h.setModule m { x with queue := P.eina.sortedInsert x.queue tev scheduleSort } with
    seq := h.seq + 1 }

theorem moduleSchedule_module (m n : ModulePtr) (time : NFrames) (buf : List UInt8)
    (h : Host ρ σ) : (moduleSchedule P m time buf h).module n =
      if n = m then { h.module m with
        queue := P.eina.sortedInsert (h.module m).queue ⟨h.seq, 0, time, buf⟩ scheduleSort }
      else h.module n :=
  Function.update_apply _ _ _ _

/-! ### The queue order -/

/-- Earlier time first, and among equal times the event scheduled first. -/
def Event.Before : Event → Event → Prop :=
  Precedes (fun e => e.time.toNat) Event.seq

instance : DecidableRel Event.Before :=
  inferInstanceAs (DecidableRel (Precedes (fun e : Event => e.time.toNat) Event.seq))

/-- The host keeps its queues in this order. -/
def Ordered (q : List Event) : Prop := q.Pairwise Event.Before

theorem scheduleSort_neg_iff (a b : Event) :
    scheduleSort a b < 0 ↔ a.time.toNat ≤ b.time.toNat := by
  unfold scheduleSort
  rw [← UInt32.le_iff_toNat_le]
  split <;> simp_all

theorem scheduleSort_pos_iff (a b : Event) :
    0 < scheduleSort a b ↔ ¬ a.time.toNat ≤ b.time.toNat := by
  unfold scheduleSort
  rw [← UInt32.le_iff_toNat_le]
  split <;> simp_all

/-- On an ordered queue Eina's insertion is the stable one: `scheduleSort` splits
the queue where the times get larger than the new one. -/
theorem sortedInsert_eq (E : Eina Event) {q : List Event} (hq : Ordered q) (tev : Event) :
    E.sortedInsert q tev scheduleSort = insertStable (fun e : Event => e.time.toNat) tev q := by
  have hdown := pairwise_downward hq (p := fun k => decide (k ≤ tev.time.toNat))
    (by intro k k' hk hk'; simpa using hk.trans (by simpa using hk'))
  have hsplit := E.sortedInsert_split
    (q.takeWhile fun e => e.time.toNat ≤ tev.time.toNat)
    (q.dropWhile fun e => e.time.toNat ≤ tev.time.toNat) tev scheduleSort ?_ ?_
  · rwa [List.takeWhile_append_dropWhile] at hsplit
  · intro a ha
    rw [takeWhile_eq_filter_of_downward hdown] at ha
    rw [scheduleSort_neg_iff]
    simpa using (List.mem_filter.mp ha).2
  · intro b hb
    rw [dropWhile_eq_filter_of_downward hdown] at hb
    rw [scheduleSort_pos_iff]
    simpa using (List.mem_filter.mp hb).2

/-- An ordered queue takes a newer event and stays ordered. -/
theorem sortedInsert_ordered (E : Eina Event) {q : List Event} (hq : Ordered q) {tev : Event}
    (hnew : ∀ e ∈ q, e.seq < tev.seq) : Ordered (E.sortedInsert q tev scheduleSort) := by
  rw [sortedInsert_eq E hq]
  exact pairwise_precedes_insertStable hq hnew

theorem sortedInsert_perm (E : Eina Event) {q : List Event} (hq : Ordered q) (tev : Event) :
    (E.sortedInsert q tev scheduleSort).Perm (tev :: q) := by
  rw [sortedInsert_eq E hq]
  exact insertStable_perm tev q

theorem mem_sortedInsert (E : Eina Event) {q : List Event} (hq : Ordered q) {tev e : Event} :
    e ∈ E.sortedInsert q tev scheduleSort ↔ e = tev ∨ e ∈ q := by
  rw [(sortedInsert_perm E hq tev).mem_iff, List.mem_cons]

/-- An ordered queue of events that were numbered before `n`. -/
structure QueueUpTo (n : ℕ) (q : List Event) : Prop where
  ordered : Ordered q
  seq_lt : ∀ e ∈ q, e.seq < n

namespace QueueUpTo

variable {n n' : ℕ} {q q' : List Event}

theorem nil (n : ℕ) : QueueUpTo n [] :=
  ⟨List.Pairwise.nil, fun _ he => absurd he List.not_mem_nil⟩

theorem mono (hq : QueueUpTo n q) (hn : n ≤ n') : QueueUpTo n' q :=
  ⟨hq.ordered, fun e he => lt_of_lt_of_le (hq.seq_lt e he) hn⟩

theorem sublist (hq : QueueUpTo n q) (hs : q'.Sublist q) : QueueUpTo n q' :=
  ⟨hq.ordered.sublist hs, fun e he => hq.seq_lt e (hs.subset he)⟩

/-- The queue takes the event with the next number. -/
theorem sortedInsert (E : Eina Event) (hq : QueueUpTo n q) {tev : Event} (htev : tev.seq = n) :
    QueueUpTo (n + 1) (E.sortedInsert q tev scheduleSort) where
  ordered := sortedInsert_ordered E hq.ordered (htev ▸ hq.seq_lt)
  seq_lt e he := by
    rcases (mem_sortedInsert E hq.ordered).mp he with rfl | he
    · exact htev ▸ Nat.lt_succ_self _
    · exact Nat.lt_succ_of_lt (hq.seq_lt e he)

end QueueUpTo

/-- In an ordered queue the events below a time come first. -/
theorem Ordered.downward {q : List Event} (hq : Ordered q) (t : ℕ) :
    q.Pairwise fun x y =>
      decide (y.time.toNat < t) = true → decide (x.time.toNat < t) = true :=
  pairwise_downward hq (p := fun k => decide (k < t))
    (by intro k k' hk hk'; simpa using hk.trans_lt (by simpa using hk'))

end Tjost
