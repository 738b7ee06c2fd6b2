import Tjost.Host.State

/-!
# The loop over due events

The main loop of `_process` and the loop in every `process_out` are copies of one
loop. It walks a queue from its head, stops at the first event with
`tev->time >= last + nframes`, clamps the time of every event before that one,
acts on the event and unlinks it:

```
EINA_INLIST_FOREACH_SAFE(queue, l, tev)
{
  if(tev->time >= last + nframes)
    break;
  else if(tev->time == 0)
    tev->time = last;
  else if(tev->time < last)
  {
    tjost_host_message_push(host, MOD_NAME": late event");
    tev->time = last;
  }
  ...
}
```

`dueLoop` is that loop with its body as a parameter. The safe iterator has read
the next node before it returns to the loop head and no body inserts into the
queue it runs on, so the loop visits the nodes the queue has at its start. On an
ordered queue they are exactly the due ones (`dueLoop_eq_foldl`), whether or not
`last + nframes` wraps: the test, the clamp and the queue order all compare the
raw 32-bit values.

Where the sum does not wrap (`NoWrap`), the clamp maps every due event into the
period (`clamp_mem_period`) and is monotone along the queue (`clamp_mono`).
-/

open StableQueue

namespace Tjost

/-! ### The tests of the loop -/

/-- `tev->time < last + nframes`, in 32-bit arithmetic. -/
def due (last nframes : NFrames) (tev : Event) : Bool :=
  decide (tev.time < last + nframes)

/-- The time of a due event after the clamp. Late events get the time `late`. -/
def clamp (last late time : NFrames) : NFrames :=
  if time = 0 then last else if time < last then late else time

/-- The branch that reports an event as late. -/
def isLate (last time : NFrames) : Bool :=
  decide (time ≠ 0) && decide (time < last)

/-- The report of a late event, if it is one: `"%s: late event %i"` of the module
name and the signed difference. -/
def lateReport (name : String) (last time : NFrames) : List String :=
  if isLate last time then
    [name ++ ": late event " ++ toString (time - last).toBitVec.toInt]
  else []

/-- The ghost record of a due event. -/
def Drained.of (last late : NFrames) (tev : Event) : Drained where
  ev := tev
  time := clamp last late tev.time
  late := isLate last tev.time

/-- The loop, over the nodes its queue has at the start. -/
def dueLoop {α : Type} (last nframes : NFrames) (body : Event → α → α) :
    List Event → α → α
  | [], s => s
  | tev :: l, s =>
    if last + nframes ≤ tev.time then s
    else dueLoop last nframes body l (body tev s)

/-- The events of a queue that a period finds due. -/
def dueEvents (last nframes : NFrames) (q : List Event) : List Event :=
  q.filter (due last nframes)

/-- The events of a queue that a period leaves. -/
def restEvents (last nframes : NFrames) (q : List Event) : List Event :=
  q.filter fun tev => !due last nframes tev

/-! ### What the loop visits -/

section Visits

variable {α : Type} {last nframes : NFrames} {body : Event → α → α} {q : List Event}

theorem due_eq_decide_toNat (last nframes : NFrames) (tev : Event) :
    due last nframes tev = decide (tev.time.toNat < (last + nframes).toNat) := by
  unfold due
  exact decide_eq_decide.mpr UInt32.lt_iff_toNat_lt

theorem not_due_iff {tev : Event} : due last nframes tev = false ↔ last + nframes ≤ tev.time := by
  unfold due
  simp

theorem dueLoop_eq_foldl_takeWhile (q : List Event) (s : α) :
    dueLoop last nframes body q s =
      (q.takeWhile (due last nframes)).foldl (fun s tev => body tev s) s := by
  induction q generalizing s with
  | nil => rfl
  | cons tev q ih =>
    unfold dueLoop
    by_cases h : last + nframes ≤ tev.time
    · have hdue : ¬ due last nframes tev = true := by simp [not_due_iff.mpr h]
      rw [if_pos h, List.takeWhile_cons_of_neg hdue]
      rfl
    · have hdue : due last nframes tev = true := by
        simpa using mt not_due_iff.mp h
      rw [if_neg h, List.takeWhile_cons_of_pos hdue, List.foldl_cons]
      exact ih _

theorem Ordered.takeWhile_due (hq : Ordered q) (last nframes : NFrames) :
    q.takeWhile (due last nframes) = dueEvents last nframes q := by
  unfold dueEvents
  rw [show due last nframes = _ from funext (due_eq_decide_toNat last nframes)]
  exact takeWhile_eq_filter_of_downward (hq.downward _)

theorem Ordered.dropWhile_due (hq : Ordered q) (last nframes : NFrames) :
    q.dropWhile (due last nframes) = restEvents last nframes q := by
  unfold restEvents
  rw [show due last nframes = _ from funext (due_eq_decide_toNat last nframes)]
  exact dropWhile_eq_filter_of_downward (hq.downward _)

/-- **What the loop does on an ordered queue**: its body runs on the due events
in queue order. -/
theorem dueLoop_eq_foldl (hq : Ordered q) (s : α) :
    dueLoop last nframes body q s =
      (dueEvents last nframes q).foldl (fun s tev => body tev s) s := by
  rw [dueLoop_eq_foldl_takeWhile, hq.takeWhile_due]

/-- An ordered queue is its due events followed by the others. -/
theorem Ordered.due_append_rest (hq : Ordered q) (last nframes : NFrames) :
    dueEvents last nframes q ++ restEvents last nframes q = q := by
  rw [← hq.takeWhile_due, ← hq.dropWhile_due, List.takeWhile_append_dropWhile]

/-- The loop leaves a predicate alone that its body preserves. -/
theorem dueLoop_invariant {I : α → Prop} (q : List Event)
    (hbody : ∀ tev ∈ q, ∀ s, I s → I (body tev s)) (s : α) (hs : I s) :
    I (dueLoop last nframes body q s) := by
  induction q generalizing s with
  | nil => exact hs
  | cons tev q ih =>
    unfold dueLoop
    split
    · exact hs
    · refine ih (fun ev hev => hbody ev (List.mem_cons_of_mem _ hev)) _ ?_
      exact hbody tev List.mem_cons_self s hs

end Visits

theorem restEvents_restEvents (last nframes : NFrames) (q : List Event) :
    restEvents last nframes (restEvents last nframes q) = restEvents last nframes q := by
  unfold restEvents
  rw [List.filter_filter]
  simp only [Bool.and_self]

/-! ### Unlinking -/

/-- `eina_inlist_remove` of the node of `tev`. -/
def unlink (tev : Event) (q : List Event) : List Event :=
  q.eraseP fun e => e.seq == tev.seq

@[simp] theorem unlink_cons_self (tev : Event) (q : List Event) : unlink tev (tev :: q) = q := by
  simp [unlink]

/-- A body that touches a queue only by unlinking the event it runs on leaves the
events after the last one it was given. -/
theorem foldl_unlink {α : Type} {body : Event → α → α} {g : α → List Event}
    (hbody : ∀ tev s, g (body tev s) = unlink tev (g s))
    (l rest : List Event) (s : α) (hs : g s = l ++ rest) :
    g (l.foldl (fun s tev => body tev s) s) = rest := by
  induction l generalizing s with
  | nil => exact hs
  | cons tev l ih =>
    refine ih _ ?_
    rw [hbody, hs, List.cons_append, unlink_cons_self]

/-! ### The clamp inside a period -/

/-- `last + nframes` fits into the 32-bit frame counter. -/
def NoWrap (last nframes : NFrames) : Prop :=
  last.toNat + nframes.toNat < 2 ^ 32

instance (last nframes : NFrames) : Decidable (NoWrap last nframes) :=
  inferInstanceAs (Decidable (_ < _))

section Period

variable {last nframes : NFrames}

theorem NoWrap.toNat_add (hw : NoWrap last nframes) :
    (last + nframes).toNat = last.toNat + nframes.toNat := by
  unfold NoWrap at hw
  rw [UInt32.toNat_add]
  omega

theorem NoWrap.due_iff (hw : NoWrap last nframes) {tev : Event} :
    due last nframes tev = true ↔ tev.time.toNat < last.toNat + nframes.toNat := by
  rw [due_eq_decide_toNat, hw.toNat_add, decide_eq_true_iff]

theorem NoWrap.dueEvents_eq (hw : NoWrap last nframes) (q : List Event) :
    dueEvents last nframes q =
      q.filter fun tev => tev.time.toNat < last.toNat + nframes.toNat := by
  refine List.filter_congr fun tev _ => ?_
  rw [due_eq_decide_toNat, hw.toNat_add]

theorem NoWrap.restEvents_eq (hw : NoWrap last nframes) (q : List Event) :
    restEvents last nframes q =
      q.filter fun tev => last.toNat + nframes.toNat ≤ tev.time.toNat := by
  refine List.filter_congr fun tev _ => ?_
  rw [due_eq_decide_toNat, hw.toNat_add, ← decide_not]
  exact decide_eq_decide.mpr Nat.not_lt

/-- The clamp of the modules that send late events to the start of the period:
`max time last`, and `0` becomes `last`. -/
theorem clamp_toNat (last time : NFrames) :
    (clamp last last time).toNat = max time.toNat last.toNat := by
  unfold clamp
  split
  · next h => simp [h]
  · split
    · next h => rw [UInt32.lt_iff_toNat_lt] at h; omega
    · next h => rw [UInt32.lt_iff_toNat_lt] at h; omega

theorem le_clamp (last time : NFrames) : last.toNat ≤ (clamp last last time).toNat := by
  rw [clamp_toNat]
  exact le_max_right _ _

/-- A due event is clamped into the period, unless the period is empty. -/
theorem clamp_mem_period (hw : NoWrap last nframes) (hn : 0 < nframes) {tev : Event}
    (hdue : due last nframes tev = true) :
    last.toNat ≤ (clamp last last tev.time).toNat ∧
      (clamp last last tev.time).toNat < last.toNat + nframes.toNat := by
  have hn' : 0 < nframes.toNat := by simpa using UInt32.lt_iff_toNat_lt.mp hn
  rw [hw.due_iff] at hdue
  rw [clamp_toNat]
  omega

theorem clamp_mono {t t' : NFrames} (last : NFrames) (h : t.toNat ≤ t'.toNat) :
    (clamp last last t).toNat ≤ (clamp last last t').toNat := by
  rw [clamp_toNat, clamp_toNat]
  omega

/-- The clamped times of the events of an ordered queue do not decrease. -/
theorem Ordered.clamp_pairwise {q : List Event} (hq : Ordered q) (last : NFrames) :
    q.Pairwise fun a b => (clamp last last a.time).toNat ≤ (clamp last last b.time).toNat :=
  hq.imp fun hab => clamp_mono last hab.key_le

/-- An event that is not before the period is not reported. -/
theorem isLate_of_le {time : NFrames} (h : last.toNat ≤ time.toNat) : isLate last time = false := by
  unfold isLate
  rw [← UInt32.le_iff_toNat_le] at h
  simp [h]

/-- The loop takes an event that is not before the period with its own time. -/
theorem Drained.of_eq {tev : Event} (h : last.toNat ≤ tev.time.toNat) (late : NFrames) :
    Drained.of last late tev = ⟨tev, tev.time, false⟩ := by
  have hclamp : clamp last late tev.time = tev.time := by
    unfold clamp
    by_cases hzero : tev.time = 0
    · rw [if_pos hzero, hzero]
      rw [hzero] at h
      exact UInt32.toNat_inj.mp (Nat.le_zero.mp h)
    · have hnlt : ¬ tev.time < last := by
        rw [UInt32.lt_iff_toNat_lt]
        omega
      rw [if_neg hzero, if_neg hnlt]
  rw [Drained.of, hclamp, isLate_of_le h]

end Period

end Tjost
