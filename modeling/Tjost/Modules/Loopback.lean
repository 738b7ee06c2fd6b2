import Tjost.Host.SameCycle

/-!
# The delay of a loopback

A `loopback` is an output that schedules its events on the host queue again, for the
period that follows. Its `process_out` is the only one that does not send a late event
at the start of the period: it moves the event to the end of the period first, and then
one period on, like any other.

`Loopback.delays_iff`: every due event gets into the next period, behind the events that
were in front of it, if and only if none of them is late and no time wraps. A late event
gets to the end of the next period, behind the events that it was in front of
(`Loopback.late_overtaken`).

The events that the call adds to the host queue are those from the number on that the
host counts at its start (`Host.added`). What they are follows for any calls
(`receive_added`), and their order for calls in the order of their times
(`receive_added_eq`).
-/

open StableQueue

namespace Tjost

variable {ρ σ : Type} (P : Platform ρ σ)

/-! ### What calls add to the host queue -/

/-- The events of the host queue from a number on. -/
def Host.added (h : Host ρ σ) (n : ℕ) : List Event := h.queue.filter fun e => n ≤ e.seq

/-- The events that calls make, numbered from `n` on. -/
def numbered : ℕ → List SchedCall → List Event
  | _, [] => []
  | n, c :: calls => ⟨n, c.module, c.time, c.buf⟩ :: numbered (n + 1) calls

section Added

variable {P} {h : Host ρ σ} {n : ℕ} {calls : List SchedCall}

/-- No event of the queue has a number that the host has not given yet. -/
theorem QueueUpTo.added_eq_nil (hq : QueueUpTo h.seq h.queue) : h.added h.seq = [] := by
  apply List.filter_eq_nil_iff.mpr
  intro e he hle
  exact absurd (of_decide_eq_true hle) (Nat.not_le.mpr (hq.seq_lt e he))

theorem SchedCall.run_seq (c : SchedCall) (h : Host ρ σ) : (c.run P h).seq = h.seq + 1 := by
  unfold SchedCall.run
  split
  · rfl
  · rfl

theorem SchedCall.run_queue (c : SchedCall) (h : Host ρ σ) :
    (c.run P h).queue =
      P.eina.sortedInsert h.queue ⟨h.seq, c.module, c.time, c.buf⟩ scheduleSort := by
  unfold SchedCall.run
  split
  · rfl
  · rfl

theorem SchedCall.run_upTo (c : SchedCall) (hq : QueueUpTo h.seq h.queue) :
    QueueUpTo (c.run P h).seq (c.run P h).queue := by
  rw [c.run_seq, c.run_queue]
  exact hq.sortedInsert P.eina rfl

/-- A call inserts its event among the added ones. -/
theorem SchedCall.run_added (c : SchedCall) (hq : QueueUpTo h.seq h.queue) (hn : n ≤ h.seq) :
    (c.run P h).added n =
      insertStable (fun e : Event => e.time.toNat) ⟨h.seq, c.module, c.time, c.buf⟩ (h.added n) := by
  unfold Host.added
  rw [c.run_queue, sortedInsert_eq P.eina hq.ordered, filter_insertStable hq.ordered]
  exact if_pos (decide_eq_true hn)

/-- The events that were there before stay, in order. -/
theorem SchedCall.run_others (c : SchedCall) (hq : QueueUpTo h.seq h.queue) (hn : n ≤ h.seq) :
    (c.run P h).queue.filter (fun e => e.seq < n) = h.queue.filter fun e => e.seq < n := by
  rw [c.run_queue, sortedInsert_eq P.eina hq.ordered, filter_insertStable hq.ordered]
  exact if_neg (by rw [decide_eq_true_iff]; exact Nat.not_lt.mpr hn)

theorem receive_others (calls : List SchedCall) (hq : QueueUpTo h.seq h.queue) (hn : n ≤ h.seq) :
    (receive P calls h).queue.filter (fun e => e.seq < n) =
      h.queue.filter fun e => e.seq < n := by
  induction calls generalizing h with
  | nil => rfl
  | cons c calls ih =>
    have hseq : n ≤ (c.run P h).seq := by
      rw [c.run_seq]
      exact Nat.le_succ_of_le hn
    calc (receive P (c :: calls) h).queue.filter (fun e => e.seq < n)
        = (c.run P h).queue.filter (fun e => e.seq < n) := ih (c.run_upTo hq) hseq
      _ = h.queue.filter (fun e => e.seq < n) := c.run_others hq hn

/-- **What calls add** are their events, once each. -/
theorem receive_added (calls : List SchedCall) (hq : QueueUpTo h.seq h.queue) (hn : n ≤ h.seq) :
    ((receive P calls h).added n).Perm (h.added n ++ numbered h.seq calls) := by
  induction calls generalizing h with
  | nil =>
    show (h.added n).Perm (h.added n ++ [])
    rw [List.append_nil]
  | cons c calls ih =>
    have hseq : n ≤ (c.run P h).seq := by
      rw [c.run_seq]
      exact Nat.le_succ_of_le hn
    -- the first event is inserted somewhere among those that are there
    have hrest := ih (c.run_upTo hq) hseq
    rw [c.run_seq, c.run_added hq hn] at hrest
    have hfirst : (insertStable (fun e : Event => e.time.toNat)
        ⟨h.seq, c.module, c.time, c.buf⟩ (h.added n)).Perm
          (⟨h.seq, c.module, c.time, c.buf⟩ :: h.added n) := insertStable_perm _ _
    calc
      List.Perm ((receive P (c :: calls) h).added n)
        (insertStable (fun e : Event => e.time.toNat) ⟨h.seq, c.module, c.time, c.buf⟩ (h.added n) ++
          numbered (h.seq + 1) calls) := hrest
      List.Perm _ (⟨h.seq, c.module, c.time, c.buf⟩ :: h.added n ++ numbered (h.seq + 1) calls) :=
        hfirst.append_right _
      List.Perm _ (h.added n ++ numbered h.seq (c :: calls)) := List.perm_middle.symm

/-- **Their order**, if the calls come in the order of their times. -/
theorem receive_added_eq (hq : QueueUpTo h.seq h.queue) (hn : n ≤ h.seq)
    (hsorted : calls.Pairwise fun c d => c.time.toNat ≤ d.time.toNat)
    (hafter : ∀ e ∈ h.added n, ∀ c ∈ calls, e.time.toNat ≤ c.time.toNat) :
    (receive P calls h).added n = h.added n ++ numbered h.seq calls := by
  induction calls generalizing h with
  | nil => exact (List.append_nil _).symm
  | cons c calls ih =>
    obtain ⟨hfirst, hsorted⟩ := List.pairwise_cons.mp hsorted
    have hseq : n ≤ (c.run P h).seq := by
      rw [c.run_seq]
      exact Nat.le_succ_of_le hn
    -- nothing that was added is behind the event of the call
    have hadded : (c.run P h).added n = h.added n ++ [⟨h.seq, c.module, c.time, c.buf⟩] := by
      rw [c.run_added hq hn]
      exact insertStable_of_le fun e he => hafter e he c List.mem_cons_self
    have hafter' : ∀ e ∈ (c.run P h).added n, ∀ d ∈ calls, e.time.toNat ≤ d.time.toNat := by
      intro e he d hd
      rw [hadded] at he
      rcases List.mem_append.mp he with he | he
      · exact hafter e he d (List.mem_cons_of_mem _ hd)
      · rw [List.mem_singleton.mp he]
        exact hfirst d hd
    refine (ih (c.run_upTo hq) hseq hsorted hafter').trans ?_
    rw [hadded, c.run_seq, List.append_assoc]
    rfl

theorem numbered_calls (n : ℕ) (calls : List SchedCall) :
    List.Forall₂ (fun (c : SchedCall) (r : Event) =>
      r.module = c.module ∧ r.time = c.time ∧ r.buf = c.buf) calls (numbered n calls) := by
  induction calls generalizing n with
  | nil => exact List.Forall₂.nil
  | cons c calls ih => exact List.Forall₂.cons ⟨rfl, rfl, rfl⟩ (ih (n + 1))

theorem exists_numbered (n : ℕ) {c : SchedCall} (hc : c ∈ calls) :
    ∃ r ∈ numbered n calls, r.time = c.time := by
  induction calls generalizing n with
  | nil => exact absurd hc List.not_mem_nil
  | cons d calls ih =>
    rcases List.mem_cons.mp hc with rfl | hc
    · exact ⟨_, List.mem_cons_self, rfl⟩
    · obtain ⟨r, hr, htime⟩ := ih (n + 1) hc
      exact ⟨r, List.mem_cons_of_mem _ hr, htime⟩

end Added

namespace Loopback

/-! ### The calls of a loopback -/

variable (last nframes : NFrames) (m : ModulePtr)

/-- The time that a due event is scheduled for. -/
def delayed (time : NFrames) : NFrames := clamp last (last + nframes) time + nframes

/-- `tjost_host_schedule` for a due event. -/
def call (tev : Event) : SchedCall := ⟨false, m, delayed last nframes tev.time, tev.buf⟩

theorem emitAll_eq (l : List Event) (h : Host ρ σ) :
    ((loop P last nframes m).emitAll last l h).1 = receive P (l.map (call last nframes m)) h := by
  induction l generalizing h with
  | nil => rfl
  | cons tev l ih => exact ih _

/-- The event is on time, and stays below the wrap when it is moved by a period. -/
def OnTime (tev : Event) : Prop :=
  0 < nframes ∧ isLate last tev.time = false ∧
    (clamp last last tev.time).toNat + nframes.toNat < 2 ^ 32

instance (tev : Event) : Decidable (OnTime last nframes tev) :=
  inferInstanceAs (Decidable (_ ∧ _ ∧ _))

/-- The time is in the period that follows. -/
def InNext (time : NFrames) : Prop :=
  last.toNat + nframes.toNat ≤ time.toNat ∧ time.toNat < last.toNat + 2 * nframes.toNat

/-- **What a `loopback` is for**: between the hosts `h` and `h'` the events that are not
due stay, and every due event moves to the host queue, once, with its bytes, into the
period that follows, and behind the due events that it was behind of. The events of the
host queue stay. -/
structure Delays (h h' : Host ρ σ) : Prop where
  rest : (h'.module m).queue = restEvents last nframes (h.module m).queue
  moved : List.Forall₂ (fun e r => r.module = m ∧ r.buf = e.buf ∧ InNext last nframes r.time)
    (dueEvents last nframes (h.module m).queue) (h'.added h.seq)
  others : h'.queue.filter (fun e => e.seq < h.seq) = h.queue

variable {last nframes m} in
/-- Every event that was added is in the next period. -/
theorem Delays.inNext {h h' : Host ρ σ} (hd : Delays last nframes m h h') :
    ∀ r ∈ h'.added h.seq, InNext last nframes r.time := by
  have hflip : List.Forall₂ (fun (r : Event) (_ : Event) => InNext last nframes r.time ∧ True)
      (h'.added h.seq) (dueEvents last nframes (h.module m).queue) :=
    List.Forall₂.flip (hd.moved.imp fun _ _ hr => ⟨hr.2.2, trivial⟩)
  exact ((List.forall₂_and_left _ _).mp hflip).1

section Times

variable {last nframes} {tev : Event}

/-- **Which due events get into the next period.** -/
theorem inNext_iff (hw : NoWrap last nframes) (hdue : due last nframes tev = true) :
    InNext last nframes (delayed last nframes tev.time) ↔ OnTime last nframes tev := by
  have htime := hw.due_iff.mp hdue
  have hend := hw.toNat_add
  have hlt := tev.time.toNat_lt
  unfold NoWrap at hw
  unfold InNext OnTime delayed isLate
  rw [UInt32.toNat_add, UInt32.lt_iff_toNat_lt, clamp_toNat]
  unfold clamp
  by_cases hzero : tev.time = 0
  · -- an immediate event gets the start of the period
    rw [if_pos hzero, hzero]
    simp
    omega
  · rw [if_neg hzero]
    by_cases hlate : tev.time < last
    · -- a late event gets its end, and with it the end of the next period
      rw [if_pos hlate, hend]
      simp [hzero, hlate]
      omega
    · rw [if_neg hlate]
      rw [UInt32.lt_iff_toNat_lt] at hlate
      simp [UInt32.lt_iff_toNat_lt, hlate]
      omega

theorem OnTime.delayed_toNat (h : OnTime last nframes tev) :
    (delayed last nframes tev.time).toNat =
      (clamp last last tev.time).toNat + nframes.toNat := by
  obtain ⟨-, hlate, hfit⟩ := h
  -- the end of the period is for late events only
  have hclamp : clamp last (last + nframes) tev.time = clamp last last tev.time := by
    unfold clamp
    split
    · rfl
    · next hzero =>
      have hnlt : ¬ tev.time < last := by
        intro hlt
        unfold isLate at hlate
        simp [hzero, hlt] at hlate
      rw [if_neg hnlt, if_neg hnlt]
  unfold delayed
  rw [hclamp, UInt32.toNat_add, Nat.mod_eq_of_lt hfit]

end Times

section Delay

variable {last nframes m} {h : Host ρ σ}

variable (last nframes) in
/-- The `process_out` of a loopback is the calls for its due events. -/
theorem processOut_host (hdat : (h.module m).dat = .loopback) (hq : Ordered (h.module m).queue) :
    let h' := Tjost.processOut P last nframes m h
    let calls := (dueEvents last nframes (h.module m).queue).map (call last nframes m)
    h'.queue = (receive P calls h).queue ∧
      (h'.module m).queue = restEvents last nframes (h.module m).queue := by
  have hdrains := (processOut_drains P last nframes hq (by rw [hdat]; rfl)).1
  refine ⟨?_, hdrains⟩
  have hrun : (Loopback.processOut P last nframes m (h.outState (h.module m) h)).dat =
      receive P ((dueEvents last nframes (h.module m).queue).map (call last nframes m)) h := by
    rw [← emitAll_eq]
    exact ((loop P last nframes m).run_out last nframes (s := h.outState (h.module m) h) hq).1
  unfold Tjost.processOut
  simp only [hdat]
  show (Loopback.processOut P last nframes m (h.outState (h.module m) h)).dat.queue = _
  rw [hrun]

/-- The events of a loopback are scheduled in the order of their times, if all of them are
on time. -/
theorem calls_pairwise {l : List Event} (hl : Ordered l)
    (hontime : ∀ e ∈ l, OnTime last nframes e) :
    (l.map (call last nframes m)).Pairwise fun c d => c.time.toNat ≤ d.time.toNat := by
  rw [List.pairwise_map]
  refine (hl.clamp_pairwise last).imp_of_mem ?_
  intro a b ha hb hab
  show (delayed last nframes a.time).toNat ≤ (delayed last nframes b.time).toNat
  rw [(hontime a ha).delayed_toNat, (hontime b hb).delayed_toNat]
  exact Nat.add_le_add_right hab _

/-- **When a loopback delays its events by one period.** -/
theorem delays_iff (hw : NoWrap last nframes) (hdat : (h.module m).dat = .loopback)
    (hi : QueueInv h) :
    Delays last nframes m h (Tjost.processOut P last nframes m h) ↔
      ∀ e ∈ dueEvents last nframes (h.module m).queue, OnTime last nframes e := by
  have hq := (hi.module m).ordered
  obtain ⟨hqueue, hrest⟩ := processOut_host P last nframes hdat hq
  set l := dueEvents last nframes (h.module m).queue with hl
  set calls := l.map (call last nframes m) with hcalls
  have hadded : (Tjost.processOut P last nframes m h).added h.seq =
      (receive P calls h).added h.seq := congrArg (List.filter _) hqueue
  have hnil := hi.host.added_eq_nil
  have hdue : ∀ e ∈ l, due last nframes e = true := fun e he => (List.mem_filter.mp he).2
  constructor
  · -- the event of every call is among the added ones
    intro hd e he
    have hperm := receive_added (P := P) calls hi.host (le_refl _)
    rw [hnil, List.nil_append] at hperm
    obtain ⟨r, hr, htime⟩ := exists_numbered h.seq (List.mem_map_of_mem (f := call last nframes m) he)
    have hnext := hd.inNext r (by rw [hadded]; exact hperm.symm.subset hr)
    rw [htime] at hnext
    exact (inNext_iff hw (hdue e he)).mp hnext
  · intro hontime
    refine ⟨hrest, ?_, ?_⟩
    · -- the calls come in the order of their times, so the events stay in it
      have hsorted : calls.Pairwise fun c d => c.time.toNat ≤ d.time.toNat :=
        calls_pairwise (hq.filter _) hontime
      have hadded' : (receive P calls h).added h.seq = numbered h.seq calls := by
        rw [receive_added_eq hi.host (le_refl _) hsorted (by rw [hnil]; simp), hnil]
        rfl
      rw [hadded, hadded']
      have hnumbered := List.forall₂_map_left_iff.mp (numbered_calls h.seq calls)
      have hnext : ∀ e ∈ l, InNext last nframes (delayed last nframes e.time) := fun e he =>
        (inNext_iff hw (hdue e he)).mpr (hontime e he)
      refine ((List.forall₂_and_left _ _).mpr ⟨hnext, hnumbered⟩).imp ?_
      rintro e r ⟨he, hmodule, htime, hbuf⟩
      exact ⟨hmodule, hbuf, htime ▸ he⟩
    · have hothers := receive_others (P := P) calls hi.host (le_refl h.seq)
      rw [hqueue, hothers]
      exact List.filter_eq_self.mpr fun e he => decide_eq_true (hi.host.seq_lt e he)

end Delay

/-! ### A small host -/

/-- A loopback with an event at the given time and one at frame 12. -/
def echo (time : NFrames) : Host (ByteRing.Fifo ringbufSize) Unit :=
  moduleSchedule (Platform.plain 64 (LuaScript.pass 2)) 2 12 [2]
    (moduleSchedule (Platform.plain 64 (LuaScript.pass 2)) 2 time [1] (Host.pair .loopback))

theorem echo_queueInv (time : NFrames) : QueueInv (echo time) :=
  ((Host.pair_queueInv .loopback).moduleSchedule 2 time [1]).moduleSchedule 2 12 [2]

/-- An immediate event and one in the period. -/
theorem delays_iff_echo :
    Delays 8 8 2 (echo 0) (Tjost.processOut (Platform.plain 64 (LuaScript.pass 2)) 8 8 2 (echo 0)) :=
  (delays_iff _ (by decide) rfl (echo_queueInv 0)).mpr (by decide +kernel)

/-- **A late event is overtaken.** It was due at frame 5, before the event at frame 12. It
comes behind it, at frame 24, which is not in the next period. -/
theorem late_overtaken :
    let h' := Tjost.processOut (Platform.plain 64 (LuaScript.pass 2)) 8 8 2 (echo 5)
    h'.queue.map (fun e => (e.time, e.buf)) = [(20, [2]), (24, [1])] ∧
      ¬ Delays 8 8 2 (echo 5) h' := by
  intro h'
  have hqueue : h'.queue.map (fun e => (e.time, e.buf)) = [(20, [2]), (24, [1])] := by
    decide +kernel
  have hlast : ∃ e ∈ h'.added (echo 5).seq, e.time = 24 := by
    decide +kernel
  refine ⟨hqueue, ?_⟩
  intro hd
  obtain ⟨e, he, htime⟩ := hlast
  have hnext := (hd.inNext e he).2
  rw [htime] at hnext
  exact absurd hnext (by decide)

end Loopback

end Tjost
