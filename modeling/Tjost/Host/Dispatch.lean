import Mathlib.Data.List.Nodup
import Tjost.Host.Queues

/-!
# Every scheduled event is dispatched once

A run of the host is any sequence of scheduling calls and process cycles
(`HostStep`, `HostRun.run`), over a module graph, a script and a platform that
are arbitrary. `run_dispatch` says what becomes of the scheduled events:

* the host queue is ordered by time and order of scheduling whenever a call or a
  cycle starts or ends;
* a cycle leaves exactly the events that are not before `last + nframes`, in
  order and unchanged, and hands each of the others to everyone it is for, in
  queue order and with the time `max time last`;
* what is handed to a child is then in its queue, as an event with that time and
  these bytes, if the queues of the modules were in order at first, as empty ones
  are;
* a scheduled event is found due by one cycle of the run, or by none while it is
  still queued;
* over the whole run the times of the hand-overs do not decrease.

`HostInv` is the invariant of the host behind the first and the third statement:
what has been dispatched and what is queued are together a rearrangement of what
has been scheduled, whose numbers increase. `RunInv` adds what the cycles so far
have done.
-/

namespace Tjost

variable {ρ σ : Type} (P : Platform ρ σ)

/-! ### The invariant of the host -/

/-- The host queue is ordered, and dispatched and queued events are together the
scheduled ones. -/
structure HostInv (h : Host ρ σ) : Prop where
  ordered : Ordered h.queue
  perm : (h.dispatched.map Drained.ev ++ h.queue).Perm h.scheduled
  numbered : h.scheduled.Pairwise fun a b => a.seq < b.seq
  fresh : ∀ e ∈ h.scheduled, e.seq < h.seq

namespace HostInv

variable {h h' : Host ρ σ}

theorem fresh_queue (hi : HostInv h) : ∀ e ∈ h.queue, e.seq < h.seq := by
  intro e he
  exact hi.fresh e (hi.perm.subset (List.mem_append_right _ he))

theorem nodup (hi : HostInv h) : h.scheduled.Nodup :=
  hi.numbered.imp fun hab => by rintro rfl; exact lt_irrefl _ hab

/-- The invariant reads four fields, and `seq` may grow. -/
theorem of_eq (hi : HostInv h) (hseq : h.seq ≤ h'.seq) (hqueue : h'.queue = h.queue)
    (hsched : h'.scheduled = h.scheduled) (hdisp : h'.dispatched = h.dispatched) :
    HostInv h' where
  ordered := hqueue ▸ hi.ordered
  perm := by rw [hdisp, hqueue, hsched]; exact hi.perm
  numbered := hsched ▸ hi.numbered
  fresh e he := lt_of_lt_of_le (hi.fresh e (hsched ▸ he)) hseq

/-- Scheduling a new event on the host queue. -/
theorem schedule (hi : HostInv h) (module : ModulePtr) (time : NFrames) (buf : List UInt8) :
    HostInv (hostSchedule P module time buf h) where
  ordered := sortedInsert_ordered P.eina hi.ordered hi.fresh_queue
  perm := by
    refine ((sortedInsert_perm P.eina hi.ordered _).append_left _).trans ?_
    refine List.perm_middle.trans ?_
    exact (hi.perm.cons _).trans (List.perm_append_singleton _ _).symm
  numbered := by
    refine List.pairwise_append.mpr ⟨hi.numbered, List.pairwise_singleton _ _, ?_⟩
    intro a ha b hb
    rw [List.mem_singleton.mp hb]
    exact hi.fresh a ha
  fresh e he := by
    rcases List.mem_append.mp he with he | he
    · exact Nat.lt_succ_of_lt (hi.fresh e he)
    · rw [List.mem_singleton.mp he]
      exact Nat.lt_succ_self _

/-- The two scheduling functions insert the same event. -/
theorem schedCall (hi : HostInv h) (c : SchedCall) : HostInv (c.run P h) := by
  unfold SchedCall.run
  split
  · exact hi.schedule P c.module c.time c.buf
  · exact hi.schedule P c.module c.time c.buf

theorem receive (hi : HostInv h) (arrivals : List SchedCall) :
    HostInv (Tjost.receive P arrivals h) := by
  induction arrivals generalizing h with
  | nil => exact hi
  | cons c l ih => exact ih (hi.schedCall P c)

theorem receiveIn (hi : HostInv h) (arrivals : List SchedCall) :
    HostInv (Tjost.receiveIn P arrivals h) :=
  (hi.receive P arrivals).of_eq (le_refl _) rfl rfl rfl

/-- The main loop moves the due events from the queue to the dispatched ones. -/
theorem mainLoop (hi : HostInv h) (last nframes : NFrames) :
    HostInv (Tjost.mainLoop P last nframes h) where
  ordered := by
    rw [mainLoop_queue P hi.ordered]
    exact hi.ordered.filter _
  perm := by
    rw [mainLoop_queue P hi.ordered, mainLoop_dispatched P hi.ordered,
      mainLoop_scheduled P hi.ordered, List.map_append, List.append_assoc, List.map_map]
    have hid : (Drained.ev ∘ Drained.of last last) = id := rfl
    rw [hid, List.map_id, hi.ordered.due_append_rest]
    exact hi.perm
  numbered := by
    rw [mainLoop_scheduled P hi.ordered]
    exact hi.numbered
  fresh e he := by
    rw [mainLoop_scheduled P hi.ordered] at he
    exact lt_of_lt_of_le (hi.fresh e he) (mainLoop_seq_le P hi.ordered)

/-- Of the output modules only `loopback` schedules on the host queue. -/
theorem processOut (hi : HostInv h) (last nframes : NFrames) (m : ModulePtr) :
    HostInv (Tjost.processOut P last nframes m h) :=
  processOut_invariant P last nframes
    (fun _ _ _ _ hi => hi.of_eq (le_refl _) rfl rfl rfl)
    (fun _ _ _ hi => hi.of_eq (le_refl _) rfl rfl rfl)
    (fun _ m time buf hi => hi.schedule P m time buf) hi m

theorem sendAll (hi : HostInv h) (last nframes : NFrames) (test : Module ρ → Bool)
    (l : List ModulePtr) : HostInv (Tjost.sendAll P last nframes test l h) := by
  induction l generalizing h with
  | nil => exact hi
  | cons m l ih =>
    unfold Tjost.sendAll
    split
    · exact ih (hi.processOut P last nframes m)
    · exact ih hi

theorem sendOut (hi : HostInv h) (last nframes : NFrames) :
    HostInv (Tjost.sendOut P last nframes h) := by
  have hout := hi.sendAll P last nframes (fun x => isOutput x.type) h.modules
  have hup := hout.sendAll P last nframes (fun _ => true)
    (Tjost.sendAll P last nframes (fun x => isOutput x.type) h.modules h).uplinks
  unfold Tjost.sendOut
  simp only
  split
  · exact hup.of_eq (le_refl _) rfl rfl rfl
  · exact hup

theorem process (hi : HostInv h) (last nframes : NFrames) (arrivals : List SchedCall) :
    HostInv (Tjost.process P last nframes arrivals h) :=
  ((hi.receiveIn P arrivals).mainLoop P last nframes).sendOut P last nframes

end HostInv

/-! ### The graph over a cycle -/

theorem SchedCall.run_graph (c : SchedCall) (h : Host ρ σ) : SameGraph h (c.run P h) := by
  unfold SchedCall.run
  split <;> exact ⟨rfl, rfl, fun _ => rfl, fun _ => rfl, fun _ => rfl⟩

theorem receive_graph (arrivals : List SchedCall) (h : Host ρ σ) :
    SameGraph h (receive P arrivals h) := by
  induction arrivals generalizing h with
  | nil => exact SameGraph.refl h
  | cons c l ih => exact (c.run_graph P h).trans (ih _)

theorem processOut_graph (last nframes : NFrames) (m : ModulePtr) (h : Host ρ σ) :
    SameGraph h (processOut P last nframes m h) := by
  refine processOut_invariant P last nframes (I := SameGraph h) ?_ ?_ ?_ (SameGraph.refl h) m
  · intro δ h' m s dat g
    have g' := SameGraph.setModule h' m (x := { h'.module m with queue := s.queue, dat := dat })
      rfl rfl rfl
    exact g.trans ⟨g'.modules, g'.uplinks, g'.type, g'.children, g'.hasLuaCallback⟩
  · intro h' pipe count g
    exact ⟨g.modules, g.uplinks, g.type, g.children, g.hasLuaCallback⟩
  · intro h' m time buf g
    exact ⟨g.modules, g.uplinks, g.type, g.children, g.hasLuaCallback⟩

theorem sendAll_graph (last nframes : NFrames) (test : Module ρ → Bool) (l : List ModulePtr)
    (h : Host ρ σ) : SameGraph h (sendAll P last nframes test l h) := by
  induction l generalizing h with
  | nil => exact SameGraph.refl h
  | cons m l ih =>
    unfold sendAll
    split
    · exact (processOut_graph P last nframes m h).trans (ih _)
    · exact ih h

theorem sendOut_graph (last nframes : NFrames) (h : Host ρ σ) :
    SameGraph h (sendOut P last nframes h) := by
  have hout := sendAll_graph P last nframes (fun x => isOutput x.type) h.modules h
  have hup := hout.trans (sendAll_graph P last nframes (fun _ => true)
    (sendAll P last nframes (fun x => isOutput x.type) h.modules h).uplinks _)
  unfold sendOut
  simp only
  split
  · exact ⟨hup.modules, hup.uplinks, hup.type, hup.children, hup.hasLuaCallback⟩
  · exact hup

/-! ### Runs -/

/-- A scheduling call, or a process cycle with what is scheduled in it before the
main loop. -/
inductive HostStep
  | schedule (call : SchedCall)
  | process (last nframes : NFrames) (arrivals : List SchedCall)

/-- What the main loop of one cycle found in the host queue, what it left there,
its hand-overs, and the queues of the modules behind it. -/
structure Cycle where
  last : NFrames
  nframes : NFrames
  found : List Event
  left : List Event
  delivered : List Delivery
  queues : ModulePtr → List Event

/-- A host and its cycles so far. -/
structure HostRun (ρ σ : Type) where
  host : Host ρ σ
  cycles : List Cycle

/-- The main loop of a cycle, observed. -/
def Cycle.observe (last nframes : NFrames) (h : Host ρ σ) : Cycle where
  last := last
  nframes := nframes
  found := h.queue
  left := (mainLoop P last nframes h).queue
  delivered := (mainLoop P last nframes h).delivered.drop h.delivered.length
  queues m := ((mainLoop P last nframes h).module m).queue

def HostRun.step (r : HostRun ρ σ) : HostStep → HostRun ρ σ
  | .schedule call => { r with host := call.run P r.host }
  | .process last nframes arrivals =>
    { host := process P last nframes arrivals r.host
      cycles := r.cycles ++ [Cycle.observe P last nframes (receiveIn P arrivals r.host)] }

def HostRun.run : List HostStep → HostRun ρ σ → HostRun ρ σ
  | [], r => r
  | step :: steps, r => HostRun.run steps (r.step P step)

/-- The periods of a run do not overlap and none of them wraps. The first starts
at `start` or later. -/
def PeriodsFrom (start : ℕ) : List HostStep → Prop
  | [] => True
  | .schedule _ :: steps => PeriodsFrom start steps
  | .process last nframes _ :: steps =>
    start ≤ last.toNat ∧ NoWrap last nframes ∧
      PeriodsFrom (last.toNat + nframes.toNat) steps

/-- The events a cycle has to dispatch. -/
def Cycle.dueFound (c : Cycle) : List Event :=
  c.found.filter fun e => e.time.toNat < c.last.toNat + c.nframes.toNat

/-- A cycle dispatches its due events, in order, and leaves the others. -/
structure Cycle.Correct (h₀ : Host ρ σ) (c : Cycle) : Prop where
  ordered : Ordered c.found
  left : c.left = c.found.filter fun e => c.last.toNat + c.nframes.toNat ≤ e.time.toNat
  delivered : c.delivered = c.dueFound.flatMap (deliveries h₀ c.last)
  /-- Each hand-over to a child is an event of its own in the queue of the child. -/
  queued : QueueInv h₀ → ∀ child,
    (handedTo child c.delivered).Subperm ((c.queues child).map Event.content)

/-- The hand-overs of a correct cycle carry times from `last` to `last + nframes`
that do not decrease. -/
theorem Cycle.Correct.times {h₀ : Host ρ σ} {c : Cycle} (hc : c.Correct h₀) :
    (∀ d ∈ c.delivered, c.last.toNat ≤ d.time.toNat ∧
        d.time.toNat ≤ c.last.toNat + c.nframes.toNat) ∧
      c.delivered.Pairwise fun d d' => d.time.toNat ≤ d'.time.toNat := by
  -- every delivery of an event has its clamped time
  have htime : ∀ (e : Event), ∀ d ∈ deliveries h₀ c.last e,
      d.time.toNat = max e.time.toNat c.last.toNat := by
    intro e d hd
    have hof : ∀ m, ∀ d ∈ deliveriesOf h₀ m e.seq (max e.time c.last) e.buf,
        d.time = max e.time c.last := by
      intro m d hd
      unfold deliveriesOf at hd
      rcases List.mem_append.mp hd with hd | hd
      · obtain ⟨x, -, rfl⟩ := List.mem_map.mp hd
        rfl
      · split at hd
        · rw [List.mem_singleton.mp hd]
        · exact absurd hd List.not_mem_nil
    have hd' : d.time = max e.time c.last := by
      unfold deliveries at hd
      split at hd
      · obtain ⟨u, -, hu⟩ := List.mem_flatMap.mp hd
        exact hof u d hu
      · exact hof _ d hd
    rw [hd', ← clamp_eq_max, clamp_toNat]
  rw [hc.delivered]
  constructor
  -- the event was due, so its clamped time is in the period
  · intro d hd
    obtain ⟨e, he, hde⟩ := List.mem_flatMap.mp hd
    have hlt := (List.mem_filter.mp he).2
    simp only [decide_eq_true_eq] at hlt
    rw [htime e d hde]
    omega
  · rw [List.pairwise_flatMap]
    constructor
    · intro e _
      refine List.Pairwise.imp_of_mem ?_ (List.pairwise_of_forall (R := fun _ _ => True) (fun _ _ => trivial))
      intro d d' hd hd' _
      rw [htime e d hd, htime e d' hd']
    -- the events are sorted, and clamping keeps that
    · refine (hc.ordered.filter _).imp ?_
      intro a b hab d hd d' hd'
      have hle : a.time.toNat ≤ b.time.toNat := hab.key_le
      rw [htime a d hd, htime b d' hd']
      omega

/-- What a run has done so far. -/
structure RunInv (h₀ : Host ρ σ) (bound : ℕ) (r : HostRun ρ σ) : Prop where
  inv : HostInv r.host
  queues : QueueInv h₀ → QueueInv r.host
  graph : SameGraph h₀ r.host
  correct : ∀ c ∈ r.cycles, c.Correct h₀
  dispatched : r.host.dispatched.map Drained.ev = r.cycles.flatMap Cycle.dueFound
  times : (r.cycles.flatMap Cycle.delivered).Pairwise fun d d' => d.time.toNat ≤ d'.time.toNat
  bounded : ∀ d ∈ r.cycles.flatMap Cycle.delivered, d.time.toNat ≤ bound

/-- An observed main loop is correct. -/
theorem observe_correct {h₀ h : Host ρ σ} (hi : HostInv h) (hq : QueueInv h₀ → QueueInv h)
    (g : SameGraph h₀ h) {last nframes : NFrames} (hw : NoWrap last nframes) :
    (Cycle.observe P last nframes h).Correct h₀ where
  ordered := hi.ordered
  left := by
    change (mainLoop P last nframes h).queue = _
    rw [mainLoop_queue P hi.ordered]
    exact hw.restEvents_eq h.queue
  delivered := by
    change (mainLoop P last nframes h).delivered.drop _ = _
    rw [mainLoop_delivered P hi.ordered, List.drop_left, funext (g.deliveries_eq last),
      hw.dueEvents_eq]
    rfl
  queued := by
    intro h₀q child
    have hloop : Queued _ h (mainLoop P last nframes h) := mainLoop_queued P hi.ordered
    obtain ⟨-, hqueued⟩ := hloop (hq h₀q).module
    change (handedTo child ((mainLoop P last nframes h).delivered.drop _)).Subperm _
    rw [mainLoop_delivered P hi.ordered, List.drop_left]
    -- the events that were in the queue before are there, too
    exact (List.sublist_append_right _ _).subperm.trans (hqueued child)

theorem RunInv.schedule {h₀ : Host ρ σ} {bound : ℕ} {r : HostRun ρ σ} (ri : RunInv h₀ bound r)
    (call : SchedCall) : RunInv h₀ bound (r.step P (.schedule call)) where
  inv := ri.inv.schedCall P call
  queues hq := (ri.queues hq).run call
  graph := ri.graph.trans (call.run_graph P r.host)
  correct := ri.correct
  dispatched := by
    have hd : (call.run P r.host).dispatched = r.host.dispatched := by
      unfold SchedCall.run
      split <;> rfl
    change (call.run P r.host).dispatched.map _ = _
    rw [hd]
    exact ri.dispatched
  times := ri.times
  bounded := ri.bounded

/-- A cycle that starts after everything handed over so far. -/
theorem RunInv.process {h₀ : Host ρ σ} {bound : ℕ} {r : HostRun ρ σ} (ri : RunInv h₀ bound r)
    {last nframes : NFrames} (arrivals : List SchedCall) (hb : bound ≤ last.toNat)
    (hw : NoWrap last nframes) :
    RunInv h₀ (last.toNat + nframes.toNat) (r.step P (.process last nframes arrivals)) := by
  -- the arrivals only change the queue
  have hi₁ := ri.inv.receiveIn P arrivals
  have g₁ : SameGraph h₀ (receiveIn P arrivals r.host) :=
    have g := ri.graph.trans (receive_graph P arrivals r.host)
    ⟨g.modules, g.uplinks, g.type, g.children, g.hasLuaCallback⟩
  have hc := observe_correct P hi₁ (fun hq => (ri.queues hq).receiveIn arrivals) g₁ hw
  obtain ⟨hin, hmono⟩ := hc.times
  refine ⟨ri.inv.process P last nframes arrivals,
    fun hq => (ri.queues hq).process last nframes arrivals, ?_, ?_, ?_, ?_, ?_⟩
  · exact (g₁.trans (mainLoop_graph P hi₁.ordered)).trans (sendOut_graph P last nframes _)
  · intro c hc'
    rcases List.mem_append.mp hc' with hc' | hc'
    · exact ri.correct c hc'
    · rw [List.mem_singleton.mp hc']
      exact hc
  · change (sendOut P last nframes _).dispatched.map _ = (_ ++ [_]).flatMap _
    rw [sendOut_dispatched, mainLoop_dispatched P hi₁.ordered, List.map_append, List.map_map,
      List.flatMap_append, List.flatMap_singleton]
    have hid : (Drained.ev ∘ Drained.of last last) = id := rfl
    rw [hid, List.map_id, hw.dueEvents_eq]
    congr 1
    change (receive P arrivals r.host).dispatched.map _ = _
    rw [receive_dispatched]
    exact ri.dispatched
  · -- everything handed over before is at most `bound`, hence before this period
    change ((_ ++ [_]).flatMap _).Pairwise _
    rw [List.flatMap_append, List.flatMap_singleton]
    refine List.pairwise_append.mpr ⟨ri.times, hmono, ?_⟩
    intro d hd d' hd'
    calc d.time.toNat ≤ bound := ri.bounded d hd
      _ ≤ last.toNat := hb
      _ ≤ d'.time.toNat := (hin d' hd').1
  · change ∀ d ∈ (_ ++ [_]).flatMap _, _
    rw [List.flatMap_append, List.flatMap_singleton]
    intro d hd
    rcases List.mem_append.mp hd with hd | hd
    · calc d.time.toNat ≤ bound := ri.bounded d hd
        _ ≤ last.toNat := hb
        _ ≤ last.toNat + nframes.toNat := Nat.le_add_right _ _
    · exact (hin d hd).2

theorem RunInv.run {h₀ : Host ρ σ} {bound : ℕ} {r : HostRun ρ σ} (ri : RunInv h₀ bound r)
    {steps : List HostStep} (hp : PeriodsFrom bound steps) :
    ∃ bound', RunInv h₀ bound' (HostRun.run P steps r) := by
  induction steps generalizing bound r with
  | nil => exact ⟨bound, ri⟩
  | cons step steps ih =>
    cases step with
    | schedule call => exact ih (ri.schedule P call) hp
    | process last nframes arrivals =>
      exact ih (ri.process P arrivals hp.1 hp.2.1) hp.2.2

/-- The host before its first step: nothing has been scheduled yet. -/
structure Host.Fresh (h : Host ρ σ) : Prop where
  queue : h.queue = []
  scheduled : h.scheduled = []
  dispatched : h.dispatched = []

theorem Host.Fresh.runInv {h₀ : Host ρ σ} (hf : h₀.Fresh) : RunInv h₀ 0 ⟨h₀, []⟩ where
  inv := {
    ordered := by rw [hf.queue]; exact List.Pairwise.nil
    perm := by rw [hf.queue, hf.scheduled, hf.dispatched]; exact List.Perm.refl _
    numbered := by rw [hf.scheduled]; exact List.Pairwise.nil
    fresh := by rw [hf.scheduled]; exact fun _ he => absurd he List.not_mem_nil }
  queues := id
  graph := SameGraph.refl h₀
  correct := fun _ hc => absurd hc List.not_mem_nil
  dispatched := by rw [hf.dispatched]; rfl
  times := List.Pairwise.nil
  bounded := fun _ hd => absurd hd List.not_mem_nil

/-- **Exactly-once ordered dispatch.** In every run of scheduling calls and
cycles, the host queue is ordered, every cycle dispatches its due events to
everyone they are for, into the queues of the children, and leaves the others,
every scheduled event is found due by exactly one cycle or is still queued, and the
times of the hand-overs do not decrease. -/
theorem run_dispatch (h₀ : Host ρ σ) (steps : List HostStep) (hf : h₀.Fresh)
    (hp : PeriodsFrom 0 steps) :
    let r := HostRun.run P steps ⟨h₀, []⟩
    Ordered r.host.queue ∧
      (∀ c ∈ r.cycles, c.Correct h₀) ∧
      r.host.scheduled.Pairwise (fun a b => a.seq < b.seq) ∧
      (∀ e ∈ r.host.scheduled,
        (r.cycles.map fun c => c.dueFound.count e).sum + r.host.queue.count e = 1) ∧
      (r.cycles.flatMap Cycle.delivered).Pairwise (fun d d' => d.time.toNat ≤ d'.time.toNat) := by
  intro r
  obtain ⟨bound, ri⟩ := hf.runInv.run P hp
  refine ⟨ri.inv.ordered, ri.correct, ri.inv.numbered, ?_, ri.times⟩
  intro e he
  have hcount := ri.inv.perm.count_eq e
  rw [List.count_append, ri.dispatched, List.count_flatMap,
    List.count_eq_one_of_mem ri.inv.nodup he] at hcount
  exact hcount

/-- An input with one child and a responder that passes on to that child: of
three events one is due at once, one is late and one waits for a second cycle. -/
theorem run_dispatch_pass :
    let P := Platform.plain 64 (LuaScript.pass 2)
    let h₀ := Host.start () [1, 2] []
      (fun m => if m = 1 then Module.start moduleInput [2] true .input
        else Module.start moduleOutput [] false (.oscOut []))
      (ByteRing.Fifo.empty ringbufSize ringbufSize_pos)
    let steps := [.schedule ⟨false, 1, 5, [1]⟩, .schedule ⟨true, 1, 2, [2]⟩,
      .process 4 8 [⟨false, 1, 12, [3]⟩], .process 12 8 []]
    let r := HostRun.run P steps ⟨h₀, []⟩
    (Ordered r.host.queue ∧
      (∀ c ∈ r.cycles, c.Correct h₀) ∧
      r.host.scheduled.Pairwise (fun a b => a.seq < b.seq) ∧
      (∀ e ∈ r.host.scheduled,
        (r.cycles.map fun c => c.dueFound.count e).sum + r.host.queue.count e = 1) ∧
      (r.cycles.flatMap Cycle.delivered).Pairwise (fun d d' => d.time.toNat ≤ d'.time.toNat)) ∧
    r.cycles.map (fun c => c.delivered.map fun d => (d.seq, d.time)) =
      [[(1, 4), (1, 4), (0, 5), (0, 5)], [(2, 12), (2, 12)]] ∧
    QueueInv h₀ := by
  intro P h₀ steps r
  refine ⟨run_dispatch P h₀ steps ⟨rfl, rfl, rfl⟩ ?_, by decide +kernel, QueueUpTo.nil 0, ?_⟩
  · exact ⟨by decide, by decide, by decide, by decide, trivial⟩
  · intro m
    change QueueUpTo 0 (if m = 1 then _ else _ : Module _).queue
    split <;> exact QueueUpTo.nil 0

end Tjost
