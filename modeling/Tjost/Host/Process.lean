import Mathlib.Data.List.Perm.Subperm
import Tjost.Modules.Outputs

/-!
# The process cycle

`_process` of `tjost.c`: receive on the inputs, dispatch the due events of the
host queue (`mainLoop`), let every output module and then every uplink send.

The main loop hands a due event to the children of its module and to the
module's Lua responder, or, for an event without a module, to those of every
uplink. In the second case the loop overwrites `tev->module` with the uplink whose
responder it calls.

`deliveries` states what this dispatch is for, without the loops: who gets an
event, and with which time. The main loop meets it
(`mainLoop_delivered`), because nothing it does changes the module graph
(`SameGraph`).
-/

namespace Tjost

variable {ρ σ : Type} (P : Platform ρ σ)

/-! ### Dispatching one event -/

/-- `tjost_module_schedule(child->module, tev->time, tev->size, tev->buf)` in the
main loop. -/
def forward (tev : Event) (child : ModulePtr) (h : Host ρ σ) : Host ρ σ :=
  { moduleSchedule P child tev.time tev.buf h with
    delivered := h.delivered ++ [⟨tev.seq, .child child, tev.time, tev.buf⟩]
    forwarded := h.forwarded ++ [(child, ⟨h.seq, 0, tev.time, tev.buf⟩)] }

/-- `EINA_INLIST_FOREACH(module->children, child)` around `forward`. -/
def forwardAll (tev : Event) : List ModulePtr → Host ρ σ → Host ρ σ
  | [], h => h
  | child :: l, h => forwardAll tev l (forward P tev child h)

/-- The calls a responder makes to output modules. -/
def runCalls : List LuaCall → Host ρ σ → Host ρ σ
  | [], h => h
  | c :: l, h => runCalls l (moduleSchedule P c.module c.time c.buf h)

/-- `tjost_lua_deserialize`: the responder of `tev->module` runs, and what ends
it early is reported. -/
def luaDeserialize (tev : Event) (h : Host ρ σ) : Host ρ σ :=
  let r := P.lua.respond h.lua tev.module tev.time tev.buf
  (runCalls P r.calls
    { h with
      lua := r.state
      delivered := h.delivered ++ [⟨tev.seq, .lua tev.module, tev.time, tev.buf⟩] }).messagePush
    r.errors

/-- The branch for an event of a module. -/
def unicast (tev : Event) (h : Host ρ σ) : Host ρ σ :=
  let h := forwardAll P tev (h.module tev.module).children h
  if (h.module tev.module).hasLuaCallback then luaDeserialize P tev h else h

/-- The branch for an event without a module, over the rest of `host->uplinks`.
Where an uplink has a responder, the event is given to that uplink, and it is
still given to it when the loop comes to the next one. -/
def broadcast : List ModulePtr → Event → Host ρ σ → Host ρ σ
  | [], _, h => h
  | uplink :: l, tev, h =>
    let h := forwardAll P tev (h.module uplink).children h
    if (h.module uplink).hasLuaCallback then
      let tev := { tev with module := uplink }
      broadcast l tev (luaDeserialize P tev h)
    else broadcast l tev h

/-- The two branches. -/
def dispatchEvent (tev : Event) (h : Host ρ σ) : Host ρ σ :=
  if tev.module = moduleBroadcast then broadcast P h.uplinks tev h else unicast P tev h

/-! ### The cycle -/

/-- The body of the main loop after the due test. -/
def mainBody (last : NFrames) (tev : Event) (h : Host ρ σ) : Host ρ σ :=
  let h := h.messagePush (lateReport "main loop" last tev.time)
  let h := dispatchEvent P { tev with time := clamp last last tev.time } h
  { h with
    queue := unlink tev h.queue
    dispatched := h.dispatched ++ [Drained.of last last tev] }

/-- The main loop. -/
def mainLoop (last nframes : NFrames) (h : Host ρ σ) : Host ρ σ :=
  dueLoop last nframes (mainBody P last) h.queue h

/-- A call of one of the two functions that schedule on the host queue. -/
structure SchedCall where
  inlined : Bool
  module : ModulePtr
  time : NFrames
  buf : List UInt8

def SchedCall.run (c : SchedCall) (h : Host ρ σ) : Host ρ σ :=
  if c.inlined then hostScheduleInline P c.module c.time c.buf h
  else hostSchedule P c.module c.time c.buf h

/-- What `tjost_uplink_rx_drain` and the `process_in` of the input modules
schedule in a cycle. -/
def receive : List SchedCall → Host ρ σ → Host ρ σ
  | [], h => h
  | c :: l, h => receive l (c.run P h)

/-- `module->process_out` for the modules of a list that pass a test. -/
def sendAll (last nframes : NFrames) (test : Module ρ → Bool) :
    List ModulePtr → Host ρ σ → Host ρ σ
  | [], h => h
  | m :: l, h =>
    sendAll last nframes test l
      (if test (h.module m) then processOut P last nframes m h else h)

/-- The second half of a cycle: all outputs, all uplinks, and the wake-up of the
uplink thread. -/
def sendOut (last nframes : NFrames) (h : Host ρ σ) : Host ρ σ :=
  let h := sendAll P last nframes (fun x => isOutput x.type) h.modules h
  let h := sendAll P last nframes (fun _ => true) h.uplinks h
  if h.pipeUplinkTxCount > 0 ∧ P.asyncSendError.isSome then
    h.messagePush ["tjost_pipe_flush failed"]
  else h

/-- The first half of a cycle. -/
def receiveIn (arrivals : List SchedCall) (h : Host ρ σ) : Host ρ σ :=
  { receive P arrivals h with pipeUplinkTxCount := 0 }

/-- `_process`. The memory extension at its start and the collection step at its
end leave the queues alone as long as no module is collected. -/
def process (last nframes : NFrames) (arrivals : List SchedCall) (h : Host ρ σ) : Host ρ σ :=
  sendOut P last nframes (mainLoop P last nframes (receiveIn P arrivals h))

/-! ### What the dispatch is for -/

/-- Everything that gets an event of module `m`: its children in list order, then
its responder. -/
def deliveriesOf (h : Host ρ σ) (m : ModulePtr) (seq : ℕ) (time : NFrames)
    (buf : List UInt8) : List Delivery :=
  (h.module m).children.map (fun c => ⟨seq, .child c, time, buf⟩) ++
    if (h.module m).hasLuaCallback then [⟨seq, .lua m, time, buf⟩] else []

/-- Everything that gets a due event in a period that starts at `last`. The time
is that of the event, or the start of the period if that is later. -/
def deliveries (h : Host ρ σ) (last : NFrames) (tev : Event) : List Delivery :=
  if tev.module = moduleBroadcast then
    h.uplinks.flatMap fun u => deliveriesOf h u tev.seq (max tev.time last) tev.buf
  else deliveriesOf h tev.module tev.seq (max tev.time last) tev.buf

/-- The time and the bytes of an event, which is what a module gets of it. -/
def Event.content (tev : Event) : NFrames × List UInt8 := (tev.time, tev.buf)

/-- What the hand-overs give to a child. -/
def handedTo (child : ModulePtr) (ds : List Delivery) : List (NFrames × List UInt8) :=
  (ds.filter fun d => d.target = .child child).map fun d => (d.time, d.buf)

@[simp] theorem handedTo_append (child : ModulePtr) (ds ds' : List Delivery) :
    handedTo child (ds ++ ds') = handedTo child ds ++ handedTo child ds' := by
  unfold handedTo
  rw [List.filter_append, List.map_append]

/-! ### The module graph is constant -/

/-- The two hosts have the same modules, with the same types, children, responders
and data. -/
structure SameGraph (h h' : Host ρ σ) : Prop where
  modules : h'.modules = h.modules
  uplinks : h'.uplinks = h.uplinks
  type : ∀ m, (h'.module m).type = (h.module m).type
  children : ∀ m, (h'.module m).children = (h.module m).children
  hasLuaCallback : ∀ m, (h'.module m).hasLuaCallback = (h.module m).hasLuaCallback

namespace SameGraph

variable {h h' h'' : Host ρ σ}

theorem refl (h : Host ρ σ) : SameGraph h h := ⟨rfl, rfl, fun _ => rfl, fun _ => rfl, fun _ => rfl⟩

theorem trans (a : SameGraph h h') (b : SameGraph h' h'') : SameGraph h h'' where
  modules := b.modules.trans a.modules
  uplinks := b.uplinks.trans a.uplinks
  type m := (b.type m).trans (a.type m)
  children m := (b.children m).trans (a.children m)
  hasLuaCallback m := (b.hasLuaCallback m).trans (a.hasLuaCallback m)

theorem deliveriesOf_eq (g : SameGraph h h') (m : ModulePtr) (seq : ℕ) (time : NFrames)
    (buf : List UInt8) : deliveriesOf h' m seq time buf = deliveriesOf h m seq time buf := by
  unfold deliveriesOf
  rw [g.children, g.hasLuaCallback]

theorem deliveries_eq (g : SameGraph h h') (last : NFrames) (tev : Event) :
    deliveries h' last tev = deliveries h last tev := by
  unfold deliveries
  rw [g.uplinks]
  simp only [g.deliveriesOf_eq]

end SameGraph

/-- Replacing a module by one with the same type, children and responder. -/
theorem SameGraph.setModule (h : Host ρ σ) (m : ModulePtr) {x : Module ρ}
    (htype : x.type = (h.module m).type) (hchildren : x.children = (h.module m).children)
    (hlua : x.hasLuaCallback = (h.module m).hasLuaCallback) : SameGraph h (h.setModule m x) := by
  have hupd : ∀ {β : Type} (f : Module ρ → β) (_ : f x = f (h.module m)) (n : ModulePtr),
      f ((h.setModule m x).module n) = f (h.module n) := by
    intro β f hf n
    unfold Host.setModule
    by_cases hn : n = m
    · subst hn
      simpa using hf
    · simp [Function.update_of_ne hn]
  exact ⟨rfl, rfl, hupd _ htype, hupd _ hchildren, hupd _ hlua⟩

/-! ### Hand-overs in the queues -/

/-- **The hand-overs arrive.** The queues of the modules stay in order, if they are, and
have an event of its own for each hand-over to a child, besides those that they had. -/
def Queued (ds : List Delivery) (h h' : Host ρ σ) : Prop :=
  (∀ m, QueueUpTo h.seq (h.module m).queue) →
    (∀ m, QueueUpTo h'.seq (h'.module m).queue) ∧
      ∀ m, ((h.module m).queue.map Event.content ++ handedTo m ds).Subperm
        ((h'.module m).queue.map Event.content)

namespace Queued

variable {ds ds' : List Delivery} {h h' h'' : Host ρ σ}

/-- Nothing is handed over to a child, and the queues stay. -/
theorem of_eq (hseq : h.seq ≤ h'.seq) (hmodule : h'.module = h.module)
    (hds : ∀ m, handedTo m ds = []) : Queued ds h h' := by
  intro hq
  rw [hmodule]
  refine ⟨fun m => (hq m).mono hseq, fun m => ?_⟩
  rw [hds m, List.append_nil]

theorem trans (a : Queued ds h h') (b : Queued ds' h' h'') : Queued (ds ++ ds') h h'' := by
  intro hq
  obtain ⟨hq', ha⟩ := a hq
  obtain ⟨hq'', hb⟩ := b hq'
  refine ⟨hq'', fun m => ?_⟩
  rw [handedTo_append, ← List.append_assoc]
  exact ((List.subperm_append_right _).mpr (ha m)).trans (hb m)

/-- The hosts in between may differ in what the queues are not made of. -/
theorem congr {g g' : Host ρ σ} (a : Queued ds h h') (hmodule : g.module = h.module)
    (hseq : g.seq = h.seq) (hmodule' : g'.module = h'.module) (hseq' : g'.seq = h'.seq) :
    Queued ds g g' := by
  unfold Queued
  rw [hmodule, hseq, hmodule', hseq']
  exact a

end Queued

/-- `tjost_module_schedule` adds an event to the queue of its module. -/
theorem moduleSchedule_content (m : ModulePtr) (time : NFrames) (buf : List UInt8)
    {h : Host ρ σ} (hq : Ordered (h.module m).queue) (n : ModulePtr) :
    (((moduleSchedule P m time buf h).module n).queue.map Event.content).Perm
      ((h.module n).queue.map Event.content ++ if m = n then [(time, buf)] else []) := by
  rw [moduleSchedule_module]
  by_cases hn : n = m
  · subst hn
    rw [if_pos rfl, if_pos rfl]
    refine ((sortedInsert_perm P.eina hq _).map Event.content).trans ?_
    exact (List.perm_append_singleton _ _).symm
  · rw [if_neg hn, if_neg (Ne.symm hn), List.append_nil]

theorem moduleSchedule_queueUpTo (m : ModulePtr) (time : NFrames) (buf : List UInt8)
    {h : Host ρ σ} (hq : ∀ m, QueueUpTo h.seq (h.module m).queue) (n : ModulePtr) :
    QueueUpTo (moduleSchedule P m time buf h).seq
      ((moduleSchedule P m time buf h).module n).queue := by
  rw [moduleSchedule_module]
  split
  · exact (hq m).sortedInsert P.eina rfl
  · exact (hq n).mono (Nat.le_succ _)

/-! ### Spec lemmas of the dispatch -/

/-- What dispatching leaves alone, and what it records: the host queue with its
ghosts and the graph stay, and the hand-overs `ds` are recorded and arrive. -/
structure Dispatches (ds : List Delivery) (h h' : Host ρ σ) : Prop where
  graph : SameGraph h h'
  seq_le : h.seq ≤ h'.seq
  queue : h'.queue = h.queue
  scheduled : h'.scheduled = h.scheduled
  dispatched : h'.dispatched = h.dispatched
  delivered : h'.delivered = h.delivered ++ ds
  queued : Queued ds h h'

namespace Dispatches

variable {ds ds' : List Delivery} {h h' h'' : Host ρ σ}

theorem refl (h : Host ρ σ) : Dispatches [] h h :=
  ⟨SameGraph.refl h, le_refl _, rfl, rfl, rfl, by simp, .of_eq (le_refl _) rfl fun _ => rfl⟩

theorem trans (a : Dispatches ds h h') (b : Dispatches ds' h' h'') :
    Dispatches (ds ++ ds') h h'' where
  graph := a.graph.trans b.graph
  seq_le := a.seq_le.trans b.seq_le
  queue := b.queue.trans a.queue
  scheduled := b.scheduled.trans a.scheduled
  dispatched := b.dispatched.trans a.dispatched
  delivered := by rw [b.delivered, a.delivered, List.append_assoc]
  queued := a.queued.trans b.queued

end Dispatches

theorem moduleSchedule_dispatches (m : ModulePtr) (time : NFrames) (buf : List UInt8)
    (h : Host ρ σ) : Dispatches [] h (moduleSchedule P m time buf h) where
  graph :=
    have g := SameGraph.setModule h m (x := { h.module m with
      queue := P.eina.sortedInsert (h.module m).queue ⟨h.seq, 0, time, buf⟩ scheduleSort })
      rfl rfl rfl
    ⟨g.modules, g.uplinks, g.type, g.children, g.hasLuaCallback⟩
  seq_le := Nat.le_succ _
  queue := rfl
  scheduled := rfl
  dispatched := rfl
  delivered := (List.append_nil _).symm
  queued := by
    intro hq
    refine ⟨moduleSchedule_queueUpTo P m time buf hq, fun n => ?_⟩
    have hperm := moduleSchedule_content P m time buf (hq m).ordered n
    refine List.Subperm.trans ?_ hperm.symm.subperm
    rw [show handedTo n [] = [] from rfl, List.append_nil]
    exact (List.sublist_append_left _ _).subperm

theorem forward_dispatches (tev : Event) (child : ModulePtr) (h : Host ρ σ) :
    Dispatches [⟨tev.seq, .child child, tev.time, tev.buf⟩] h (forward P tev child h) := by
  have d := moduleSchedule_dispatches P child tev.time tev.buf h
  refine ⟨⟨d.graph.modules, d.graph.uplinks, d.graph.type, d.graph.children,
    d.graph.hasLuaCallback⟩, d.seq_le, d.queue, d.scheduled, d.dispatched, rfl, fun hq => ?_⟩
  refine ⟨moduleSchedule_queueUpTo P child tev.time tev.buf hq, fun n => ?_⟩
  -- the hand-over is the event that is added
  have hhanded : handedTo n [⟨tev.seq, .child child, tev.time, tev.buf⟩] =
      if child = n then [(tev.time, tev.buf)] else [] := by
    unfold handedTo
    by_cases hn : child = n
    · simp [hn]
    · simp [hn]
  rw [hhanded]
  exact (moduleSchedule_content P child tev.time tev.buf (hq child).ordered n).symm.subperm

theorem forwardAll_dispatches (tev : Event) (l : List ModulePtr) (h : Host ρ σ) :
    Dispatches (l.map fun c => ⟨tev.seq, .child c, tev.time, tev.buf⟩) h
      (forwardAll P tev l h) := by
  induction l generalizing h with
  | nil => exact Dispatches.refl h
  | cons child l ih => exact (forward_dispatches P tev child h).trans (ih _)

theorem runCalls_dispatches (l : List LuaCall) (h : Host ρ σ) :
    Dispatches [] h (runCalls P l h) := by
  induction l generalizing h with
  | nil => exact Dispatches.refl h
  | cons c l ih => exact (moduleSchedule_dispatches P c.module c.time c.buf h).trans (ih _)

/-- A responder run hands the event over once, whether or not it fails. -/
theorem luaDeserialize_dispatches (tev : Event) (h : Host ρ σ) :
    Dispatches [⟨tev.seq, .lua tev.module, tev.time, tev.buf⟩] h (luaDeserialize P tev h) := by
  set r := P.lua.respond h.lua tev.module tev.time tev.buf with hr
  set h₁ : Host ρ σ := { h with
    lua := r.state
    delivered := h.delivered ++ [⟨tev.seq, .lua tev.module, tev.time, tev.buf⟩] } with hh₁
  have d₁ : Dispatches [⟨tev.seq, .lua tev.module, tev.time, tev.buf⟩] h h₁ :=
    ⟨⟨rfl, rfl, fun _ => rfl, fun _ => rfl, fun _ => rfl⟩, le_refl _, rfl, rfl, rfl, rfl,
      .of_eq (le_refl _) rfl fun _ => rfl⟩
  have d := d₁.trans (runCalls_dispatches P r.calls h₁)
  rw [List.append_nil] at d
  exact ⟨⟨d.graph.modules, d.graph.uplinks, d.graph.type, d.graph.children,
    d.graph.hasLuaCallback⟩, d.seq_le, d.queue, d.scheduled, d.dispatched, d.delivered,
    d.queued.congr rfl rfl rfl rfl⟩

/-- One round of either branch: the children of `m`, then its responder with the
event given to `m`. -/
theorem round_dispatches (tev : Event) (m : ModulePtr) (h : Host ρ σ) :
    Dispatches (deliveriesOf h m tev.seq tev.time tev.buf) h
      (let h' := forwardAll P tev (h.module m).children h
       if (h'.module m).hasLuaCallback then luaDeserialize P { tev with module := m } h'
       else h') := by
  have d := forwardAll_dispatches P tev (h.module m).children h
  unfold deliveriesOf
  simp only [d.graph.hasLuaCallback]
  split
  · exact d.trans (luaDeserialize_dispatches P { tev with module := m } _)
  · exact d.trans (Dispatches.refl _)

theorem unicast_dispatches (tev : Event) (h : Host ρ σ) :
    Dispatches (deliveriesOf h tev.module tev.seq tev.time tev.buf) h (unicast P tev h) :=
  round_dispatches P tev tev.module h

/-- The overwritten module of the event does not show in the hand-overs: they
name the uplinks of the list. -/
theorem broadcast_dispatches (l : List ModulePtr) (tev : Event) (h : Host ρ σ) :
    Dispatches (l.flatMap fun u => deliveriesOf h u tev.seq tev.time tev.buf) h
      (broadcast P l tev h) := by
  induction l generalizing tev h with
  | nil => exact Dispatches.refl h
  | cons u l ih =>
    have d := round_dispatches P tev u h
    unfold broadcast
    rw [List.flatMap_cons]
    simp only at d ⊢
    split at d
    · next hlua =>
      rw [if_pos hlua]
      have d' := ih { tev with module := u } (luaDeserialize P { tev with module := u }
        (forwardAll P tev (h.module u).children h))
      simp only [d.graph.deliveriesOf_eq] at d'
      exact d.trans d'
    · next hlua =>
      rw [if_neg hlua]
      have d' := ih tev (forwardAll P tev (h.module u).children h)
      simp only [d.graph.deliveriesOf_eq] at d'
      exact d.trans d'

theorem clamp_eq_max (last time : NFrames) : clamp last last time = max time last := by
  refine UInt32.toNat_inj.mp ?_
  rw [clamp_toNat]
  by_cases h : time ≤ last
  · rw [show max time last = last from if_pos h]
    exact max_eq_right (UInt32.le_iff_toNat_le.mp h)
  · rw [show max time last = time from if_neg h]
    rw [UInt32.le_iff_toNat_le] at h
    exact max_eq_left (by omega)

/-- One iteration of the main loop hands the event to everyone it is for, and
takes it off the queue. -/
theorem mainBody_spec (last : NFrames) (tev : Event) (h : Host ρ σ) :
    SameGraph h (mainBody P last tev h) ∧ h.seq ≤ (mainBody P last tev h).seq ∧
      (mainBody P last tev h).queue = unlink tev h.queue ∧
      (mainBody P last tev h).scheduled = h.scheduled ∧
      (mainBody P last tev h).dispatched = h.dispatched ++ [Drained.of last last tev] ∧
      (mainBody P last tev h).delivered = h.delivered ++ deliveries h last tev ∧
      Queued (deliveries h last tev) h (mainBody P last tev h) := by
  have d : Dispatches (deliveries h last tev) h
      (dispatchEvent P { tev with time := clamp last last tev.time }
        (h.messagePush (lateReport "main loop" last tev.time))) := by
    -- the report on a late event leaves the graph alone
    have g : SameGraph h (h.messagePush (lateReport "main loop" last tev.time)) :=
      ⟨rfl, rfl, fun _ => rfl, fun _ => rfl, fun _ => rfl⟩
    rw [← g.deliveries_eq]
    unfold dispatchEvent deliveries
    rw [clamp_eq_max]
    -- an event without a module goes to all uplinks
    by_cases hb : tev.module = moduleBroadcast
    · rw [if_pos hb, if_pos hb]
      have d := broadcast_dispatches P h.uplinks { tev with time := max tev.time last }
        (h.messagePush (lateReport "main loop" last tev.time))
      exact ⟨g.trans d.graph, d.seq_le, d.queue, d.scheduled, d.dispatched, d.delivered,
        d.queued.congr rfl rfl rfl rfl⟩
    · rw [if_neg hb, if_neg hb]
      have d := unicast_dispatches P { tev with time := max tev.time last }
        (h.messagePush (lateReport "main loop" last tev.time))
      exact ⟨g.trans d.graph, d.seq_le, d.queue, d.scheduled, d.dispatched, d.delivered,
        d.queued.congr rfl rfl rfl rfl⟩
  refine ⟨⟨d.graph.modules, d.graph.uplinks, d.graph.type, d.graph.children,
    d.graph.hasLuaCallback⟩, d.seq_le, ?_, d.scheduled, ?_, d.delivered,
    d.queued.congr rfl rfl rfl rfl⟩
  · change unlink tev _ = unlink tev _
    rw [d.queue]
  · change _ ++ [_] = _ ++ [_]
    rw [d.dispatched]

/-- The main loop over a list of events. -/
theorem foldl_mainBody (last : NFrames) (l : List Event) (h : Host ρ σ) :
    let h' := l.foldl (fun h tev => mainBody P last tev h) h
    SameGraph h h' ∧ h.seq ≤ h'.seq ∧ h'.scheduled = h.scheduled ∧
      h'.dispatched = h.dispatched ++ l.map (Drained.of last last) ∧
      h'.delivered = h.delivered ++ l.flatMap (deliveries h last) ∧
      Queued (l.flatMap (deliveries h last)) h h' := by
  induction l generalizing h with
  | nil =>
    exact ⟨SameGraph.refl h, le_refl _, rfl, by simp, by simp,
      .of_eq (le_refl _) rfl fun _ => rfl⟩
  | cons tev l ih =>
    obtain ⟨g, hseq, -, hsched, hdisp, hdel, hqueued⟩ := mainBody_spec P last tev h
    obtain ⟨g', hseq', hsched', hdisp', hdel', hqueued'⟩ := ih (mainBody P last tev h)
    rw [funext (g.deliveries_eq last)] at hdel' hqueued'
    refine ⟨g.trans g', hseq.trans hseq', hsched'.trans hsched, ?_, ?_, ?_⟩
    · rw [List.foldl_cons, hdisp', hdisp]
      simp
    · rw [List.foldl_cons, hdel', hdel, List.flatMap_cons, List.append_assoc]
    · rw [List.flatMap_cons]
      exact hqueued.trans hqueued'

section MainLoop

variable {last nframes : NFrames} {h : Host ρ σ} (hq : Ordered h.queue)

include hq

/-- The main loop takes the due events off the host queue and leaves the
others. -/
theorem mainLoop_queue :
    (mainLoop P last nframes h).queue = restEvents last nframes h.queue := by
  unfold mainLoop
  rw [dueLoop_eq_foldl hq]
  exact foldl_unlink (g := Host.queue) (fun tev s => (mainBody_spec P last tev s).2.2.1)
    _ _ h (hq.due_append_rest last nframes).symm

theorem mainLoop_graph : SameGraph h (mainLoop P last nframes h) := by
  unfold mainLoop
  rw [dueLoop_eq_foldl hq]
  exact (foldl_mainBody P last _ h).1

theorem mainLoop_seq_le : h.seq ≤ (mainLoop P last nframes h).seq := by
  unfold mainLoop
  rw [dueLoop_eq_foldl hq]
  exact (foldl_mainBody P last _ h).2.1

theorem mainLoop_scheduled : (mainLoop P last nframes h).scheduled = h.scheduled := by
  unfold mainLoop
  rw [dueLoop_eq_foldl hq]
  exact (foldl_mainBody P last _ h).2.2.1

theorem mainLoop_dispatched :
    (mainLoop P last nframes h).dispatched =
      h.dispatched ++ (dueEvents last nframes h.queue).map (Drained.of last last) := by
  unfold mainLoop
  rw [dueLoop_eq_foldl hq]
  exact (foldl_mainBody P last _ h).2.2.2.1

/-- **The main loop dispatches the due events**, each to everyone it is for, in
queue order. -/
theorem mainLoop_delivered :
    (mainLoop P last nframes h).delivered =
      h.delivered ++ (dueEvents last nframes h.queue).flatMap (deliveries h last) := by
  unfold mainLoop
  rw [dueLoop_eq_foldl hq]
  exact (foldl_mainBody P last _ h).2.2.2.2.1

/-- **What is handed over arrives.** -/
theorem mainLoop_queued :
    Queued ((dueEvents last nframes h.queue).flatMap (deliveries h last)) h
      (mainLoop P last nframes h) := by
  unfold mainLoop
  rw [dueLoop_eq_foldl hq]
  exact (foldl_mainBody P last _ h).2.2.2.2.2

end MainLoop

/-! ### What the rest of the cycle leaves alone -/

theorem sendOut_dispatched (last nframes : NFrames) (h : Host ρ σ) :
    (sendOut P last nframes h).dispatched = h.dispatched := by
  have hall : ∀ (test : Module ρ → Bool) (l : List ModulePtr) (h : Host ρ σ),
      (sendAll P last nframes test l h).dispatched = h.dispatched := by
    intro test l
    induction l with
    | nil => exact fun h => rfl
    | cons m l ih =>
      intro h
      unfold sendAll
      rw [ih]
      split
      · exact processOut_invariant P last nframes (I := fun h' => h'.dispatched = h.dispatched)
          (fun _ _ _ _ hd => hd) (fun _ _ _ hd => hd) (fun _ _ _ _ hd => hd) rfl m
      · rfl
  unfold sendOut
  simp only
  split
  · exact (hall _ _ _).trans (hall _ _ _)
  · exact (hall _ _ _).trans (hall _ _ _)

theorem receive_dispatched (arrivals : List SchedCall) (h : Host ρ σ) :
    (receive P arrivals h).dispatched = h.dispatched := by
  induction arrivals generalizing h with
  | nil => rfl
  | cons c l ih =>
    refine (ih _).trans ?_
    unfold SchedCall.run
    split <;> rfl

end Tjost
