import Tjost.Host.Process

/-!
# The queues of a host over a cycle

Two facts that every statement about whole cycles needs. The queues of the host
and of all its modules stay ordered (`QueueInv`), whatever a cycle does, whether
or not its period wraps. And the call of one `process_out` takes the due events
off the queue of its module and leaves every other module alone
(`processOut_drains`, `processOut_module_of_ne`), for each of the modules that
have one.

The parts of the cycle have a rule each, about what they are made of:
`dispatchEvent_invariant` for the dispatch of one event, and
`processOut_invariant` for the output modules. That the main loop keeps the queues in
order is part of what it does to them (`Queued`).
-/

namespace Tjost

variable {ρ σ : Type} (P : Platform ρ σ)

/-! ### The rule of the dispatch -/

/-- The modules whose children and responders get the events of a module. -/
def Host.receivers (h : Host ρ σ) (module : ModulePtr) : List ModulePtr :=
  if module = moduleBroadcast then h.uplinks else [module]

section ScriptRule

variable {I : Host ρ σ → Prop} {tev : Event}
  (hcall : ∀ (st : σ) (m : ModulePtr) (time : NFrames) (buf : List UInt8),
    ∀ c ∈ (P.lua.respond st m time buf).calls, ∀ h : Host ρ σ, I h →
      I (moduleSchedule P c.module c.time c.buf h))
  (hother : ∀ (h : Host ρ σ) (lua : σ) (messages : List String) (delivered : List Delivery),
    I h → I { h with lua := lua, messages := messages, delivered := delivered })

theorem forwardAll_invariant {C : ModulePtr → Prop}
    (hforward : ∀ (h : Host ρ σ) (child : ModulePtr), C child → I h → I (forward P tev child h))
    {l : List ModulePtr} (hl : ∀ c ∈ l, C c) {h : Host ρ σ} (hI : I h) :
    I (forwardAll P tev l h) := by
  induction l generalizing h with
  | nil => exact hI
  | cons child l ih =>
    have hchild := hforward h child (hl child List.mem_cons_self) hI
    exact ih (fun c hc => hl c (List.mem_cons_of_mem _ hc)) hchild

theorem runCalls_rule {l : List LuaCall}
    (hl : ∀ c ∈ l, ∀ h : Host ρ σ, I h → I (moduleSchedule P c.module c.time c.buf h))
    {h : Host ρ σ} (hI : I h) : I (runCalls P l h) := by
  induction l generalizing h with
  | nil => exact hI
  | cons c l ih =>
    exact ih (fun d hd => hl d (List.mem_cons_of_mem _ hd)) (hl c List.mem_cons_self h hI)

include hcall hother in
theorem luaDeserialize_rule {h : Host ρ σ} (hI : I h) : I (luaDeserialize P tev h) := by
  set r := P.lua.respond h.lua tev.module tev.time tev.buf with hr
  have hstart : I { h with
      lua := r.state
      delivered := h.delivered ++ [⟨tev.seq, .lua tev.module, tev.time, tev.buf⟩] } :=
    hother h r.state h.messages _ hI
  have hcalls := runCalls_rule P (l := r.calls) (hcall _ _ _ _) hstart
  exact hother _ _ (_ ++ r.errors) _ hcalls

include hcall hother in
/-- **The rule of the dispatch.** An event is forwarded to the children of its
receivers, and the calls that follow are those of the script. -/
theorem dispatchEvent_rule {h₀ : Host ρ σ}
    (hforward : ∀ u ∈ h₀.receivers tev.module, ∀ child ∈ (h₀.module u).children, ∀ h : Host ρ σ,
      SameGraph h₀ h → I h → I (forward P tev child h))
    (hI : I h₀) : I (dispatchEvent P tev h₀) := by
  -- `forward` does not read the module of the event, which the broadcast overwrites
  have hround : ∀ m, ∀ u ∈ h₀.receivers tev.module, ∀ h : Host ρ σ, SameGraph h₀ h → I h →
      SameGraph h₀ (forwardAll P { tev with module := m } (h.module u).children h) ∧
        I (forwardAll P { tev with module := m } (h.module u).children h) := by
    intro m u hu h g hI
    rw [g.children]
    refine forwardAll_invariant P (I := fun h => SameGraph h₀ h ∧ I h)
      (C := (· ∈ (h₀.module u).children)) ?_ (fun _ hc => hc) ⟨g, hI⟩
    rintro h child hchild ⟨g, hI⟩
    have g' := (forward_dispatches P { tev with module := m } child h).graph
    exact ⟨g.trans g', hforward u hu child hchild h g hI⟩
  unfold Host.receivers at hround
  unfold dispatchEvent
  split
  · next hb =>
    rw [if_pos hb] at hround
    have hloop : ∀ (l : List ModulePtr), (∀ u ∈ l, u ∈ h₀.uplinks) → ∀ (m : ModulePtr)
        (h : Host ρ σ), SameGraph h₀ h → I h → I (broadcast P l { tev with module := m } h) := by
      intro l
      induction l with
      | nil => exact fun _ _ _ _ hI => hI
      | cons u l ih =>
        intro hl m h g hI
        obtain ⟨g', hI'⟩ := hround m u (hl u List.mem_cons_self) h g hI
        have hl' : ∀ u ∈ l, u ∈ h₀.uplinks := fun v hv => hl v (List.mem_cons_of_mem _ hv)
        unfold broadcast
        simp only
        split
        · exact ih hl' u _ (g'.trans (luaDeserialize_dispatches P _ _).graph)
            (luaDeserialize_rule P hcall hother hI')
        · exact ih hl' m _ g' hI'
    exact hloop h₀.uplinks (fun _ hu => hu) tev.module h₀ (SameGraph.refl h₀) hI
  · next hb =>
    rw [if_neg hb] at hround
    obtain ⟨-, hI'⟩ := hround tev.module tev.module (List.mem_singleton.mpr rfl) h₀
      (SameGraph.refl h₀) hI
    unfold unicast
    simp only
    split
    · exact luaDeserialize_rule P hcall hother hI'
    · exact hI'

end ScriptRule

section Rule

variable {I : Host ρ σ → Prop} {C : ModulePtr → Prop} {tev : Event}
  (hchildren : ∀ (h : Host ρ σ) (m : ModulePtr), I h → ∀ c ∈ (h.module m).children, C c)
  (hforward : ∀ (h : Host ρ σ) (child : ModulePtr), C child → I h → I (forward P tev child h))
  (hcall : ∀ (h : Host ρ σ) (m : ModulePtr) (time : NFrames) (buf : List UInt8), I h →
    I (moduleSchedule P m time buf h))
  (hother : ∀ (h : Host ρ σ) (lua : σ) (messages : List String) (delivered : List Delivery),
    I h → I { h with lua := lua, messages := messages, delivered := delivered })

include hchildren hforward hcall hother in
/-- **Invariants of the dispatch.** Dispatching an event forwards it to children
and runs responders, whose calls schedule on modules. `C` is what the invariant
knows about children. -/
theorem dispatchEvent_invariant {h : Host ρ σ} (hI : I h) : I (dispatchEvent P tev h) := by
  refine dispatchEvent_rule P ?_ hother ?_ hI
  · intro st m time buf c _ h hI
    exact hcall h c.module c.time c.buf hI
  · intro u _ child hchild h' g hI'
    rw [← g.children] at hchild
    exact hforward h' child (hchildren h' u hI' child hchild) hI'

end Rule

/-! ### All queues stay ordered -/

/-- The queues of the host and of its modules are ordered, and hold events that
are already numbered. -/
structure QueueInv (h : Host ρ σ) : Prop where
  host : QueueUpTo h.seq h.queue
  module : ∀ m, QueueUpTo h.seq (h.module m).queue

namespace QueueInv

variable {P} {h h' : Host ρ σ}

/-- A host with the same module queues and at least the same counter. -/
theorem of_eq (hi : QueueInv h) (hseq : h.seq ≤ h'.seq) (hqueue : h'.queue.Sublist h.queue)
    (hmodule : h'.module = h.module) : QueueInv h' where
  host := (hi.host.sublist hqueue).mono hseq
  module m := hmodule ▸ (hi.module m).mono hseq

theorem hostSchedule (hi : QueueInv h) (m : ModulePtr) (time : NFrames) (buf : List UInt8) :
    QueueInv (Tjost.hostSchedule P m time buf h) where
  host := hi.host.sortedInsert P.eina rfl
  module n := (hi.module n).mono (Nat.le_succ _)

theorem moduleSchedule (hi : QueueInv h) (m : ModulePtr) (time : NFrames) (buf : List UInt8) :
    QueueInv (Tjost.moduleSchedule P m time buf h) where
  host := hi.host.mono (Nat.le_succ _)
  module := moduleSchedule_queueUpTo P m time buf hi.module

theorem mainBody (hi : QueueInv h) (last : NFrames) (tev : Event) :
    QueueInv (Tjost.mainBody P last tev h) := by
  obtain ⟨-, hseq, hqueue, -, -, -, hqueued⟩ := mainBody_spec P last tev h
  refine ⟨?_, (hqueued hi.module).1⟩
  rw [hqueue]
  exact (hi.host.sublist List.eraseP_sublist).mono hseq

theorem mainLoop (hi : QueueInv h) (last nframes : NFrames) :
    QueueInv (Tjost.mainLoop P last nframes h) :=
  dueLoop_invariant (I := QueueInv) h.queue (fun tev _ _ hi => hi.mainBody last tev) h hi

theorem run (hi : QueueInv h) (c : SchedCall) : QueueInv (c.run P h) := by
  unfold SchedCall.run
  split
  · exact hi.hostSchedule (P := P) c.module c.time c.buf
  · exact hi.hostSchedule (P := P) c.module c.time c.buf

theorem receive (hi : QueueInv h) (arrivals : List SchedCall) :
    QueueInv (Tjost.receive P arrivals h) := by
  induction arrivals generalizing h with
  | nil => exact hi
  | cons c l ih => exact ih (hi.run c)

theorem receiveIn (hi : QueueInv h) (arrivals : List SchedCall) :
    QueueInv (Tjost.receiveIn P arrivals h) :=
  (hi.receive (P := P) arrivals).of_eq (le_refl _) (List.Sublist.refl _) rfl

end QueueInv

/-! ### What a `process_out` does to its queue -/

/-- The module has a `process_out`. -/
def ModuleDat.hasProcessOut : ModuleDat ρ → Bool
  | .input => false
  | _ => true

/-- The time that the `process_out` of a module gives to late events. -/
def ModuleDat.late (last nframes : NFrames) : ModuleDat ρ → NFrames
  | .loopback => last + nframes
  | _ => last

/-- A `process_out` took the due events off the queue `q`. -/
def OutState.Drains {δ : Type} (last nframes late : NFrames) (q : List Event) (s : OutState δ) :
    Prop :=
  s.queue = restEvents last nframes q ∧
    s.drained = (dueEvents last nframes q).map (Drained.of last late)

theorem DrainLoop.run_drains {δ : Type} (L : DrainLoop δ) (last nframes : NFrames)
    {s : OutState δ} (hq : Ordered s.queue) (hs : s.drained = []) :
    (L.run last nframes s).Drains last nframes L.late s.queue := by
  refine ⟨DrainLoop.run_queue hq, ?_⟩
  rw [DrainLoop.run_drained hq, hs, List.nil_append]

theorem OutState.Drains.flushOr {δ : Type} {last nframes late : NFrames} {q : List Event}
    {s : OutState δ} (hs : s.Drains last nframes late q) (report : String) (count : ℕ) :
    (flushOr P report count s).Drains last nframes late q := by
  unfold Tjost.flushOr
  split
  · exact hs
  · exact hs

section ProcessOut

variable {last nframes : NFrames} {h : Host ρ σ} {m : ModulePtr}

/-- Putting back the state of a `process_out`. -/
theorem Host.putBack_drains {δ : Type} {late : NFrames} {s : OutState δ} {q : List Event}
    (h : Host ρ σ) (m : ModulePtr) (x : Module ρ) (dat : ModuleDat ρ)
    (hs : s.Drains last nframes late q) :
    ((h.putBack m x s dat).module m).queue = restEvents last nframes q ∧
      (h.putBack m x s dat).drained =
        h.drained ++ (dueEvents last nframes q).map fun tev => (m, Drained.of last late tev) := by
  obtain ⟨hqueue, hdrained⟩ := hs
  refine ⟨?_, ?_⟩
  · rw [← hqueue]
    simp [Host.putBack, Host.setModule]
  · change _ ++ s.drained.map (m, ·) = _
    rw [hdrained, List.map_map]
    rfl

variable (last nframes) in
/-- **Every `process_out` drains its queue**: the due events are taken off with
their clamped times, the others stay. -/
theorem processOut_drains (hq : Ordered (h.module m).queue)
    (hout : (h.module m).dat.hasProcessOut = true) :
    ((processOut P last nframes m h).module m).queue =
        restEvents last nframes (h.module m).queue ∧
      (processOut P last nframes m h).drained =
        h.drained ++ (dueEvents last nframes (h.module m).queue).map fun tev =>
          (m, Drained.of last ((h.module m).dat.late last nframes) tev) := by
  unfold processOut
  cases hdat : (h.module m).dat <;> simp only [hdat]
  case input => simp [hdat, ModuleDat.hasProcessOut] at hout
  case oscOut port => exact h.putBack_drains m _ _ (DrainLoop.run_drains _ _ _ hq rfl)
  case midiOut port => exact h.putBack_drains m _ _ (DrainLoop.run_drains _ _ _ hq rfl)
  case cvOut dat => exact h.putBack_drains m _ _ (DrainLoop.run_drains _ _ _ hq rfl)
  -- these write to a pipe and flush it behind the loop
  case seqOut pipe =>
    exact h.putBack_drains m _ _ ((DrainLoop.run_drains _ _ _ hq rfl).flushOr P _ _)
  case rtmidiOut pipe =>
    exact h.putBack_drains m _ _ ((DrainLoop.run_drains _ _ _ hq rfl).flushOr P _ _)
  case dump pipe =>
    exact h.putBack_drains m _ _ ((DrainLoop.run_drains _ _ _ hq rfl).flushOr P _ _)
  case serial pipe =>
    exact h.putBack_drains m _ _ ((DrainLoop.run_drains _ _ _ hq rfl).flushOr P _ _)
  case write pipe offset =>
    refine h.putBack_drains m _ _ ?_
    unfold Write.processOut
    simp only
    -- the offset may be set before the loop
    split
    · exact DrainLoop.run_drains (Write.loop P last m) last nframes hq rfl
    · exact DrainLoop.run_drains (Write.loop P last m) last nframes hq rfl
  case net rbTx =>
    refine h.putBack_drains m _ _ ?_
    unfold Net.processOut
    simp only
    split
    · exact DrainLoop.run_drains (Net.loop P last) last nframes hq rfl
    · exact DrainLoop.run_drains (Net.loop P last) last nframes hq rfl
  case uplink => exact h.putBack_drains m _ _ (DrainLoop.run_drains _ _ _ hq rfl)
  case loopback =>
    -- a loopback schedules into the host, whose record of drained events stays
    have hs := DrainLoop.run_drains (Loopback.loop P last nframes m) last nframes
      (s := h.outState (h.module m) h) hq rfl
    have hkeep : (Loopback.processOut P last nframes m (h.outState (h.module m) h)).dat.drained =
        h.drained :=
      DrainLoop.run_dat_invariant (L := Loopback.loop P last nframes m)
        (I := fun d => d.drained = h.drained) (fun _ _ hd => hd) rfl
    have hput := Host.putBack_drains
      (Loopback.processOut P last nframes m (h.outState (h.module m) h)).dat m (h.module m)
      .loopback hs
    rw [hkeep] at hput
    exact hput

/-- A `process_out` leaves the other modules alone. -/
theorem processOut_module_of_ne {n : ModulePtr} (hn : n ≠ m) :
    (processOut P last nframes m h).module n = h.module n := by
  have hput : ∀ {δ : Type} (h' : Host ρ σ) (s : OutState δ) (dat : ModuleDat ρ),
      h'.module = h.module → (h'.putBack m (h.module m) s dat).module n = h.module n := by
    intro δ h' s dat hmod
    change Function.update h'.module m _ n = h.module n
    rw [Function.update_of_ne hn, hmod]
  unfold processOut
  cases hdat : (h.module m).dat <;> simp only [hdat]
  case loopback => exact hput _ _ _ (Loopback.processOut_module P last nframes m _)
  all_goals exact hput h _ _ rfl

/-- Only newly numbered events can have entered the host queue, which is still
ordered. -/
structure Schedules (h h' : Host ρ σ) : Prop where
  seq_le : h.seq ≤ h'.seq
  queue : QueueUpTo h'.seq h'.queue
  new : ∀ e ∈ h'.queue, e ∈ h.queue ∨ h.seq ≤ e.seq

theorem Schedules.refl (hi : QueueInv h) : Schedules h h :=
  ⟨le_refl _, hi.host, fun _ he => Or.inl he⟩

theorem Schedules.trans {h' h'' : Host ρ σ} (a : Schedules h h') (b : Schedules h' h'') :
    Schedules h h'' where
  seq_le := a.seq_le.trans b.seq_le
  queue := b.queue
  new e he := by
    rcases b.new e he with he | he
    · exact a.new e he
    · exact Or.inr (a.seq_le.trans he)

theorem Schedules.hostSchedule {h' : Host ρ σ} (a : Schedules h h') (m : ModulePtr)
    (time : NFrames) (buf : List UInt8) : Schedules h (hostSchedule P m time buf h') where
  seq_le := a.seq_le.trans (Nat.le_succ _)
  queue := a.queue.sortedInsert P.eina rfl
  new e he := by
    rcases (mem_sortedInsert P.eina a.queue.ordered).mp he with rfl | he
    · exact Or.inr a.seq_le
    · exact a.new e he

/-- Of the host queue, a `process_out` can only add to it. -/
theorem processOut_schedules (hi : QueueInv h) (last nframes : NFrames) (m : ModulePtr) :
    Schedules h (processOut P last nframes m h) :=
  processOut_invariant P last nframes (I := Schedules h)
    (fun _ _ _ _ a => ⟨a.seq_le, a.queue, a.new⟩)
    (fun _ _ _ a => ⟨a.seq_le, a.queue, a.new⟩)
    (fun _ m time buf a => a.hostSchedule P m time buf) (Schedules.refl hi) m

/-- A module queue after a `process_out`: it lost its due events, if it was the
queue of that module. -/
theorem processOut_queue (hi : QueueInv h) (last nframes : NFrames) (m n : ModulePtr) :
    ((processOut P last nframes m h).module n).queue = (h.module n).queue ∨
      ((processOut P last nframes m h).module n).queue =
        restEvents last nframes (h.module n).queue := by
  by_cases hn : n = m
  · subst hn
    by_cases hout : (h.module n).dat.hasProcessOut = true
    · exact Or.inr (processOut_drains P last nframes (hi.module n).ordered hout).1
    · refine Or.inl ?_
      unfold processOut
      cases hdat : (h.module n).dat <;> simp_all [ModuleDat.hasProcessOut]
  · exact Or.inl (by rw [processOut_module_of_ne P hn])

theorem QueueInv.processOut (hi : QueueInv h) (last nframes : NFrames) (m : ModulePtr) :
    QueueInv (Tjost.processOut P last nframes m h) := by
  have a := processOut_schedules P hi last nframes m
  refine ⟨a.queue, fun n => ((hi.module n).mono a.seq_le).sublist ?_⟩
  rcases processOut_queue P hi last nframes m n with hq | hq
  · rw [hq]
  · rw [hq]
    exact List.filter_sublist

end ProcessOut

/-! ### The second half of a cycle -/

section SendOut

variable {P} {h : Host ρ σ}

theorem QueueInv.sendAll_schedules (hi : QueueInv h) (last nframes : NFrames)
    (test : Module ρ → Bool) (l : List ModulePtr) :
    QueueInv (sendAll P last nframes test l h) ∧
      Schedules h (sendAll P last nframes test l h) := by
  induction l generalizing h with
  | nil => exact ⟨hi, Schedules.refl hi⟩
  | cons m l ih =>
    unfold sendAll
    split
    · obtain ⟨hi', a⟩ := ih (hi.processOut P last nframes m)
      exact ⟨hi', (processOut_schedules P hi last nframes m).trans a⟩
    · exact ih hi

theorem QueueInv.sendOut_schedules (hi : QueueInv h) (last nframes : NFrames) :
    QueueInv (sendOut P last nframes h) ∧ Schedules h (sendOut P last nframes h) := by
  obtain ⟨hi₁, a₁⟩ := hi.sendAll_schedules (P := P) last nframes (fun x => isOutput x.type)
    h.modules
  obtain ⟨hi₂, a₂⟩ := hi₁.sendAll_schedules (P := P) last nframes (fun _ => true)
    (sendAll P last nframes (fun x => isOutput x.type) h.modules h).uplinks
  have a := a₁.trans a₂
  unfold sendOut
  simp only
  split
  · exact ⟨hi₂.of_eq (le_refl _) (List.Sublist.refl _) rfl, a.seq_le, a.queue, a.new⟩
  · exact ⟨hi₂, a⟩

/-- **The queues stay ordered over a cycle**, also over one whose period wraps. -/
theorem QueueInv.process (hi : QueueInv h) (last nframes : NFrames)
    (arrivals : List SchedCall) : QueueInv (process P last nframes arrivals h) :=
  (((hi.receiveIn arrivals).mainLoop last nframes).sendOut_schedules last nframes).1

end SendOut

/-! ### A small host -/

/-- An input with one output as its child. -/
def Host.pair (dat : ModuleDat (ByteRing.Fifo ringbufSize)) :
    Host (ByteRing.Fifo ringbufSize) Unit :=
  Host.start () [1, 2] []
    (fun m => if m = 1 then Module.start moduleInput [2] false .input
      else Module.start moduleOutput [] false dat)
    (ByteRing.Fifo.empty ringbufSize ringbufSize_pos)

theorem Host.pair_queueInv (dat : ModuleDat (ByteRing.Fifo ringbufSize)) :
    QueueInv (Host.pair dat) where
  host := QueueUpTo.nil 0
  module m := by
    unfold Host.pair Host.start
    simp only
    split <;> exact QueueUpTo.nil 0

end Tjost
