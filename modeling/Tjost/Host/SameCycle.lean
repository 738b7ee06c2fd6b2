import Tjost.Host.Dispatch
import Tjost.Modules.Emission

/-!
# Output in the same cycle

`process_sameCycle`: in a nonempty period that does not wrap, a `process_out`
takes exactly the due events off its queue and emits them in queue order, at
offsets that lie in the period and do not decrease; an event that the main loop
forwards to a child leaves the child's queue in the same cycle and is not late
there; and after the cycle the queues of the outputs and uplinks hold only
events that are not before the end of the period.

The main loop puts an event into a child's queue with its clamped time, which is
in the period (`ForwardInv`). The second half of the cycle then drains every
output and every uplink once, and draining a queue twice is draining it once
(`Sent`, `Sent.trans`). That the child is among the modules drained is what
`Host.Live` asks of the graph.
-/

namespace Tjost

variable {ρ σ : Type} (P : Platform ρ σ)

/-- A graph of modules that are alive: the outputs and uplinks in the lists of the
host have a `process_out`, and every child is one of them. -/
structure Host.Live (h : Host ρ σ) : Prop where
  outputs : ∀ m ∈ h.modules, isOutput (h.module m).type = true →
    (h.module m).dat.hasProcessOut = true
  uplinks : ∀ m ∈ h.uplinks, (h.module m).dat.hasProcessOut = true
  children : ∀ m, ∀ c ∈ (h.module m).children,
    c ∈ h.modules ∧ isOutput (h.module c).type = true ∨ c ∈ h.uplinks

/-- The modules whose `process_out` a cycle calls. -/
def Host.Sends (h : Host ρ σ) (m : ModulePtr) : Prop :=
  m ∈ h.modules ∧ isOutput (h.module m).type = true ∨ m ∈ h.uplinks

/-! ### Forwarding in the main loop -/

/-- The main loop on its way from `h₀`: what it has forwarded is in the queue of a
child, at a time in the period. -/
structure ForwardInv (last nframes : NFrames) (h₀ h : Host ρ σ) : Prop where
  inv : QueueInv h
  graph : SameGraph h₀ h
  dat : ∀ m, (h.module m).dat = (h₀.module m).dat
  drained : h.drained = h₀.drained
  forwarded : ∃ new, h.forwarded = h₀.forwarded ++ new ∧ ∀ p ∈ new,
    (∃ m, p.1 ∈ (h₀.module m).children) ∧ p.2 ∈ (h.module p.1).queue ∧
      last.toNat ≤ p.2.time.toNat ∧ p.2.time.toNat < last.toNat + nframes.toNat

namespace ForwardInv

variable {P} {last nframes : NFrames} {h₀ h : Host ρ σ}

theorem refl (hi : QueueInv h) : ForwardInv last nframes h h :=
  ⟨hi, SameGraph.refl h, fun _ => rfl, rfl, [], (List.append_nil _).symm,
    fun _ hp => absurd hp List.not_mem_nil⟩

theorem mem_moduleSchedule {m n : ModulePtr} (hi : QueueInv h) (time : NFrames)
    (buf : List UInt8) {e : Event}
    (he : e ∈ (h.module n).queue ∨ n = m ∧ e = ⟨h.seq, 0, time, buf⟩) :
    e ∈ ((moduleSchedule P m time buf h).module n).queue := by
  rw [moduleSchedule_module]
  split
  · next hn =>
    subst hn
    refine (mem_sortedInsert P.eina (hi.module n).ordered).mpr ?_
    rcases he with he | ⟨-, rfl⟩
    · exact Or.inr he
    · exact Or.inl rfl
  · next hn => exact he.resolve_right fun h => hn h.1

theorem dat_moduleSchedule (m n : ModulePtr) (time : NFrames) (buf : List UInt8) (h : Host ρ σ) :
    ((moduleSchedule P m time buf h).module n).dat = (h.module n).dat := by
  rw [moduleSchedule_module]
  split
  · next hn => rw [hn]
  · rfl

theorem moduleSchedule (fi : ForwardInv last nframes h₀ h) (m : ModulePtr) (time : NFrames)
    (buf : List UInt8) : ForwardInv last nframes h₀ (moduleSchedule P m time buf h) where
  inv := fi.inv.moduleSchedule m time buf
  graph := fi.graph.trans (moduleSchedule_dispatches P m time buf h).graph
  dat n := (dat_moduleSchedule m n time buf h).trans (fi.dat n)
  drained := fi.drained
  forwarded := by
    obtain ⟨new, hnew, hall⟩ := fi.forwarded
    refine ⟨new, hnew, fun p hp => ?_⟩
    obtain ⟨hchild, hmem, htime⟩ := hall p hp
    exact ⟨hchild, mem_moduleSchedule fi.inv time buf (Or.inl hmem), htime⟩

/-- Forwarding an event whose time is in the period. -/
theorem forward (fi : ForwardInv last nframes h₀ h) (tev : Event)
    (hge : last.toNat ≤ tev.time.toNat) (hlt : tev.time.toNat < last.toNat + nframes.toNat)
    {child : ModulePtr} (hchild : ∃ m, child ∈ (h₀.module m).children) :
    ForwardInv last nframes h₀ (forward P tev child h) := by
  have fi' := fi.moduleSchedule (P := P) child tev.time tev.buf
  obtain ⟨new, hnew, hall⟩ := fi'.forwarded
  refine ⟨fi'.inv.of_eq (le_refl _) (List.Sublist.refl _) rfl, fi'.graph.trans
    ⟨rfl, rfl, fun _ => rfl, fun _ => rfl, fun _ => rfl⟩, fi'.dat, fi'.drained,
    new ++ [(child, ⟨h.seq, 0, tev.time, tev.buf⟩)], ?_, ?_⟩
  · rw [← List.append_assoc, ← hnew]
    rfl
  · intro p hp
    rcases List.mem_append.mp hp with hp | hp
    · exact hall p hp
    · rw [List.mem_singleton.mp hp]
      exact ⟨hchild, mem_moduleSchedule fi.inv _ _ (Or.inr ⟨rfl, rfl⟩), hge, hlt⟩

/-- What the invariant does not read may change. -/
theorem of_eq {h' : Host ρ σ} (fi : ForwardInv last nframes h₀ h) (hseq : h'.seq = h.seq)
    (hqueue : h'.queue.Sublist h.queue) (hmodule : h'.module = h.module)
    (hmodules : h'.modules = h.modules) (huplinks : h'.uplinks = h.uplinks)
    (hdrained : h'.drained = h.drained) (hforwarded : h'.forwarded = h.forwarded) :
    ForwardInv last nframes h₀ h' where
  inv := fi.inv.of_eq (le_of_eq hseq.symm) hqueue hmodule
  graph := by
    refine fi.graph.trans ⟨hmodules, huplinks, ?_, ?_, ?_⟩ <;> intro m <;> rw [hmodule]
  dat m := by rw [hmodule]; exact fi.dat m
  drained := hdrained.trans fi.drained
  forwarded := by
    rw [hforwarded, hmodule]
    exact fi.forwarded

/-- One iteration of the main loop on a due event. -/
theorem mainBody (fi : ForwardInv last nframes h₀ h) (hw : NoWrap last nframes)
    (hn : 0 < nframes) {tev : Event} (hdue : due last nframes tev = true) :
    ForwardInv last nframes h₀ (mainBody P last tev h) := by
  obtain ⟨hge, hlt⟩ := clamp_mem_period hw hn hdue
  have hstart : ForwardInv last nframes h₀
      (h.messagePush (lateReport "main loop" last tev.time)) :=
    fi.of_eq rfl (List.Sublist.refl _) rfl rfl rfl rfl rfl
  have hdispatch : ForwardInv last nframes h₀
      (dispatchEvent P { tev with time := clamp last last tev.time }
        (h.messagePush (lateReport "main loop" last tev.time))) := by
    refine dispatchEvent_invariant P (I := ForwardInv last nframes h₀)
      (C := fun c => ∃ m, c ∈ (h₀.module m).children) ?_ ?_ ?_ ?_ hstart
    · intro h m fi c hc
      exact ⟨m, fi.graph.children m ▸ hc⟩
    · intro h child hchild fi
      exact fi.forward (P := P) { tev with time := clamp last last tev.time }
        hge hlt hchild
    · intro h m time buf fi
      exact fi.moduleSchedule m time buf
    · intro h lua messages delivered fi
      exact fi.of_eq rfl (List.Sublist.refl _) rfl rfl rfl rfl rfl
  exact hdispatch.of_eq rfl List.eraseP_sublist rfl rfl rfl rfl rfl

theorem mainLoop (fi : ForwardInv last nframes h₀ h) (hw : NoWrap last nframes)
    (hn : 0 < nframes) : ForwardInv last nframes h₀ (mainLoop P last nframes h) := by
  unfold Tjost.mainLoop
  rw [dueLoop_eq_foldl fi.inv.host.ordered]
  have hall : ∀ tev ∈ dueEvents last nframes h.queue, due last nframes tev = true :=
    fun tev htev => (List.mem_filter.mp htev).2
  revert hall
  generalize dueEvents last nframes h.queue = l
  intro hall
  induction l generalizing h with
  | nil => exact fi
  | cons tev l ih =>
    exact ih (fi.mainBody hw hn (hall tev List.mem_cons_self))
      fun e he => hall e (List.mem_cons_of_mem _ he)

end ForwardInv

/-- The main loop leaves the data of the modules alone. -/
theorem mainLoop_dat (last nframes : NFrames) (h : Host ρ σ) (m : ModulePtr) :
    ((mainLoop P last nframes h).module m).dat = (h.module m).dat := by
  refine dueLoop_invariant (I := fun h' => (h'.module m).dat = (h.module m).dat) h.queue ?_ h rfl
  intro tev _ h' hdat
  exact dispatchEvent_invariant P (I := fun h' : Host ρ σ => (h'.module m).dat = (h.module m).dat)
    (C := fun _ => True) (fun _ _ _ _ _ => trivial)
    (fun h₁ child _ hd => (ForwardInv.dat_moduleSchedule child m _ _ h₁).trans hd)
    (fun h₁ n time buf hd => (ForwardInv.dat_moduleSchedule n m time buf h₁).trans hd)
    (fun _ _ _ _ hd => hd) hdat

/-! ### Draining the outputs -/

/-- The queue of a module was drained, and what was taken and is not late is in
`new`. -/
def Gone (last nframes : NFrames) (m : ModulePtr) (new : List (ModulePtr × Drained))
    (h h' : Host ρ σ) : Prop :=
  (h'.module m).queue = restEvents last nframes (h.module m).queue ∧
    ∀ e ∈ dueEvents last nframes (h.module m).queue, last.toNat ≤ e.time.toNat →
      (m, ⟨e, e.time, false⟩) ∈ new

/-- The part of a cycle from `h` to `h'` drained the modules of `S`, and left the
queues of the modules that it did not drain. -/
def Sent (last nframes : NFrames) (S : ModulePtr → Prop) (h h' : Host ρ σ) : Prop :=
  ∃ new, h'.drained = h.drained ++ new ∧
    ∀ m, Gone last nframes m new h h' ∨ ¬ S m ∧ (h'.module m).queue = (h.module m).queue

section Sent

variable {P} {last nframes : NFrames} {S S' : ModulePtr → Prop} {h h' h'' : Host ρ σ}

theorem Sent.refl (h : Host ρ σ) : Sent last nframes (fun _ => False) h h :=
  ⟨[], (List.append_nil _).symm, fun _ => Or.inr ⟨id, rfl⟩⟩

/-- A queue that is drained twice loses its due events the first time. -/
theorem Sent.trans (a : Sent last nframes S h h') (b : Sent last nframes S' h' h'') :
    Sent last nframes (fun m => S m ∨ S' m) h h'' := by
  obtain ⟨new, hnew, ha⟩ := a
  obtain ⟨new', hnew', hb⟩ := b
  refine ⟨new ++ new', by rw [hnew', hnew, List.append_assoc], fun m => ?_⟩
  rcases ha m with ⟨hq, hgone⟩ | ⟨hS, hq⟩
  · refine Or.inl ⟨?_, fun e he hge => List.mem_append_left _ (hgone e he hge)⟩
    rcases hb m with ⟨hq', -⟩ | ⟨-, hq'⟩
    · rw [hq', hq, restEvents_restEvents]
    · rw [hq', hq]
  · rcases hb m with ⟨hq', hgone'⟩ | ⟨hS', hq'⟩
    · rw [hq] at hq' hgone'
      exact Or.inl ⟨hq', fun e he hge => List.mem_append_right _ (hgone' e he hge)⟩
    · exact Or.inr ⟨fun hor => hor.elim hS hS', hq'.trans hq⟩

theorem Sent.mono (a : Sent last nframes S h h') (hS : ∀ m, S' m → S m) :
    Sent last nframes S' h h' := by
  obtain ⟨new, hnew, ha⟩ := a
  exact ⟨new, hnew, fun m => (ha m).imp_right fun hm => ⟨fun h => hm.1 (hS m h), hm.2⟩⟩

variable (P last nframes) in
theorem processOut_sent (hi : QueueInv h) {m : ModulePtr}
    (hout : (h.module m).dat.hasProcessOut = true) :
    Sent last nframes (· = m) h (processOut P last nframes m h) := by
  obtain ⟨hqueue, hdrained⟩ := processOut_drains P last nframes
    (hi.module m).ordered hout
  refine ⟨_, hdrained, fun n => ?_⟩
  by_cases hn : n = m
  · subst hn
    refine Or.inl ⟨hqueue, fun e he hge => List.mem_map.mpr ⟨e, he, ?_⟩⟩
    rw [Drained.of_eq hge]
  · exact Or.inr ⟨hn, by rw [processOut_module_of_ne P hn]⟩

/-- A `process_out` keeps the kind of data of every module. -/
theorem processOut_hasProcessOut (last nframes : NFrames) (m n : ModulePtr) (h : Host ρ σ) :
    ((processOut P last nframes m h).module n).dat.hasProcessOut =
      (h.module n).dat.hasProcessOut := by
  by_cases hn : n = m
  · subst hn
    unfold processOut
    cases hdat : (h.module n).dat <;> simp only [hdat]
    all_goals exact (congrArg ModuleDat.hasProcessOut (Host.putBack_dat _ n _ _ _)).trans rfl
  · rw [processOut_module_of_ne P hn]

/-- The modules of a list that pass the test have a `process_out`. -/
def Outs (h : Host ρ σ) (test : Module ρ → Bool) (l : List ModulePtr) : Prop :=
  ∀ m ∈ l, test (h.module m) = true → (h.module m).dat.hasProcessOut = true

variable (P last nframes) in
theorem sendAll_sent (test : Module ρ → Bool)
    (htest : ∀ x y : Module ρ, x.type = y.type → test x = test y) {l : List ModulePtr}
    (hi : QueueInv h) (hout : Outs h test l) :
    Sent last nframes (fun m => m ∈ l ∧ test (h.module m) = true) h
      (sendAll P last nframes test l h) := by
  induction l generalizing h with
  | nil => exact (Sent.refl h).mono fun m hm => absurd hm.1 List.not_mem_nil
  | cons m l ih =>
    have hl : Outs h test l := fun n hn => hout n (List.mem_cons_of_mem _ hn)
    unfold sendAll
    by_cases hm : test (h.module m) = true
    · rw [if_pos hm]
      -- the types do not change, so neither does what passes the test
      have htype : ∀ n, test ((processOut P last nframes m h).module n) = test (h.module n) :=
        fun n => htest _ _ ((processOut_graph P last nframes m h).type n)
      have hl' : Outs (processOut P last nframes m h) test l := by
        intro n hn hpass
        rw [processOut_hasProcessOut]
        exact hl n hn ((htype n) ▸ hpass)
      have hfirst := processOut_sent P last nframes hi
        (hout m List.mem_cons_self hm)
      refine (hfirst.trans (ih (hi.processOut P last nframes m) hl')).mono ?_
      rintro n ⟨hn, hpass⟩
      rcases List.mem_cons.mp hn with rfl | hn
      · exact Or.inl rfl
      · exact Or.inr ⟨hn, (htype n).trans hpass⟩
    · rw [if_neg hm]
      -- the module is passed over
      refine (ih hi hl).mono ?_
      rintro n ⟨hn, hpass⟩
      rcases List.mem_cons.mp hn with rfl | hn
      · exact absurd hpass hm
      · exact ⟨hn, hpass⟩

theorem sendAll_hasProcessOut (last nframes : NFrames) (test : Module ρ → Bool)
    (l : List ModulePtr) (n : ModulePtr) (h : Host ρ σ) :
    ((sendAll P last nframes test l h).module n).dat.hasProcessOut =
      (h.module n).dat.hasProcessOut := by
  induction l generalizing h with
  | nil => rfl
  | cons m l ih =>
    unfold sendAll
    rw [ih]
    split
    · exact processOut_hasProcessOut last nframes m n h
    · rfl

theorem sendOut_hasProcessOut (last nframes : NFrames) (n : ModulePtr) (h : Host ρ σ) :
    ((sendOut P last nframes h).module n).dat.hasProcessOut =
      (h.module n).dat.hasProcessOut := by
  unfold sendOut
  simp only
  split
  · exact (sendAll_hasProcessOut _ _ _ _ _ _).trans (sendAll_hasProcessOut _ _ _ _ _ _)
  · exact (sendAll_hasProcessOut _ _ _ _ _ _).trans (sendAll_hasProcessOut _ _ _ _ _ _)

variable (P last nframes) in
/-- The second half of a cycle drains every output and every uplink. -/
theorem sendOut_sent (hi : QueueInv h) (hg : h.Live) :
    Sent last nframes h.Sends h (sendOut P last nframes h) := by
  have hfirst := sendAll_sent P last nframes (fun x => isOutput x.type)
    (fun x y hxy => by rw [hxy]) hi hg.outputs
  set h₁ := sendAll P last nframes (fun x => isOutput x.type) h.modules h with hh₁
  have hi₁ : QueueInv h₁ := (hi.sendAll_schedules last nframes _ _).1
  have g₁ : SameGraph h h₁ := sendAll_graph P last nframes _ _ h
  have hout₁ : Outs h₁ (fun _ => true) h₁.uplinks := by
    intro m hm _
    rw [hh₁, sendAll_hasProcessOut]
    exact hg.uplinks m (g₁.uplinks ▸ hm)
  have hsecond := sendAll_sent P last nframes (fun _ => true)
    (fun _ _ _ => rfl) hi₁ hout₁
  have hboth : Sent last nframes h.Sends h
      (sendAll P last nframes (fun _ => true) h₁.uplinks h₁) := by
    refine (hfirst.trans hsecond).mono ?_
    rintro m (hm | hm)
    · exact Or.inl hm
    · exact Or.inr ⟨g₁.uplinks ▸ hm, rfl⟩
  unfold sendOut
  simp only
  split
  · exact hboth
  · exact hboth

end Sent

/-! ### The cycle -/

section Cycle

variable {P} {last nframes : NFrames} {h : Host ρ σ}

theorem receive_keeps (arrivals : List SchedCall) (h : Host ρ σ) :
    (receive P arrivals h).module = h.module ∧ (receive P arrivals h).drained = h.drained ∧
      (receive P arrivals h).forwarded = h.forwarded := by
  induction arrivals generalizing h with
  | nil => exact ⟨rfl, rfl, rfl⟩
  | cons c l ih =>
    obtain ⟨hmodule, hdrained, hforwarded⟩ := ih (c.run P h)
    refine ⟨hmodule.trans ?_, hdrained.trans ?_, hforwarded.trans ?_⟩ <;>
      (unfold SchedCall.run; split <;> rfl)

theorem receive_append (calls calls' : List SchedCall) (h : Host ρ σ) :
    receive P (calls ++ calls') h = receive P calls' (receive P calls h) := by
  induction calls generalizing h with
  | nil => rfl
  | cons c calls ih => exact ih (c.run P h)

theorem sendAll_forwarded (last nframes : NFrames) (test : Module ρ → Bool)
    (l : List ModulePtr) (h : Host ρ σ) :
    (sendAll P last nframes test l h).forwarded = h.forwarded := by
  induction l generalizing h with
  | nil => rfl
  | cons m l ih =>
    unfold sendAll
    rw [ih]
    split
    · exact processOut_invariant P last nframes (I := fun h' => h'.forwarded = h.forwarded)
        (fun _ _ _ _ hf => hf) (fun _ _ _ hf => hf) (fun _ _ _ _ hf => hf) rfl m
    · rfl

theorem sendOut_forwarded (last nframes : NFrames) (h : Host ρ σ) :
    (sendOut P last nframes h).forwarded = h.forwarded := by
  unfold sendOut
  simp only
  split
  · exact (sendAll_forwarded _ _ _ _ _).trans (sendAll_forwarded _ _ _ _ _)
  · exact (sendAll_forwarded _ _ _ _ _).trans (sendAll_forwarded _ _ _ _ _)

/-- A host with the same graph and data is as alive. -/
theorem Host.Live.of_graph {h' : Host ρ σ} (hg : h.Live) (g : SameGraph h h')
    (hdat : ∀ m, (h'.module m).dat = (h.module m).dat) : h'.Live where
  outputs m hm ht := by
    rw [hdat]
    exact hg.outputs m (g.modules ▸ hm) (g.type m ▸ ht)
  uplinks m hm := by
    rw [hdat]
    exact hg.uplinks m (g.uplinks ▸ hm)
  children m c hc := by
    rw [g.modules, g.uplinks, g.type]
    exact hg.children m c (g.children m ▸ hc)

/-- **Output in the same cycle.** -/
theorem process_sameCycle (hi : QueueInv h) (hg : h.Live) (hw : NoWrap last nframes)
    (hn : 0 < nframes) (arrivals : List SchedCall) :
    (∀ m, (h.module m).dat.hasProcessOut = true →
      let due := dueEvents last nframes (h.module m).queue
      let h' := processOut P last nframes m h
      due = ((h.module m).queue.filter fun e => e.time.toNat < last.toNat + nframes.toNat) ∧
      (h'.module m).queue =
        ((h.module m).queue.filter fun e => last.toNat + nframes.toNat ≤ e.time.toNat) ∧
      (∀ e ∈ due, clamp last last e.time - last < nframes) ∧
      due.Pairwise (fun a b =>
        clamp last last a.time - last ≤ clamp last last b.time - last) ∧
      Emits P last nframes m h h') ∧
    let h' := process P last nframes arrivals h
    (∀ p ∈ h'.forwarded.drop h.forwarded.length,
      p.2 ∉ (h'.module p.1).queue ∧
        (p.1, ⟨p.2, p.2.time, false⟩) ∈ h'.drained.drop h.drained.length) ∧
      ∀ m, h.Sends m → ∀ e ∈ (h'.module m).queue,
        last.toNat + nframes.toNat ≤ e.time.toNat := by
  constructor
  · intro m hout due h'
    have hq := (hi.module m).ordered
    refine ⟨hw.dueEvents_eq _, ?_, ?_, Ordered.offset_pairwise (hq.filter _) last, ?_⟩
    · rw [← hw.restEvents_eq]
      exact (processOut_drains P last nframes hq hout).1
    · exact fun e he => offset_lt hw hn (List.mem_filter.mp he).2
    · exact processOut_emits P hw hn hq
  · intro h'
    set h₁ := receiveIn P arrivals h with hh₁
    set h₂ := mainLoop P last nframes h₁ with hh₂
    have hi₁ : QueueInv h₁ := hi.receiveIn arrivals
    obtain ⟨hmodule₁, hdrained₁, hforwarded₁⟩ := receive_keeps (P := P) arrivals h
    have g₁ : SameGraph h h₁ :=
      have g := receive_graph P arrivals h
      ⟨g.modules, g.uplinks, g.type, g.children, g.hasLuaCallback⟩
    have fi : ForwardInv last nframes h₁ h₂ := (ForwardInv.refl hi₁).mainLoop hw hn
    have hg₂ : h₂.Live := (hg.of_graph g₁ fun m => congrArg (fun f => (f m).dat) hmodule₁).of_graph
      fi.graph fi.dat
    obtain ⟨taken, htaken, hsent⟩ := sendOut_sent P last nframes fi.inv hg₂
    -- the graph is the one the cycle started with
    have hsends : ∀ m, h.Sends m → h₂.Sends m := by
      intro m hm
      have g := g₁.trans fi.graph
      unfold Host.Sends
      rw [g.modules, g.uplinks, g.type]
      exact hm
    have hgone : ∀ m, h.Sends m → Gone last nframes m taken h₂ h' := fun m hm =>
      (hsent m).resolve_right fun h => h.1 (hsends m hm)
    constructor
    · intro p hp
      obtain ⟨new, hnew, hall⟩ := fi.forwarded
      have hmem : p ∈ new := by
        have hf : h'.forwarded = h.forwarded ++ new := by
          calc h'.forwarded = h₂.forwarded := sendOut_forwarded last nframes h₂
            _ = h₁.forwarded ++ new := hnew
            _ = h.forwarded ++ new := congrArg (· ++ new) hforwarded₁
        rwa [hf, List.drop_left] at hp
      obtain ⟨⟨m, hchild⟩, hqueue, hge, hlt⟩ := hall p hmem
      have hS : h.Sends p.1 := by
        rw [g₁.children] at hchild
        exact hg.children m p.1 hchild
      obtain ⟨hrest, hrecord⟩ := hgone p.1 hS
      have hdue : due last nframes p.2 = true := hw.due_iff.mpr hlt
      constructor
      · rw [hrest]
        intro hleft
        have hndue := (List.mem_filter.mp hleft).2
        simp [hdue] at hndue
      · have hd : h'.drained = h.drained ++ taken :=
          htaken.trans (by rw [fi.drained]; exact congrArg (· ++ taken) hdrained₁)
        rw [hd, List.drop_left]
        exact hrecord p.2 (List.mem_filter.mpr ⟨hqueue, hdue⟩) hge
    · intro m hm e he
      rw [(hgone m hm).1, hw.restEvents_eq] at he
      simpa using (List.mem_filter.mp he).2

end Cycle

/-- The pair of an input and an output is alive. -/
theorem Host.pair_live : (Host.pair (.oscOut [])).Live where
  outputs m hm ht := by
    have hm' : m = 1 ∨ m = 2 := by simpa [Host.pair, Host.start] using hm
    rcases hm' with rfl | rfl
    · exact absurd ht (by decide)
    · rfl
  uplinks m hm := absurd hm List.not_mem_nil
  children m c hc := by
    unfold Host.pair Host.start at hc ⊢
    simp only at hc
    split at hc
    · obtain rfl := List.mem_singleton.mp hc
      exact Or.inl ⟨by decide, by decide⟩
    · exact absurd hc List.not_mem_nil

theorem process_sameCycle_pair :
    let P := Platform.plain 64 (LuaScript.pass 2)
    let h' := process P 4 8 [⟨false, 1, 6, []⟩, ⟨false, 1, 2, []⟩] (Host.pair (.oscOut []))
    (∀ p ∈ h'.forwarded.drop 0, p.2 ∉ (h'.module p.1).queue ∧
        (p.1, ⟨p.2, p.2.time, false⟩) ∈ h'.drained.drop 0) ∧
      h'.forwarded.map (fun p => (p.1, p.2.time)) = [(2, 4), (2, 6)] :=
  ⟨((@process_sameCycle _ _ (Platform.plain 64 (LuaScript.pass 2)) 4 8 _
    (Host.pair_queueInv (.oscOut [])) Host.pair_live (by decide) (by decide)
    [⟨false, 1, 6, []⟩, ⟨false, 1, 2, []⟩]).2).1, by decide +kernel⟩

/-- **Parts of events, and other times.** One packet with two MIDI arguments, at
frame 5 of a period that starts at frame 4. A `midi_out` whose port has room for
one of them writes the first and drops the second; a `write` that has been
recording since frame 2 hands the packet on with the time 3, and a `dump` with
the time 5; a `cv_out` finds nothing in it. In an empty period a late event is
due and has no offset. -/
theorem sameCycle_parts :
    let P := Platform.plain 3 (LuaScript.pass 2)
    let packet : List UInt8 := [47, 109, 0, 0, 44, 109, 109, 0, 0, 1, 2, 3, 0, 4, 5, 6]
    let pipe := ByteRing.Fifo.empty ringbufSize ringbufSize_pos
    let after := fun dat => processOut P 4 8 2 (moduleSchedule P 2 5 packet (Host.pair dat))
    (∃ port, ((after (.midiOut [])).module 2).dat = .midiOut port ∧
        port = [⟨5 - 4, [1, 2, 3]⟩] ∧
        (after (.midiOut [])).messages = ["midi_out: buffer overflow"]) ∧
      (∃ pipe', ((after (.write pipe 2)).module 2).dat = .write pipe' 2 ∧
        P.ring.contents pipe' = (P.stale ⟨0, 0, 3, packet⟩).record 2 3 packet) ∧
      (∃ pipe', ((after (.dump pipe)).module 2).dat = .dump pipe' ∧
        P.ring.contents pipe' = (P.stale ⟨0, 0, 5, packet⟩).record 2 5 packet) ∧
      (3 ≠ clamp 4 4 5 - 4 ∧ 5 ≠ clamp 4 4 5 - 4) ∧
      cvChanges P 4 [⟨0, 0, 5, packet⟩] = [] ∧
      (due 4 0 ⟨0, 0, 2, packet⟩ = true ∧ ¬ clamp 4 4 2 - 4 < 0) := by
  intro P packet pipe after
  refine ⟨⟨_, rfl, ?_, ?_⟩, ⟨_, rfl, ?_⟩, ⟨_, rfl, ?_⟩, ⟨?_, ?_⟩, ?_, ?_, ?_⟩
  all_goals decide +kernel

end Tjost
