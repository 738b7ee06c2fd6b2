import Tjost.Library.BinaryFloat
import Tjost.Library.SampleHold
import Tjost.Host.SameCycle

/-!
# Control voltages

`cv_in` sends the changes of its input port as messages, and `cv_out` fills its
output port with the values that such messages set. Both start with the value `0`
and carry their value from period to period.

`CvSystem.process` is a cycle of a host with these two modules. `cv_lossless`: if
`cv_out` is the only child of `cv_in` and gets events from nowhere else, its port has
after each cycle the samples of the port of `cv_in`, up to the comparison `!=` that
`cv_in` makes.

The changes and the way back are `SampleHold.changes` and `SampleHold.hold`. What
lies between is the way of the events: `cv_in` schedules them in the order of their
frames (`CvIn.processIn_eq`), the host queue keeps them in this order among all
others (`receive_pending`), the main loop puts exactly them into the queue of
`cv_out` (`mainLoop_stamps`), and the loop of `cv_out` makes the changes of them
again (`cvChanges_stamps`).
-/

open SampleHold

namespace Tjost

/-! ### Samples -/

/-- `!=` on samples, which are given by their bits. -/
def sampleNe (a b : UInt32) : Bool :=
  !(BinaryFloat.binary32.decode a.toNat).beq (BinaryFloat.binary32.decode b.toNat)

/-- The samples are the same, as far as `!=` can tell. -/
def SameSample (a b : UInt32) : Prop := sampleNe a b = false

instance : DecidableRel SameSample := fun a b => inferInstanceAs (Decidable (sampleNe a b = false))

def IsNaN (a : UInt32) : Prop := BinaryFloat.binary32.decode a.toNat = .nan

instance (a : UInt32) : Decidable (IsNaN a) := inferInstanceAs (Decidable (_ = _))

theorem SameSample.of_not_nan {a : UInt32} (ha : ¬ IsNaN a) : SameSample a a := by
  unfold SameSample sampleNe
  rw [BinaryFloat.Number.beq_self ha]
  rfl

/-! ### The input -/

/-- The part of libosc that `cv_in` uses: what a call writes behind the pointer. -/
structure OscWriter where
  setPath : List Char → List UInt8
  setFmt : List Char → List UInt8
  setFloat : UInt32 → List UInt8
  length_setPath : ∀ path, (setPath path).length = oscPadded path.length
  length_setFmt : ∀ fmt, (setFmt fmt).length = oscPadded (fmt.length + 1)
  length_setFloat : ∀ value, (setFloat value).length = 4

namespace CvIn

/-- `CV_PATH`. -/
def cvPath : List Char := ['/', 'c', 'v']

/-- `CV_FMT`. -/
def cvFmt : List Char := ['f']

/-- `ALLOC_LEN`. -/
def allocLen : ℕ := 12

variable (W : OscWriter)

/-- The message of a change. -/
def message (value : UInt32) : List UInt8 :=
  W.setPath cvPath ++ W.setFmt cvFmt ++ W.setFloat value

/-- The message fills the block that is allocated for it. -/
theorem length_message (value : UInt32) : (message W value).length = allocLen := by
  unfold message
  rw [List.length_append, List.length_append, W.length_setPath, W.length_setFmt,
    W.length_setFloat]
  rfl

variable {ρ σ : Type} (P : Platform ρ σ) (m : ModulePtr) (last nframes : NFrames)
  (portBuf : ℕ → UInt32)

/-- The body of the loop in `process_in`, on `dat->value` and the host. -/
def body (s : UInt32 × Host ρ σ) (i : ℕ) : UInt32 × Host ρ σ :=
  if sampleNe (portBuf i) s.1 then
    let value := portBuf i
    (value, hostScheduleInline P m (last + UInt32.ofNat i) (message W value) s.2)
  else s

/-- `process_in`. -/
def processIn (value : UInt32) (h : Host ρ σ) : UInt32 × Host ρ σ :=
  (List.range nframes.toNat).foldl (body W P m last portBuf) (value, h)

/-- What `process_in` schedules for the first `n` samples. -/
def calls (value : UInt32) (n : ℕ) : List SchedCall :=
  (changes SameSample portBuf value n).map fun c =>
    ⟨true, m, last + UInt32.ofNat c.1, message W c.2⟩

end CvIn

variable {ρ σ : Type} (P : Platform ρ σ)

/-- **The loop of `cv_in`** keeps the value of `SampleHold.kept` and schedules the
changes. -/
theorem CvIn.processIn_eq (W : OscWriter) (m : ModulePtr) (last nframes : NFrames)
    (portBuf : ℕ → UInt32) (value : UInt32) (h : Host ρ σ) :
    CvIn.processIn W P m last nframes portBuf value h =
      (kept SameSample portBuf value nframes.toNat,
        receive P (CvIn.calls W m last portBuf value nframes.toNat) h) := by
  unfold CvIn.processIn
  induction nframes.toNat with
  | zero => rfl
  | succ n ih =>
    rw [List.range_succ, List.foldl_append, ih, kept_succ]
    unfold CvIn.calls
    rw [changes_succ, List.map_append, receive_append]
    show CvIn.body W P m last portBuf _ n = _
    unfold CvIn.body
    by_cases hsame : SameSample (portBuf n) (kept SameSample portBuf value n)
    · have hnot : ¬ sampleNe (portBuf n) (kept SameSample portBuf value n) = true := by
        rw [hsame]
        exact Bool.false_ne_true
      rw [if_neg hnot, if_pos hsame, if_pos hsame]
      rfl
    · have hne : sampleNe (portBuf n) (kept SameSample portBuf value n) = true :=
        Bool.of_not_eq_false hsame
      rw [if_pos hne, if_neg hsame, if_neg hsame]
      rfl

/-! ### The events of `cv_in` in the queues -/

/-- The time and the bytes of an event. -/
def Event.stamp (tev : Event) : NFrames × List UInt8 := (tev.time, tev.buf)

/-- The events of a module in the host queue. -/
def Host.pending (h : Host ρ σ) (m : ModulePtr) : List Event :=
  h.queue.filter fun e => e.module == m

section Pending

variable {P} {h : Host ρ σ} {m : ModulePtr}

theorem hostSchedule_pending (hq : Ordered h.queue) (n : ModulePtr) (time : NFrames)
    (buf : List UInt8) :
    (hostSchedule P n time buf h).pending m =
      if n = m then
        StableQueue.insertStable (fun e : Event => e.time.toNat) ⟨h.seq, n, time, buf⟩ (h.pending m)
      else h.pending m := by
  show (P.eina.sortedInsert h.queue ⟨h.seq, n, time, buf⟩ scheduleSort).filter _ = _
  rw [sortedInsert_eq P.eina hq, StableQueue.filter_insertStable hq]
  exact if_congr beq_iff_eq rfl rfl

theorem SchedCall.run_pending (hi : QueueInv h) (c : SchedCall) :
    (c.run P h).pending m =
      if c.module = m then
        StableQueue.insertStable (fun e : Event => e.time.toNat) ⟨h.seq, c.module, c.time, c.buf⟩
          (h.pending m)
      else h.pending m := by
  unfold SchedCall.run
  split
  · exact hostSchedule_pending hi.host.ordered c.module c.time c.buf
  · exact hostSchedule_pending hi.host.ordered c.module c.time c.buf

/-- The calls of other modules do not change what is pending for a module. -/
theorem receive_pending_of_ne {calls : List SchedCall} (hi : QueueInv h)
    (hne : ∀ c ∈ calls, c.module ≠ m) : (receive P calls h).pending m = h.pending m := by
  induction calls generalizing h with
  | nil => rfl
  | cons c calls ih =>
    have hrest := ih (hi.run (P := P) c) fun d hd => hne d (List.mem_cons_of_mem _ hd)
    refine hrest.trans ?_
    rw [c.run_pending hi, if_neg (hne c List.mem_cons_self)]

/-- **The events of a module stay in order.** Calls in the order of their times,
after everything that is pending, append to what is pending. -/
theorem receive_pending {calls : List SchedCall} (hi : QueueInv h)
    (hm : ∀ c ∈ calls, c.module = m)
    (hsorted : calls.Pairwise fun c d => c.time.toNat ≤ d.time.toNat)
    (hafter : ∀ e ∈ h.pending m, ∀ c ∈ calls, e.time.toNat ≤ c.time.toNat) :
    ((receive P calls h).pending m).map Event.stamp =
      (h.pending m).map Event.stamp ++ calls.map fun c => (c.time, c.buf) := by
  induction calls generalizing h with
  | nil => exact (List.append_nil _).symm
  | cons c calls ih =>
    obtain ⟨hfirst, hsorted⟩ := List.pairwise_cons.mp hsorted
    have hpending : (c.run P h).pending m = h.pending m ++ [⟨h.seq, c.module, c.time, c.buf⟩] := by
      rw [c.run_pending hi, if_pos (hm c List.mem_cons_self)]
      exact StableQueue.insertStable_of_le fun e he => hafter e he c List.mem_cons_self
    have hafter' : ∀ e ∈ (c.run P h).pending m, ∀ d ∈ calls, e.time.toNat ≤ d.time.toNat := by
      intro e he d hd
      rw [hpending] at he
      rcases List.mem_append.mp he with he | he
      · exact hafter e he d (List.mem_cons_of_mem _ hd)
      · rw [List.mem_singleton.mp he]
        exact hfirst d hd
    have hrest := ih (hi.run (P := P) c) (fun d hd => hm d (List.mem_cons_of_mem _ hd))
      hsorted hafter'
    show ((receive P calls (c.run P h)).pending m).map Event.stamp = _
    rw [hrest, hpending, List.map_append, List.map_cons, List.map_cons, List.append_assoc]
    rfl

end Pending

/-! ### A `cv_out` behind a `cv_in` -/

/-- `cvOut` is the only child of `cvIn`, and gets events from nowhere else: no other
module has it as a child, no uplink is one of the two, and no responder calls it.
The list of the modules holds a module once. -/
structure CvWired (h : Host ρ σ) (cvIn cvOut : ModulePtr) : Prop where
  ne_broadcast : cvIn ≠ moduleBroadcast
  children : (h.module cvIn).children = [cvOut]
  only : ∀ m, cvOut ∈ (h.module m).children → m = cvIn
  uplinks : cvIn ∉ h.uplinks ∧ cvOut ∉ h.uplinks
  responders : ∀ st m time buf, ∀ c ∈ (P.lua.respond st m time buf).calls, c.module ≠ cvOut
  nodup : h.modules.Nodup
  mem : cvOut ∈ h.modules
  output : isOutput (h.module cvOut).type = true

section Wired

variable {P} {h h' : Host ρ σ} {cvIn cvOut : ModulePtr} {last nframes : NFrames}

theorem CvWired.of_graph (hw : CvWired P h cvIn cvOut) (g : SameGraph h h') :
    CvWired P h' cvIn cvOut where
  ne_broadcast := hw.ne_broadcast
  children := (g.children cvIn).trans hw.children
  only m hm := hw.only m (g.children m ▸ hm)
  uplinks := g.uplinks ▸ hw.uplinks
  responders := hw.responders
  nodup := g.modules ▸ hw.nodup
  mem := g.modules ▸ hw.mem
  output := (congrArg isOutput (g.type cvOut)).trans hw.output

theorem moduleSchedule_module_of_ne {m n : ModulePtr} (hn : n ≠ m) (time : NFrames)
    (buf : List UInt8) (h : Host ρ σ) : (moduleSchedule P m time buf h).module n = h.module n := by
  rw [moduleSchedule_module, if_neg hn]

/-- The responders leave `cv_out` alone. -/
theorem CvWired.luaDeserialize (hw : CvWired P h cvIn cvOut) (tev : Event) (h₁ : Host ρ σ) :
    (luaDeserialize P tev h₁).module cvOut = h₁.module cvOut := by
  refine luaDeserialize_rule P (I := fun h₂ => h₂.module cvOut = h₁.module cvOut) ?_
    (fun _ _ _ _ h₂ => h₂) rfl
  intro st m time buf c hc h₂ hsame
  rw [moduleSchedule_module_of_ne (hw.responders st m time buf c hc).symm]
  exact hsame

/-- An event of another module does not reach `cv_out`. -/
theorem CvWired.dispatchEvent_of_ne (hw : CvWired P h cvIn cvOut) {tev : Event}
    (hne : tev.module ≠ cvIn) : (dispatchEvent P tev h).module cvOut = h.module cvOut := by
  refine dispatchEvent_rule P (I := fun h₂ => h₂.module cvOut = h.module cvOut) ?_
    (fun _ _ _ _ h₂ => h₂) ?_ rfl
  · intro st m time buf c hc h₂ hsame
    rw [moduleSchedule_module_of_ne (hw.responders st m time buf c hc).symm]
    exact hsame
  · intro u hu child hchild h₂ _ hsame
    -- the child is not `cv_out`, because the receiver is not `cv_in`
    have hu' : u ≠ cvIn := by
      rintro rfl
      unfold Host.receivers at hu
      split at hu
      · exact hw.uplinks.1 hu
      · exact hne (List.mem_singleton.mp hu).symm
    have hchild' : cvOut ≠ child := by
      rintro rfl
      exact hu' (hw.only u hchild)
    show (moduleSchedule P child tev.time tev.buf h₂).module cvOut = _
    rw [moduleSchedule_module_of_ne hchild']
    exact hsame

/-- An event of `cv_in` goes into the queue of `cv_out`. -/
theorem CvWired.dispatchEvent_cvIn (hw : CvWired P h cvIn cvOut) {tev : Event}
    (hm : tev.module = cvIn) :
    (dispatchEvent P tev h).module cvOut =
      (moduleSchedule P cvOut tev.time tev.buf h).module cvOut := by
  have hforward : forwardAll P tev (h.module tev.module).children h = forward P tev cvOut h := by
    rw [hm, hw.children]
    rfl
  unfold dispatchEvent unicast
  rw [if_neg (hm ▸ hw.ne_broadcast), hforward]
  simp only
  split
  · rw [hw.luaDeserialize]
    rfl
  · rfl

variable (last) in
/-- One iteration of the main loop, as far as `cv_out` is concerned. -/
theorem CvWired.mainBody (hw : CvWired P h cvIn cvOut) (tev : Event) :
    (mainBody P last tev h).module cvOut =
      if tev.module = cvIn then
        (moduleSchedule P cvOut (clamp last last tev.time) tev.buf h).module cvOut
      else h.module cvOut := by
  set h₁ := h.messagePush (lateReport "main loop" last tev.time) with hh₁
  have hw₁ : CvWired P h₁ cvIn cvOut :=
    hw.of_graph ⟨rfl, rfl, fun _ => rfl, fun _ => rfl, fun _ => rfl⟩
  show (dispatchEvent P { tev with time := clamp last last tev.time } h₁).module cvOut = _
  split
  · next hm => exact hw₁.dispatchEvent_cvIn hm
  · next hm => exact hw₁.dispatchEvent_of_ne hm

variable (last) in
/-- The main loop over a list of events puts those of `cv_in` into the queue of
`cv_out`, in order. -/
theorem CvWired.foldl_mainBody (hw : CvWired P h cvIn cvOut) (hi : QueueInv h) {l : List Event}
    (hl : Ordered l)
    (hafter : ∀ e ∈ (h.module cvOut).queue, ∀ tev ∈ l,
      e.time.toNat ≤ (clamp last last tev.time).toNat) :
    let h' := l.foldl (fun h tev => Tjost.mainBody P last tev h) h
    (h'.module cvOut).queue.map Event.stamp = (h.module cvOut).queue.map Event.stamp ++
      (l.filter fun e => e.module == cvIn).map fun e => (clamp last last e.time, e.buf) := by
  induction l generalizing h with
  | nil => exact (List.append_nil _).symm
  | cons tev l ih =>
    obtain ⟨hfirst, hl'⟩ := List.pairwise_cons.mp hl
    have hbody := hw.mainBody last tev
    have hw' : CvWired P (Tjost.mainBody P last tev h) cvIn cvOut :=
      hw.of_graph (mainBody_spec P last tev h).1
    have hi' : QueueInv (Tjost.mainBody P last tev h) := hi.mainBody last tev
    intro h'
    by_cases hm : tev.module = cvIn
    · -- the event goes behind all that is in the queue of `cv_out`
      rw [if_pos hm, moduleSchedule_module, if_pos rfl] at hbody
      have hqueue : ((Tjost.mainBody P last tev h).module cvOut).queue =
          (h.module cvOut).queue ++ [⟨h.seq, 0, clamp last last tev.time, tev.buf⟩] := by
        rw [hbody]
        show P.eina.sortedInsert (h.module cvOut).queue _ scheduleSort = _
        rw [sortedInsert_eq P.eina (hi.module cvOut).ordered]
        exact StableQueue.insertStable_of_le fun e he => hafter e he tev List.mem_cons_self
      have hafter' : ∀ e ∈ ((Tjost.mainBody P last tev h).module cvOut).queue, ∀ tev' ∈ l,
          e.time.toNat ≤ (clamp last last tev'.time).toNat := by
        intro e he tev' htev'
        rw [hqueue] at he
        rcases List.mem_append.mp he with he | he
        · exact hafter e he tev' (List.mem_cons_of_mem _ htev')
        · rw [List.mem_singleton.mp he]
          exact clamp_mono last (hfirst tev' htev').key_le
      refine (ih hw' hi' hl' hafter').trans ?_
      rw [hqueue, List.filter_cons_of_pos (by rw [hm]; exact beq_self_eq_true _), List.map_append,
        List.append_assoc]
      rfl
    · rw [if_neg hm] at hbody
      have hstamps := ih hw' hi' hl' fun e he tev' htev' =>
        hafter e (hbody ▸ he) tev' (List.mem_cons_of_mem _ htev')
      refine hstamps.trans ?_
      rw [hbody, List.filter_cons_of_neg (by rw [beq_iff_eq]; exact hm)]

variable (last nframes) in
/-- **What the main loop leaves in the queue of `cv_out`**, if nothing was in it: the
due events of `cv_in` in the order of the host queue. -/
theorem CvWired.mainLoop_stamps (hw : CvWired P h cvIn cvOut) (hi : QueueInv h)
    (hempty : (h.module cvOut).queue = []) :
    ((mainLoop P last nframes h).module cvOut).queue.map Event.stamp =
      ((dueEvents last nframes h.queue).filter fun e => e.module == cvIn).map fun e =>
        (clamp last last e.time, e.buf) := by
  unfold mainLoop
  rw [dueLoop_eq_foldl hi.host.ordered]
  have hstamps := hw.foldl_mainBody last hi
    (hi.host.ordered.filter (due last nframes)) fun e he =>
      absurd (hempty ▸ he) List.not_mem_nil
  rw [hempty] at hstamps
  exact hstamps

theorem sendAll_module_of_not_mem (test : Module ρ → Bool) {l : List ModulePtr} {m : ModulePtr}
    (hm : m ∉ l) (h : Host ρ σ) : (sendAll P last nframes test l h).module m = h.module m := by
  induction l generalizing h with
  | nil => rfl
  | cons n l ih =>
    have hne : m ≠ n := fun heq => hm (heq ▸ List.mem_cons_self)
    unfold sendAll
    rw [ih fun hmem => hm (List.mem_cons_of_mem _ hmem)]
    split
    · exact processOut_module_of_ne P hne
    · rfl

variable (P last nframes) in
/-- A module that is in the list once is sent once, as it is in the beginning. -/
theorem sendAll_module (test : Module ρ → Bool) {l : List ModulePtr} {m : ModulePtr}
    (hnodup : l.Nodup) (hm : m ∈ l) (htest : test (h.module m) = true) :
    ∃ h₁ : Host ρ σ, h₁.module m = h.module m ∧
      (sendAll P last nframes test l h).module m = (processOut P last nframes m h₁).module m := by
  induction l generalizing h with
  | nil => exact absurd hm List.not_mem_nil
  | cons n l ih =>
    obtain ⟨hnot, hnodup⟩ := List.nodup_cons.mp hnodup
    unfold sendAll
    by_cases hn : m = n
    · subst hn
      refine ⟨h, rfl, ?_⟩
      rw [sendAll_module_of_not_mem test hnot, if_pos htest]
    · have hkeep : (if test (h.module n) then processOut P last nframes n h else h).module m =
          h.module m := by
        split
        · exact processOut_module_of_ne P hn
        · rfl
      have hml : m ∈ l := (List.mem_cons.mp hm).resolve_left hn
      obtain ⟨h₁, hh₁, hsent⟩ := ih hnodup hml (hkeep ▸ htest)
      exact ⟨h₁, hh₁.trans hkeep, hsent⟩

variable (last nframes) in
/-- The second half of a cycle sends `cv_out` once. -/
theorem CvWired.sendOut_module (hw : CvWired P h cvIn cvOut) :
    ∃ h₁ : Host ρ σ, h₁.module cvOut = h.module cvOut ∧
      (sendOut P last nframes h).module cvOut =
        (processOut P last nframes cvOut h₁).module cvOut := by
  obtain ⟨h₁, hh₁, hsent⟩ :=
    sendAll_module P last nframes (fun x => isOutput x.type) hw.nodup hw.mem hw.output
  have hg := sendAll_graph P last nframes (fun x => isOutput x.type) h.modules h
  refine ⟨h₁, hh₁, ?_⟩
  unfold sendOut
  simp only
  split
  · exact (sendAll_module_of_not_mem _ (hg.uplinks ▸ hw.uplinks.2) _).trans hsent
  · exact (sendAll_module_of_not_mem _ (hg.uplinks ▸ hw.uplinks.2) _).trans hsent

/-- Nothing of a module without a `process_out` gets into the host queue in the second
half of a cycle. -/
theorem sendOut_pending (hi : QueueInv h) {m : ModulePtr}
    (hinput : (h.module m).dat.hasProcessOut = false) (hnone : h.pending m = []) :
    (sendOut P last nframes h).pending m = [] := by
  -- what a module schedules on the host queue, it schedules in its own name
  have hsend : ∀ (h : Host ρ σ) (n : ModulePtr), QueueInv h →
      (h.module m).dat.hasProcessOut = false → h.pending m = [] →
        (processOut P last nframes n h).pending m = [] := by
    intro h n hi hinput hnone
    by_cases hn : n = m
    · subst hn
      have hsame : processOut P last nframes n h = h := by
        unfold processOut
        cases hdat : (h.module n).dat <;> simp_all [ModuleDat.hasProcessOut]
      rw [hsame]
      exact hnone
    · refine (processOut_rule P last nframes (m := n)
        (I := fun h => QueueUpTo h.seq h.queue ∧ h.pending m = []) (fun _ _ _ hI => hI)
        (fun _ _ _ hI => hI) ?_ ⟨hi.host, hnone⟩).2
      rintro h₁ time buf ⟨hq, hnone⟩
      refine ⟨hq.sortedInsert P.eina rfl, ?_⟩
      rw [hostSchedule_pending hq.ordered, if_neg hn]
      exact hnone
  have hall : ∀ (test : Module ρ → Bool) (l : List ModulePtr) (h : Host ρ σ), QueueInv h →
      (h.module m).dat.hasProcessOut = false → h.pending m = [] →
        (sendAll P last nframes test l h).pending m = [] := by
    intro test l
    induction l with
    | nil => exact fun _ _ _ hnone => hnone
    | cons n l ih =>
      intro h hi hinput hnone
      unfold sendAll
      split
      · exact ih _ (hi.processOut P last nframes n)
          ((processOut_hasProcessOut last nframes n m h).trans hinput) (hsend h n hi hinput hnone)
      · exact ih h hi hinput hnone
  have hfirst := hall (fun x => isOutput x.type) h.modules h hi hinput hnone
  have hboth := hall (fun _ => true) (sendAll P last nframes (fun x => isOutput x.type)
    h.modules h).uplinks _ (hi.sendAll_schedules last nframes _ _).1
    ((sendAll_hasProcessOut last nframes _ _ m h).trans hinput) hfirst
  unfold sendOut
  simp only
  split
  · exact hboth
  · exact hboth

end Wired

/-! ### The changes of `cv_out` -/

/-- libosc matches and decodes the messages that it has encoded. -/
structure OscWriter.Faithful (W : OscWriter) (osc : OscReader) : Prop where
  messages : ∀ value, osc.messages (CvIn.message W value) =
    [⟨CvIn.cvPath, CvIn.cvFmt, W.setFloat value⟩]
  getFloat : ∀ value, osc.getFloat (W.setFloat value) = value

section Changes

variable {P} {W : OscWriter} {last nframes : NFrames}

theorem held_eq_hold (value : UInt32) {cs : List (ℕ × UInt32)} (hcs : ∀ c ∈ cs, c.1 < 2 ^ 32)
    (k : ℕ) : held value (cs.map fun c => (UInt32.ofNat c.1, c.2)) k = hold value cs k := by
  have hfilter : (cs.map fun c => (UInt32.ofNat c.1, c.2)).filter (fun c => c.1.toNat ≤ k) =
      (cs.filter fun c => c.1 ≤ k).map fun c => (UInt32.ofNat c.1, c.2) := by
    rw [List.filter_map]
    refine congrArg _ (List.filter_congr fun c hc => ?_)
    show decide ((UInt32.ofNat c.1).toNat ≤ k) = _
    rw [UInt32.toNat_ofNat_of_lt' (hcs c hc)]
  unfold held hold
  rw [hfilter, List.getLast?_map, Option.map_map]
  rfl

/-- The time of a frame in a period that does not wrap. -/
theorem NoWrap.toNat_frame (hn : NoWrap last nframes) {k : ℕ} (hk : k < nframes.toNat) :
    (last + UInt32.ofNat k).toNat = last.toNat + k := by
  have hframe : (UInt32.ofNat k).toNat = k :=
    UInt32.toNat_ofNat_of_lt' (hk.trans nframes.toNat_lt)
  unfold NoWrap at hn
  rw [UInt32.toNat_add, hframe, Nat.mod_eq_of_lt (by omega)]

theorem NoWrap.clamp_frame (hn : NoWrap last nframes) {k : ℕ} (hk : k < nframes.toNat) :
    clamp last last (last + UInt32.ofNat k) = last + UInt32.ofNat k := by
  refine UInt32.toNat_inj.mp ?_
  rw [clamp_toNat, hn.toNat_frame hk]
  omega

/-- **The loop of `cv_out` makes the changes again** that the events were made of. -/
theorem cvChanges_stamps (hW : W.Faithful P.osc) (hn : NoWrap last nframes)
    {cs : List (ℕ × UInt32)} (hcs : ∀ c ∈ cs, c.1 < nframes.toNat) {q : List Event}
    (hq : q.map Event.stamp =
      cs.map fun c => (last + UInt32.ofNat c.1, CvIn.message W c.2)) :
    cvChanges P last q = cs.map fun c => (UInt32.ofNat c.1, c.2) := by
  set change : NFrames × List UInt8 → List (NFrames × UInt32) := fun st =>
    ((P.osc.messages st.2).filter fun msg => msg.path == ['/', 'c', 'v'] && msg.fmt == ['f']).map
      fun msg => (clamp last last st.1 - last, P.osc.getFloat msg.args) with hchange
  have hstamps : cvChanges P last q = (q.map Event.stamp).flatMap change := by
    rw [List.flatMap_map]
    rfl
  have hone : ∀ c ∈ cs, change (last + UInt32.ofNat c.1, CvIn.message W c.2) =
      [(UInt32.ofNat c.1, c.2)] := by
    intro c hc
    have hback : last + UInt32.ofNat c.1 - last = UInt32.ofNat c.1 := by
      rw [UInt32.add_comm, UInt32.add_sub_cancel]
    show ((P.osc.messages (CvIn.message W c.2)).filter _).map _ = _
    rw [hW.messages]
    show [(clamp last last (last + UInt32.ofNat c.1) - last, P.osc.getFloat (W.setFloat c.2))] = _
    rw [hW.getFloat, hn.clamp_frame (hcs c hc), hback]
  rw [hstamps, hq, List.flatMap_map, List.flatMap_congr hone]
  exact List.map_eq_flatMap.symm

variable (P last nframes) in
/-- The value that `cv_out` keeps holds behind its last change. -/
theorem CvOut.processOut_value {s : OutState CvOutData} (hq : Ordered s.queue) :
    ∃ t, ∀ k, t ≤ k → (CvOut.processOut P last nframes s).dat.value =
      held s.dat.value (cvChanges P last (dueEvents last nframes s.queue)) k := by
  set due := dueEvents last nframes s.queue with hdue
  have hdat := ((CvOut.loop P last).run_out last nframes
    (s := { s with dat := { s.dat with time := 0 } }) hq).1
  rw [CvOut.emitAll_eq] at hdat
  have hstart : Holds s.dat.value [] { s.dat with time := 0 } :=
    ⟨fun k hk => absurd hk (Nat.not_lt_zero k), fun k _ => rfl⟩
  have hd := hstart.foldl (cvChanges P last due)
  refine ⟨((cvChanges P last due).foldl CvOutData.change { s.dat with time := 0 }).time.toNat, ?_⟩
  intro k hk
  show ((CvOut.loop P last).run last nframes _).dat.value = _
  rw [hdat]
  exact hd.after k hk

end Changes

/-! ### The cycles -/

/-- A host with a `cv_in`. -/
structure CvSystem (ρ σ : Type) where
  host : Host ρ σ
  /-- `dat->value` of the `cv_in`. -/
  value : UInt32

/-- What a cycle gets from outside. -/
structure CvCycle where
  last : NFrames
  nframes : NFrames
  /-- The port buffer of the `cv_in`. -/
  portBuf : ℕ → UInt32
  /-- What the port buffer of the `cv_out` holds before it is filled. -/
  outBuf : ℕ → UInt32
  /-- What is scheduled before `process_in` of the `cv_in` is called. -/
  before : List SchedCall
  /-- What is scheduled after that call. -/
  after : List SchedCall

/-- The port of a `cv_out` gets another buffer. -/
def Host.getBuffer (h : Host ρ σ) (m : ModulePtr) (portBuf : ℕ → UInt32) : Host ρ σ :=
  match (h.module m).dat with
  | .cvOut dat => h.setModule m { h.module m with dat := .cvOut { dat with portBuf } }
  | _ => h

/-- `_process`, with the `process_in` of the `cv_in` among the others. -/
def CvSystem.process (W : OscWriter) (cvIn cvOut : ModulePtr) (s : CvSystem ρ σ) (c : CvCycle) :
    CvSystem ρ σ :=
  let h := receive P c.before (s.host.getBuffer cvOut c.outBuf)
  let (value, h) := CvIn.processIn W P cvIn c.last c.nframes c.portBuf s.value h
  let h := { receive P c.after h with pipeUplinkTxCount := 0 }
  ⟨sendOut P c.last c.nframes (mainLoop P c.last c.nframes h), value⟩

/-- The period does not wrap, the samples of the `cv_in` are numbers, and only the
`cv_in` schedules its events. -/
structure CvCycle.Ok (cvIn : ModulePtr) (c : CvCycle) : Prop where
  noWrap : NoWrap c.last c.nframes
  numbers : ∀ k < c.nframes.toNat, ¬ IsNaN (c.portBuf k)
  others : ∀ call ∈ c.before ++ c.after, call.module ≠ cvIn

/-- Between two cycles the two modules keep the same value, and nothing is on the
way from one to the other. -/
structure CvInv (cvIn cvOut : ModulePtr) (s : CvSystem ρ σ) : Prop where
  wired : CvWired P s.host cvIn cvOut
  queues : QueueInv s.host
  input : (s.host.module cvIn).dat.hasProcessOut = false
  pending : s.host.pending cvIn = []
  empty : (s.host.module cvOut).queue = []
  value : ∃ dat, (s.host.module cvOut).dat = .cvOut dat ∧ dat.value = s.value

/-- Before the first cycle both modules keep the value `0`, and there is no event of
the `cv_in` yet. -/
structure CvSystem.Start (cvIn cvOut : ModulePtr) (s : CvSystem ρ σ) : Prop where
  wired : CvWired P s.host cvIn cvOut
  queues : QueueInv s.host
  input : (s.host.module cvIn).dat = .input
  pending : ∀ e ∈ s.host.queue, e.module ≠ cvIn
  empty : (s.host.module cvOut).queue = []
  cvOut : ∃ portBuf time, (s.host.module cvOut).dat = .cvOut ⟨portBuf, time, 0⟩
  cvIn : s.value = 0

section Cycles

variable {P} {W : OscWriter} {cvIn cvOut : ModulePtr} {s : CvSystem ρ σ} {c : CvCycle}

theorem Host.getBuffer_spec {h : Host ρ σ} {m : ModulePtr} {dat : CvOutData}
    (hdat : (h.module m).dat = .cvOut dat) (portBuf : ℕ → UInt32) :
    h.getBuffer m portBuf =
      h.setModule m { h.module m with dat := .cvOut { dat with portBuf } } := by
  unfold Host.getBuffer
  rw [hdat]

/-- A new port buffer breaks nothing. -/
theorem CvInv.getBuffer (ci : CvInv P cvIn cvOut s) (portBuf : ℕ → UInt32) :
    CvInv P cvIn cvOut { s with host := s.host.getBuffer cvOut portBuf } := by
  obtain ⟨dat, hdat, hvalue⟩ := ci.value
  -- `cv_out` has a `process_out`, and `cv_in` has none
  have hne : cvIn ≠ cvOut := by
    rintro rfl
    have hinput := ci.input
    rw [hdat] at hinput
    exact nomatch hinput
  have hspec := Host.getBuffer_spec hdat portBuf
  set x : Module ρ := { s.host.module cvOut with dat := .cvOut { dat with portBuf } } with hx
  have hcvIn : ((s.host.setModule cvOut x).module cvIn) = s.host.module cvIn :=
    Function.update_of_ne hne _ _
  have hcvOut : ((s.host.setModule cvOut x).module cvOut) = x := Function.update_self _ _ _
  have hqueue : ∀ m, ((s.host.setModule cvOut x).module m).queue = (s.host.module m).queue := by
    intro m
    by_cases hm : m = cvOut
    · rw [hm, hcvOut]
    · exact congrArg Module.queue (Function.update_of_ne hm _ _)
  rw [hspec]
  refine ⟨ci.wired.of_graph (SameGraph.setModule s.host cvOut rfl rfl rfl),
    ⟨ci.queues.host, fun m => ?_⟩, ?_, ci.pending, ?_, { dat with portBuf }, ?_, hvalue⟩
  · rw [hqueue]
    exact ci.queues.module m
  · rw [hcvIn]
    exact ci.input
  · rw [hqueue]
    exact ci.empty
  · rw [hcvOut]

/-- What the inputs schedule in a cycle. -/
def CvCycle.arrivals (W : OscWriter) (cvIn : ModulePtr) (value : UInt32) (c : CvCycle) :
    List SchedCall :=
  c.before ++ CvIn.calls W cvIn c.last c.portBuf value c.nframes.toNat ++ c.after

theorem CvSystem.process_eq (W : OscWriter) (s : CvSystem ρ σ) (c : CvCycle) :
    s.process P W cvIn cvOut c =
      ⟨Tjost.process P c.last c.nframes (c.arrivals W cvIn s.value)
          (s.host.getBuffer cvOut c.outBuf),
        kept SameSample c.portBuf s.value c.nframes.toNat⟩ := by
  unfold CvSystem.process Tjost.process receiveIn CvCycle.arrivals
  simp only [CvIn.processIn_eq, receive_append]

/-- **The events of `cv_in` in the host queue** when the main loop starts: one for
every change, in order. -/
theorem CvInv.receive_stamps (ci : CvInv P cvIn cvOut s) (hc : c.Ok cvIn) :
    ((receiveIn P (c.arrivals W cvIn s.value) s.host).pending cvIn).map Event.stamp =
      (changes SameSample c.portBuf s.value c.nframes.toNat).map fun d =>
        (c.last + UInt32.ofNat d.1, CvIn.message W d.2) := by
  set calls := CvIn.calls W cvIn c.last c.portBuf s.value c.nframes.toNat with hcalls
  set h₁ := receive P c.before s.host with hh₁
  have hi₁ : QueueInv h₁ := ci.queues.receive c.before
  -- the inputs before `cv_in` and behind it schedule for themselves
  have hbefore : h₁.pending cvIn = [] :=
    (receive_pending_of_ne ci.queues fun call hcall =>
      hc.others call (List.mem_append_left _ hcall)).trans ci.pending
  have hmodule : ∀ call ∈ calls, call.module = cvIn := by
    intro call hcall
    obtain ⟨d, -, rfl⟩ := List.mem_map.mp hcall
    rfl
  have hsorted : calls.Pairwise fun a b => a.time.toNat ≤ b.time.toNat := by
    refine List.pairwise_map.mpr ((changes_pairwise _).imp_of_mem ?_)
    intro a b ha hb hab
    show (c.last + UInt32.ofNat a.1).toNat ≤ (c.last + UInt32.ofNat b.1).toNat
    rw [hc.noWrap.toNat_frame (lt_of_mem_changes ha), hc.noWrap.toNat_frame (lt_of_mem_changes hb)]
    omega
  have hown : ((receive P calls h₁).pending cvIn).map Event.stamp =
      calls.map fun call => (call.time, call.buf) := by
    have happend := receive_pending (P := P) hi₁ hmodule hsorted fun e he =>
      absurd (hbefore ▸ he) List.not_mem_nil
    rw [hbefore] at happend
    exact happend
  have hafter : (receive P c.after (receive P calls h₁)).pending cvIn =
      (receive P calls h₁).pending cvIn :=
    receive_pending_of_ne (hi₁.receive calls) fun call hcall =>
      hc.others call (List.mem_append_right _ hcall)
  show ((receive P (c.arrivals W cvIn s.value) s.host).pending cvIn).map Event.stamp = _
  unfold CvCycle.arrivals
  rw [receive_append, receive_append, hafter, hown, hcalls, CvIn.calls, List.map_map]
  rfl

/-- The events of `cv_in` lie in the period. -/
theorem CvCycle.frames {q : List Event} {cs : List (ℕ × UInt32)} {n : ℕ}
    (hcs : ∀ d ∈ cs, d.1 < n)
    (hq : q.map Event.stamp =
      cs.map fun d => (c.last + UInt32.ofNat d.1, CvIn.message W d.2)) :
    ∀ e ∈ q, ∃ k < n, e.time = c.last + UInt32.ofNat k := by
  intro e he
  have hmem : e.stamp ∈ q.map Event.stamp := List.mem_map_of_mem he
  rw [hq] at hmem
  obtain ⟨d, hd, heq⟩ := List.mem_map.mp hmem
  exact ⟨d.1, hcs d hd, (congrArg Prod.fst heq).symm⟩

theorem NoWrap.due_frame {last nframes : NFrames} (hn : NoWrap last nframes) {e : Event}
    (he : ∃ k < nframes.toNat, e.time = last + UInt32.ofNat k) : due last nframes e = true := by
  obtain ⟨k, hk, htime⟩ := he
  rw [hn.due_iff, htime, hn.toNat_frame hk]
  omega

/-- **The main loop of a cycle** takes all events of `cv_in` to the `cv_out`. -/
theorem CvInv.mainLoop (ci : CvInv P cvIn cvOut s) (hc : c.Ok cvIn) {h₁ : Host ρ σ}
    (hh₁ : h₁ = receiveIn P (c.arrivals W cvIn s.value) s.host) :
    let h₂ := Tjost.mainLoop P c.last c.nframes h₁
    h₂.pending cvIn = [] ∧
      (h₂.module cvOut).queue.map Event.stamp =
        (changes SameSample c.portBuf s.value c.nframes.toNat).map fun d =>
          (c.last + UInt32.ofNat d.1, CvIn.message W d.2) := by
  have hi₁ : QueueInv h₁ := hh₁ ▸ ci.queues.receiveIn _
  have hmodule : h₁.module = s.host.module :=
    hh₁ ▸ (receive_keeps (P := P) (c.arrivals W cvIn s.value) s.host).1
  have g₁ : SameGraph s.host h₁ := by
    have g := receive_graph P (c.arrivals W cvIn s.value) s.host
    rw [hh₁]
    exact ⟨g.modules, g.uplinks, g.type, g.children, g.hasLuaCallback⟩
  have hstamps := ci.receive_stamps (W := W) hc
  rw [← hh₁] at hstamps
  have hframes := CvCycle.frames (fun _ hd => lt_of_mem_changes hd) hstamps
  have hdue : ∀ e ∈ h₁.pending cvIn, due c.last c.nframes e = true := fun e he =>
    hc.noWrap.due_frame (hframes e he)
  intro h₂
  constructor
  · show (Tjost.mainLoop P c.last c.nframes h₁).queue.filter _ = []
    rw [mainLoop_queue P hi₁.host.ordered]
    refine List.filter_eq_nil_iff.mpr fun e he hm => ?_
    obtain ⟨hmem, hnot⟩ := List.mem_filter.mp he
    rw [hdue e (List.mem_filter.mpr ⟨hmem, hm⟩)] at hnot
    exact nomatch hnot
  · -- all events of `cv_in` are due, and none of them is clamped
    have hloop := (ci.wired.of_graph g₁).mainLoop_stamps c.last c.nframes
      hi₁ (by rw [hmodule]; exact ci.empty)
    have hall : ((dueEvents c.last c.nframes h₁.queue).filter fun e => e.module == cvIn) =
        h₁.pending cvIn := by
      unfold dueEvents Host.pending
      rw [List.filter_filter]
      refine List.filter_congr fun e he => ?_
      by_cases hm : (e.module == cvIn) = true
      · rw [hm, hdue e (List.mem_filter.mpr ⟨he, hm⟩)]
        rfl
      · rw [Bool.eq_false_of_not_eq_true hm]
        rfl
    have hclamp : ((h₁.pending cvIn).map fun e => (clamp c.last c.last e.time, e.buf)) =
        (h₁.pending cvIn).map Event.stamp := by
      refine List.map_congr_left fun e he => ?_
      obtain ⟨k, hk, htime⟩ := hframes e he
      show (_, _) = (e.time, e.buf)
      rw [htime, hc.noWrap.clamp_frame hk]
    rw [hloop, hall, hclamp]
    exact hstamps

theorem processOut_cvOut {h : Host ρ σ} {m : ModulePtr} {dat : CvOutData}
    (hdat : (h.module m).dat = .cvOut dat) (last nframes : NFrames) :
    let t := CvOut.processOut P last nframes (h.outState (h.module m) dat)
    (processOut P last nframes m h).module m =
      { h.module m with queue := t.queue, dat := .cvOut t.dat } := by
  unfold processOut
  simp only [hdat]
  exact Function.update_self _ _ _

/-- **The loop of `cv_out`** on the events of a signal fills the port with the samples
of that signal, and keeps the same value. -/
theorem CvOut.processOut_signal (hW : W.Faithful P.osc) (hc : c.Ok cvIn) {t : OutState CvOutData}
    (hq : Ordered t.queue)
    (hstamps : t.queue.map Event.stamp =
      (changes SameSample c.portBuf t.dat.value c.nframes.toNat).map fun d =>
        (c.last + UInt32.ofNat d.1, CvIn.message W d.2)) :
    let t' := CvOut.processOut P c.last c.nframes t
    t'.queue = [] ∧ t'.dat.value = kept SameSample c.portBuf t.dat.value c.nframes.toNat ∧
      ∀ k < c.nframes.toNat, SameSample (c.portBuf k) (t'.dat.portBuf k) := by
  set cs := changes SameSample c.portBuf t.dat.value c.nframes.toNat with hcs
  have hlt : ∀ d ∈ cs, d.1 < c.nframes.toNat := fun d hd => lt_of_mem_changes hd
  have hlt' : ∀ d ∈ cs, d.1 < 2 ^ 32 := fun d hd => (hlt d hd).trans c.nframes.toNat_lt
  have hframes := CvCycle.frames hlt hstamps
  have hdue : dueEvents c.last c.nframes t.queue = t.queue :=
    List.filter_eq_self.mpr fun e he => hc.noWrap.due_frame (hframes e he)
  have hchanges := cvChanges_stamps hW hc.noWrap hlt hstamps
  refine ⟨?_, ?_, ?_⟩
  · refine (DrainLoop.run_queue (L := CvOut.loop P c.last)
      (s := { t with dat := { t.dat with time := 0 } }) hq).trans ?_
    refine List.filter_eq_nil_iff.mpr fun e he => ?_
    rw [hc.noWrap.due_frame (hframes e he)]
    exact Bool.false_ne_true
  · -- the value kept is the one held behind the last change
    obtain ⟨b, hvalue⟩ := CvOut.processOut_value P c.last c.nframes hq
    have hend := hvalue (max b c.nframes.toNat) (Nat.le_max_left _ _)
    rw [hend, hdue, hchanges, held_eq_hold _ hlt', hcs]
    exact hold_changes_end ((Nat.le_max_right _ _).trans (Nat.le_succ _))
  · intro k hk
    have hfill := (CvOut.processOut_emits P c.last c.nframes hq).1 k hk
    rw [hfill, hdue, hchanges, held_eq_hold _ hlt', hcs, hold_changes hk]
    exact rel_kept_succ (SameSample.of_not_nan (hc.numbers k hk))

/-- **A cycle** keeps the invariant, and fills the port of the `cv_out` with the
samples of the `cv_in`. -/
theorem CvInv.process (hW : W.Faithful P.osc) (ci : CvInv P cvIn cvOut s) (hc : c.Ok cvIn) :
    CvInv P cvIn cvOut (s.process P W cvIn cvOut c) ∧
      ∃ dat, ((s.process P W cvIn cvOut c).host.module cvOut).dat = .cvOut dat ∧
        ∀ k < c.nframes.toNat, SameSample (c.portBuf k) (dat.portBuf k) := by
  have ci₀ := ci.getBuffer c.outBuf
  set s₀ : CvSystem ρ σ := { s with host := s.host.getBuffer cvOut c.outBuf } with hs₀
  set h₁ := receiveIn P (c.arrivals W cvIn s.value) s₀.host with hh₁
  set h₂ := Tjost.mainLoop P c.last c.nframes h₁ with hh₂
  have hi₁ : QueueInv h₁ := ci₀.queues.receiveIn _
  have hi₂ : QueueInv h₂ := hi₁.mainLoop c.last c.nframes
  have hmodule₁ : h₁.module = s₀.host.module :=
    (receive_keeps (P := P) (c.arrivals W cvIn s.value) s₀.host).1
  have hdat₂ : ∀ m, (h₂.module m).dat = (s₀.host.module m).dat := by
    intro m
    rw [hh₂, mainLoop_dat, hmodule₁]
  have hw₂ : CvWired P h₂ cvIn cvOut := by
    have g := receive_graph P (c.arrivals W cvIn s.value) s₀.host
    have g₁ : SameGraph s₀.host h₁ :=
      ⟨g.modules, g.uplinks, g.type, g.children, g.hasLuaCallback⟩
    exact ci₀.wired.of_graph (g₁.trans (mainLoop_graph P hi₁.host.ordered))
  obtain ⟨hpending, hstamps⟩ := ci₀.mainLoop (W := W) hc hh₁
  -- the `process_out` of the `cv_out`
  obtain ⟨h₃, hh₃, hsent⟩ := hw₂.sendOut_module c.last c.nframes
  obtain ⟨dat, hdat, hvalue⟩ := ci₀.value
  have hdat₃ : (h₃.module cvOut).dat = .cvOut dat := by
    rw [hh₃, hdat₂]
    exact hdat
  rw [processOut_cvOut hdat₃] at hsent
  obtain ⟨hqueue, hkept, hfill⟩ := CvOut.processOut_signal (P := P) (W := W) hW hc
    (t := h₃.outState (h₃.module cvOut) dat)
    (by show Ordered (h₃.module cvOut).queue; rw [hh₃]; exact (hi₂.module cvOut).ordered)
    (by
      show (h₃.module cvOut).queue.map Event.stamp = _
      rw [hh₃]
      show _ = (changes SameSample c.portBuf dat.value c.nframes.toNat).map _
      rw [hvalue]
      exact hstamps)
  obtain ⟨hi₃, -⟩ := hi₂.sendOut_schedules (P := P) c.last c.nframes
  have hinput : ((sendOut P c.last c.nframes h₂).module cvIn).dat.hasProcessOut = false := by
    rw [sendOut_hasProcessOut, hdat₂]
    exact ci₀.input
  have hdat' : ((sendOut P c.last c.nframes h₂).module cvOut).dat = .cvOut _ :=
    congrArg Module.dat hsent
  rw [CvSystem.process_eq]
  refine ⟨⟨hw₂.of_graph (sendOut_graph P c.last c.nframes h₂), hi₃, hinput, ?_, ?_,
    _, hdat', ?_⟩, _, hdat', hfill⟩
  · exact sendOut_pending hi₂ (by rw [hdat₂]; exact ci₀.input) hpending
  · exact (congrArg Module.queue hsent).trans hqueue
  · rw [hkept]
    show kept SameSample c.portBuf dat.value c.nframes.toNat = _
    rw [hvalue]

theorem CvSystem.Start.inv (h₀ : s.Start P cvIn cvOut) : CvInv P cvIn cvOut s where
  wired := h₀.wired
  queues := h₀.queues
  input := congrArg ModuleDat.hasProcessOut h₀.input
  pending := List.filter_eq_nil_iff.mpr fun e he hm => h₀.pending e he (beq_iff_eq.mp hm)
  empty := h₀.empty
  value := by
    obtain ⟨portBuf, time, hdat⟩ := h₀.cvOut
    exact ⟨_, hdat, h₀.cvIn.symm⟩

variable (P W cvIn cvOut) in
/-- A run of cycles. -/
def CvSystem.run (s : CvSystem ρ σ) (cs : List CvCycle) : CvSystem ρ σ :=
  cs.foldl (CvSystem.process P W cvIn cvOut) s

theorem CvInv.run (hW : W.Faithful P.osc) (ci : CvInv P cvIn cvOut s) {cs : List CvCycle}
    (hcs : ∀ d ∈ cs, d.Ok cvIn) : CvInv P cvIn cvOut (s.run P W cvIn cvOut cs) := by
  induction cs generalizing s with
  | nil => exact ci
  | cons d cs ih =>
    exact ih (ci.process hW (hcs d List.mem_cons_self)).1
      fun e he => hcs e (List.mem_cons_of_mem _ he)

/-- **Control voltages are transported without loss.** After every cycle of a run the
port of the `cv_out` has the samples of the port of the `cv_in`. -/
theorem cv_lossless (hW : W.Faithful P.osc) (h₀ : s.Start P cvIn cvOut) {cs : List CvCycle}
    (hcs : ∀ d ∈ cs, d.Ok cvIn) (hc : c.Ok cvIn) :
    ∃ dat, ((s.run P W cvIn cvOut (cs ++ [c])).host.module cvOut).dat = .cvOut dat ∧
      ∀ k < c.nframes.toNat, SameSample (c.portBuf k) (dat.portBuf k) := by
  have hlast : s.run P W cvIn cvOut (cs ++ [c]) =
      (s.run P W cvIn cvOut cs).process P W cvIn cvOut c := by
    unfold CvSystem.run
    rw [List.foldl_append]
    rfl
  rw [hlast]
  exact ((h₀.inv.run hW hcs).process hW hc).2

end Cycles

/-! ### A small system -/

/-- A writer that goes with `OscReader.plain`. -/
def OscWriter.plain : OscWriter where
  setPath path := path.map (fun c => UInt8.ofNat c.toNat) ++
    List.replicate (oscPadded path.length - path.length) 0
  setFmt fmt := 44 :: fmt.map (fun c => UInt8.ofNat c.toNat) ++
    List.replicate (oscPadded (fmt.length + 1) - (fmt.length + 1)) 0
  setFloat value := Bytes.toBE 4 value.toNat
  length_setPath path := by
    unfold oscPadded
    simp only [List.length_append, List.length_map, List.length_replicate]
    omega
  length_setFmt fmt := by
    unfold oscPadded
    simp only [List.length_append, List.length_cons, List.length_map, List.length_replicate]
    omega
  length_setFloat value := Bytes.length_toBE 4 _

theorem OscWriter.plain_faithful : OscWriter.plain.Faithful OscReader.plain where
  messages value := by
    have hmessage : CvIn.message OscWriter.plain value =
        47 :: 99 :: 118 :: 0 :: 44 :: 102 :: 0 :: 0 :: Bytes.toBE 4 value.toNat := rfl
    have hpath : oscString (CvIn.message OscWriter.plain value) =
        (CvIn.cvPath, 44 :: 102 :: 0 :: 0 :: Bytes.toBE 4 value.toNat) := by
      rw [hmessage]
      simp [oscString, oscPadded]
      decide
    have hfmt : oscString (44 :: 102 :: 0 :: 0 :: Bytes.toBE 4 value.toNat) =
        ([',', 'f'], Bytes.toBE 4 value.toNat) := by
      simp [oscString, oscPadded]
    unfold OscReader.plain
    simp only [hpath, hfmt]
    rfl
  getFloat value := by
    show UInt32.ofNat (Bytes.ofBE ((Bytes.toBE 4 value.toNat).take 4)) = value
    have hlen : (Bytes.toBE 4 value.toNat).length = 4 := Bytes.length_toBE 4 _
    rw [List.take_of_length_le (Nat.le_of_eq hlen), Bytes.ofBE_toBE,
      Nat.mod_eq_of_lt (by simpa using value.toNat_lt), UInt32.ofNat_toNat]

/-- Two cycles of four frames, with the samples `1, 1, 2, 2` and `2, 0, -0, 3`. Another
module schedules an event of its own. -/
def cvCycles : CvCycle × CvCycle :=
  (⟨16, 4, fun k => if k < 2 then 0x3f800000 else 0x40000000, fun _ => 9, [⟨false, 5, 17, []⟩], []⟩,
    ⟨20, 4, fun k => if k = 0 then 0x40000000 else if k = 1 then 0 else
      if k = 2 then 0x80000000 else 0x40400000, fun _ => 9, [], []⟩)

theorem Host.pair_wired (dat : ModuleDat (ByteRing.Fifo ringbufSize)) :
    CvWired (Platform.plain 64 (LuaScript.pass 3)) (Host.pair dat) 1 2 where
  ne_broadcast := by decide
  children := rfl
  only m hm := by
    by_contra hne
    unfold Host.pair Host.start at hm
    simp only [if_neg hne] at hm
    exact absurd hm List.not_mem_nil
  uplinks := ⟨List.not_mem_nil, List.not_mem_nil⟩
  responders st m time buf c hc := by
    rw [List.mem_singleton.mp hc]
    exact (by decide : (3 : ModulePtr) ≠ 2)
  nodup := (by decide : [(1 : ModulePtr), 2].Nodup)
  mem := (by decide : (2 : ModulePtr) ∈ [1, 2])
  output := (by decide : isOutput moduleOutput = true)

theorem cv_lossless_pair :
    let P := Platform.plain 64 (LuaScript.pass 3)
    let s : CvSystem _ _ := ⟨Host.pair (.cvOut ⟨fun _ => 7, 0, 0⟩), 0⟩
    let s' := s.run P OscWriter.plain 1 2 [cvCycles.1, cvCycles.2]
    ∃ dat, (s'.host.module 2).dat = .cvOut dat ∧
      ∀ k < 4, SameSample (cvCycles.2.portBuf k) (dat.portBuf k) := by
  intro P s s'
  have h₀ : s.Start P 1 2 :=
    ⟨Host.pair_wired _, Host.pair_queueInv _, rfl, fun _ he => absurd he List.not_mem_nil, rfl,
      ⟨_, _, rfl⟩, rfl⟩
  have hfirst : cvCycles.1.Ok 1 := ⟨by decide, by decide, by decide⟩
  have hsecond : cvCycles.2.Ok 1 := ⟨by decide, by decide, by decide⟩
  refine @cv_lossless _ _ _ _ _ _ _ _ OscWriter.plain_faithful h₀ [cvCycles.1] ?_ hsecond
  intro d hd
  rw [List.mem_singleton.mp hd]
  exact hfirst

end Tjost
