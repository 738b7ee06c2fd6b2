import Tjost.Modules.Emission

/-!
# The time stamps of a recording

The module `write` makes the time of an event relative to `dat->offset`, the start of the
period of its first `process_out`. An offset of `0` stands for one that has not been set.
Where the first period starts at frame `0` the offset is therefore set to `0`, which does
not set it, and then to the start of the next period.

`Write.runStamps` is a run over periods, of which each has any time-sorted queue and any
pipe. It lists the times that `tjost_pipe_produce` gets (`Stamp`), as a record of the loop.
The start of a period is its first time (`Write.stamps_eq`); behind a nonzero offset all
stamps are relative to it (`Write.runStamps_of_ne`).

`Write.stamps_faithful_iff`: the stamps have the distances of the events, and do not decrease, if
and only if there are not both events of a period that starts at frame `0` and events of a
later one.
-/

namespace Tjost

/-- A call of `tjost_pipe_produce` for an event: the time of the event, when it has been
clamped, and the time that is passed. -/
structure Stamp where
  frame : NFrames
  time : NFrames
  deriving DecidableEq, Repr

/-- A recording keeps the order and the distances of its events. -/
def Faithful (stamps : List Stamp) : Prop :=
  stamps.Pairwise fun a b => a.time.toNat ≤ b.time.toNat ∧
    (b.time.toNat : ℤ) - a.time.toNat = b.frame.toNat - a.frame.toNat

namespace Write

variable {ρ σ : Type} (P : Platform ρ σ) (m : ModulePtr)

/-- What the emit of an event passes to `tjost_pipe_produce`. -/
def stampOf (tev : Event) (dat : ρ × NFrames) : List Stamp :=
  [⟨tev.time, (relativeTo dat.2 tev).time⟩]

/-- The stamps of a `process_out`. -/
def stamps (last nframes : NFrames) (s : OutState (ρ × NFrames)) : List Stamp :=
  let t := ((loop P last m).traced stampOf).run last nframes
    ⟨s.queue, ((s.dat.1, offsetAt last s.dat.2), []), s.messages, s.drained⟩
  t.dat.2

/-- A period: where it starts, how long it is, and what the queue and the pipe of the
module hold. -/
structure Period (ρ : Type) where
  last : NFrames
  nframes : NFrames
  queue : List Event
  pipe : ρ

/-- The state in which `process_out` starts. -/
def Period.outState (p : Period ρ) (offset : NFrames) : OutState (ρ × NFrames) :=
  ⟨p.queue, (p.pipe, offset), [], []⟩

/-- The stamps of a run. `dat->offset` is carried from period to period. -/
def runStamps : List (Period ρ) → NFrames → List Stamp
  | [], _ => []
  | p :: ps, offset =>
    let s := p.outState offset
    stamps P m p.last p.nframes s ++
      runStamps ps (processOut P p.last p.nframes m s).dat.2

/-- The events that are due in the period. -/
def Period.due (p : Period ρ) : List Event := dueEvents p.last p.nframes p.queue

/-- The period does not wrap, and its queue is sorted. -/
structure Period.Ok (p : Period ρ) : Prop where
  noWrap : NoWrap p.last p.nframes
  ordered : Ordered p.queue

/-- The period starts at frame `0`, where the start does not set the offset. -/
def Period.atZero (p : Period ρ) : Bool := p.last = 0

/-- The second period is not before the end of the first. -/
def Period.Follows (p q : Period ρ) : Prop := p.last.toNat + p.nframes.toNat ≤ q.last.toNat

instance : IsTrans (Period ρ) Period.Follows where
  trans p q r hpq hqr := by
    unfold Period.Follows at hpq hqr ⊢
    omega

section Runs

variable {P m} {p : Period ρ} {ps : List (Period ρ)}

/-- The stamps of events relative to a frame. -/
def relative (last start : NFrames) (l : List Event) : List Stamp :=
  l.map fun e => ⟨clamp last last e.time, clamp last last e.time - start⟩

theorem entries_eq (last : NFrames) (l : List Event) (dat : ρ × NFrames) :
    (loop P last m).entries last stampOf l dat = relative last dat.2 l := by
  induction l generalizing dat with
  | nil => rfl
  | cons tev l ih =>
    unfold DrainLoop.entries
    simp only
    rw [ih]
    rfl

variable (P m) in
/-- **The stamps of a period** are relative to the offset, or to its own start. -/
theorem stamps_eq {last nframes : NFrames} {s : OutState (ρ × NFrames)} (hq : Ordered s.queue) :
    stamps P m last nframes s =
      relative last (offsetAt last s.dat.2) (dueEvents last nframes s.queue) := by
  have hrun := (loop P last m).traced_run last nframes stampOf
    (s := { s with dat := (s.dat.1, offsetAt last s.dat.2) }) hq []
  unfold stamps
  simp only
  rw [show _ = _ from hrun, List.nil_append, entries_eq]

theorem runStamps_cons (hp : p.Ok) (offset : NFrames) :
    runStamps P m (p :: ps) offset =
      relative p.last (offsetAt p.last offset) p.due ++
        runStamps P m ps (offsetAt p.last offset) := by
  show stamps P m p.last p.nframes (p.outState offset) ++
    runStamps P m ps (processOut P p.last p.nframes m (p.outState offset)).dat.2 = _
  rw [stamps_eq P m hp.ordered, processOut_offset]
  rfl

/-- Behind an offset that is set, all stamps are relative to it. -/
theorem runStamps_of_ne {offset : NFrames} (hps : ∀ p ∈ ps, p.Ok) (hne : offset ≠ 0) :
    runStamps P m ps offset = ps.flatMap fun p => relative p.last offset p.due := by
  induction ps with
  | nil => rfl
  | cons p ps ih =>
    rw [runStamps_cons (hps p List.mem_cons_self), offsetAt_of_ne p.last hne, List.flatMap_cons,
      ih fun q hq => hps q (List.mem_cons_of_mem _ hq)]

/-- **A run from the start.** The periods that start at frame `0` have an offset of `0`, and
the others have the start of the first of them. -/
theorem runStamps_zero (hps : ∀ p ∈ ps, p.Ok) :
    ∃ start : NFrames,
      runStamps P m ps 0 =
        (ps.takeWhile Period.atZero).flatMap (fun p => relative p.last 0 p.due) ++
          (ps.dropWhile Period.atZero).flatMap (fun p => relative p.last start p.due) ∧
      ∀ p ∈ (ps.dropWhile Period.atZero).head?, start = p.last ∧ start ≠ 0 := by
  induction ps with
  | nil =>
    refine ⟨0, rfl, ?_⟩
    intro p hp
    cases hp
  | cons p ps ih =>
    have hrest : ∀ q ∈ ps, q.Ok := fun q hq => hps q (List.mem_cons_of_mem _ hq)
    rw [runStamps_cons (hps p List.mem_cons_self), offsetAt_zero]
    by_cases hzero : p.last = 0
    · -- the start is `0`: the offset is still not set
      have hat : p.atZero = true := decide_eq_true hzero
      obtain ⟨start, hrun, hhead⟩ := ih hrest
      rw [List.takeWhile_cons_of_pos hat, List.dropWhile_cons_of_pos hat]
      refine ⟨start, ?_, hhead⟩
      rw [List.flatMap_cons, List.append_assoc, ← hrun, hzero]
    · -- the start is the offset of this period and of all behind it
      have hat : ¬ p.atZero = true := fun hat => hzero (of_decide_eq_true hat)
      rw [List.takeWhile_cons_of_neg hat, List.dropWhile_cons_of_neg hat]
      refine ⟨p.last, ?_, ?_⟩
      · rw [runStamps_of_ne hrest hzero, List.flatMap_cons]
        rfl
      · intro q hq
        obtain rfl : p = q := Option.some.inj hq
        exact ⟨rfl, hzero⟩

variable {last start : NFrames} {l : List Event}

theorem mem_relative {a : Stamp} :
    a ∈ relative last start l ↔
      ∃ e ∈ l, a = ⟨clamp last last e.time, clamp last last e.time - start⟩ := by
  unfold relative
  rw [List.mem_map]
  exact exists_congr fun e => and_congr_right fun _ => eq_comm

/-- The events of a period are clamped to frames of it, or to the frame behind it. -/
theorem mem_relative_due (hp : p.Ok) {a : Stamp} (ha : a ∈ relative p.last start p.due) :
    a.time = a.frame - start ∧ p.last.toNat ≤ a.frame.toNat ∧
      a.frame.toNat ≤ p.last.toNat + p.nframes.toNat := by
  obtain ⟨e, he, rfl⟩ := mem_relative.mp ha
  have hdue := hp.noWrap.due_iff.mp (List.mem_filter.mp he).2
  refine ⟨rfl, le_clamp _ _, ?_⟩
  show (clamp p.last p.last e.time).toNat ≤ _
  rw [clamp_toNat]
  omega

/-- The frames of a run do not decrease, whatever they are relative to. -/
theorem frames_pairwise (hps : ∀ p ∈ ps, p.Ok) (hrun : ps.Pairwise Period.Follows)
    (start : NFrames) :
    (ps.flatMap fun p => relative p.last start p.due).Pairwise
      fun a b => a.frame.toNat ≤ b.frame.toNat := by
  rw [List.pairwise_flatMap]
  constructor
  · -- within a period the queue is sorted
    intro p hp
    unfold relative
    rw [List.pairwise_map]
    exact ((hps p hp).ordered.clamp_pairwise p.last).sublist List.filter_sublist
  · -- a period ends before the next one starts
    refine hrun.imp_of_mem ?_
    intro p q hp hq hpq a ha b hb
    unfold Period.Follows at hpq
    have hfst := (mem_relative_due (hps p hp) ha).2.2
    have hsnd := (mem_relative_due (hps q hq) hb).2.1
    omega

/-- Frames that do not decrease, relative to one of them or to an earlier one. -/
theorem faithful_of_start {stamps : List Stamp}
    (htime : ∀ a ∈ stamps, a.time = a.frame - start ∧ start.toNat ≤ a.frame.toNat)
    (hsorted : stamps.Pairwise fun a b => a.frame.toNat ≤ b.frame.toNat) : Faithful stamps := by
  refine hsorted.imp_of_mem ?_
  intro a b ha hb hab
  obtain ⟨hta, hsa⟩ := htime a ha
  obtain ⟨htb, hsb⟩ := htime b hb
  rw [hta, htb, UInt32.toNat_sub_of_le _ _ (UInt32.le_iff_toNat_le.mpr hsa),
    UInt32.toNat_sub_of_le _ _ (UInt32.le_iff_toNat_le.mpr hsb)]
  omega

/-- The periods behind the first have their starts behind its start. -/
theorem start_le (hrun : ps.Pairwise Period.Follows)
    (hhead : ∀ p ∈ ps.head?, start = p.last ∧ start ≠ 0) :
    ∀ p ∈ ps, start.toNat ≤ p.last.toNat := by
  cases ps with
  | nil => exact fun p hp => absurd hp List.not_mem_nil
  | cons p ps =>
    obtain ⟨rfl, -⟩ := hhead p rfl
    intro q hq
    rcases List.mem_cons.mp hq with rfl | hq
    · exact le_refl _
    · have hpq : p.last.toNat + p.nframes.toNat ≤ q.last.toNat :=
        List.rel_of_pairwise_cons hrun hq
      omega

end Runs

variable {P m} {ps : List (Period ρ)}

/-- The condition: the events of periods that start at frame `0` and those of later periods
do not both occur. -/
def OneOffset (ps : List (Period ρ)) : Prop :=
  (∀ p ∈ ps, p.last = 0 → p.due = []) ∨ (∀ p ∈ ps, p.last ≠ 0 → p.due = [])

theorem flatMap_relative_eq_nil {ps : List (Period ρ)} {start : NFrames} :
    (ps.flatMap fun p => relative p.last start p.due) = [] ↔ ∀ p ∈ ps, p.due = [] := by
  rw [List.flatMap_eq_nil_iff]
  exact forall₂_congr fun p _ => List.map_eq_nil_iff

/-- The periods at frame `0` come first. -/
theorem atZero_downward (hrun : ps.Pairwise Period.Follows) :
    ps.Pairwise fun p q => q.atZero = true → p.atZero = true := by
  refine hrun.imp ?_
  intro p q hpq hq
  have hzero : q.last.toNat = 0 := by
    rw [of_decide_eq_true hq]
    rfl
  unfold Period.Follows at hpq
  have hp : p.last.toNat = 0 := by omega
  exact decide_eq_true (UInt32.toNat_inj.mp hp)

theorem oneOffset_iff (hrun : ps.Pairwise Period.Follows) :
    OneOffset ps ↔ (∀ p ∈ ps.takeWhile Period.atZero, p.due = []) ∨
      (∀ p ∈ ps.dropWhile Period.atZero, p.due = []) := by
  rw [StableQueue.takeWhile_eq_filter_of_downward (atZero_downward hrun),
    StableQueue.dropWhile_eq_filter_of_downward (atZero_downward hrun)]
  simp [OneOffset, Period.atZero, List.mem_filter]

/-- Where the offset is set between two events, their stamps are too close. -/
theorem start_eq_zero_of_faithful {early late : List Stamp} {a b : Stamp} {start : NFrames}
    (h : Faithful (early ++ late)) (ha : a ∈ early) (hb : b ∈ late) (hta : a.time = a.frame - 0)
    (htb : b.time = b.frame - start) (hle : start.toNat ≤ b.frame.toNat) : start = 0 := by
  have hab := ((List.pairwise_append.mp h).2.2 a ha b hb).2
  rw [hta, htb, UInt32.sub_zero,
    UInt32.toNat_sub_of_le _ _ (UInt32.le_iff_toNat_le.mpr hle)] at hab
  -- the distance of the frames is that of the times plus the start
  have hzero : start.toNat = 0 := by omega
  exact UInt32.toNat_inj.mp hzero

/-- **The stamps of a recording.** Over a run of periods that do not overlap, and from the
offset that `add` leaves, the stamps keep the order and the distances of the events exactly
if there are not both events of a period at frame `0` and events of a later one: those of
the first are relative to `0`, those of the second to the start of its first period. -/
theorem stamps_faithful_iff (hps : ∀ p ∈ ps, p.Ok) (hrun : ps.IsChain Period.Follows) :
    Faithful (runStamps P m ps 0) ↔ OneOffset ps := by
  have hfollows : ps.Pairwise Period.Follows := List.isChain_iff_pairwise.mp hrun
  obtain ⟨start, heq, hhead⟩ := runStamps_zero (P := P) (m := m) hps
  -- the periods at frame `0` come first, and their stamps are relative to `0`
  rw [heq, oneOffset_iff hfollows]
  have hearly : ∀ p ∈ ps.takeWhile Period.atZero, p.Ok :=
    fun p hp => hps p ((List.takeWhile_sublist _).subset hp)
  have hlate : ∀ p ∈ ps.dropWhile Period.atZero, p.Ok :=
    fun p hp => hps p ((List.dropWhile_sublist _).subset hp)
  have hrunLate := hfollows.sublist (List.dropWhile_sublist Period.atZero)
  -- the late stamps are not before the start
  have htime : ∀ p ∈ ps.dropWhile Period.atZero, ∀ a ∈ relative p.last start p.due,
      a.time = a.frame - start ∧ start.toNat ≤ a.frame.toNat := by
    intro p hp a ha
    obtain ⟨htime, hle, -⟩ := mem_relative_due (hlate p hp) ha
    exact ⟨htime, le_trans (start_le hrunLate hhead p hp) hle⟩
  constructor
  · -- with events of both, the distance between two of them would need a start of `0`
    intro hfaithful
    by_contra hboth
    obtain ⟨hE, hL⟩ := not_or.mp hboth
    push Not at hE hL
    obtain ⟨p, hp, hdueP⟩ := hE
    obtain ⟨q, hq, hdueQ⟩ := hL
    obtain ⟨e, he⟩ := List.exists_mem_of_ne_nil _ hdueP
    obtain ⟨f, hf⟩ := List.exists_mem_of_ne_nil _ hdueQ
    -- a stamp of the event at frame `0`, and one of the later event
    have ha : ⟨_, _⟩ ∈ relative p.last 0 p.due := mem_relative.mpr ⟨e, he, rfl⟩
    have hb : ⟨_, _⟩ ∈ relative q.last start q.due := mem_relative.mpr ⟨f, hf, rfl⟩
    have hzero := start_eq_zero_of_faithful hfaithful (List.mem_flatMap.mpr ⟨p, hp, ha⟩)
      (List.mem_flatMap.mpr ⟨q, hq, hb⟩) rfl rfl (htime q hq _ hb).2
    -- but the start is that of a period that does not start at `0`
    obtain ⟨r, hr⟩ := Option.isSome_iff_exists.mp (List.isSome_head?.mpr (List.ne_nil_of_mem hq))
    exact (hhead r hr).2 hzero
  · -- with events of one kind only, all stamps are relative to one start
    rintro (hnil | hnil)
    · rw [flatMap_relative_eq_nil.mpr hnil, List.nil_append]
      have hall : ∀ a ∈ (ps.dropWhile Period.atZero).flatMap
          (fun p => relative p.last start p.due),
          a.time = a.frame - start ∧ start.toNat ≤ a.frame.toNat := by
        intro a ha
        obtain ⟨p, hp, ha⟩ := List.mem_flatMap.mp ha
        exact htime p hp a ha
      exact faithful_of_start hall (frames_pairwise hlate hrunLate start)
    · rw [flatMap_relative_eq_nil.mpr hnil, List.append_nil]
      have hall : ∀ a ∈ (ps.takeWhile Period.atZero).flatMap
          (fun p => relative p.last 0 p.due),
          a.time = a.frame - 0 ∧ (0 : NFrames).toNat ≤ a.frame.toNat := by
        intro a ha
        obtain ⟨p, hp, ha⟩ := List.mem_flatMap.mp ha
        exact ⟨(mem_relative_due (hearly p hp) ha).1, Nat.zero_le _⟩
      exact faithful_of_start hall
        (frames_pairwise hearly (hfollows.sublist (List.takeWhile_sublist _)) 0)

/-- A period of 8 frames with one event and an empty pipe. -/
def sample (last time : NFrames) : Period (ByteRing.Fifo ringbufSize) :=
  ⟨last, 8, [⟨0, 0, time, [1]⟩], ByteRing.Fifo.empty ringbufSize ringbufSize_pos⟩

theorem sample_ok {last : NFrames} (h : NoWrap last 8) (time : NFrames) : (sample last time).Ok :=
  ⟨h, List.pairwise_singleton _ _⟩

/-- A recording from frame 8 on, with a late event in its second period. -/
theorem stamps_faithful_iff_samples :
    Faithful (runStamps (Platform.plain 64 (LuaScript.pass 0)) 2
      [sample 8 12, sample 16 5, sample 24 30] 0) := by
  refine (stamps_faithful_iff ?_ ?_).mpr (Or.inl ?_)
  · rw [List.forall_mem_cons, List.forall_mem_cons, List.forall_mem_singleton]
    exact ⟨sample_ok (by decide) _, sample_ok (by decide) _, sample_ok (by decide) _⟩
  · unfold Period.Follows
    decide
  · rw [List.forall_mem_cons, List.forall_mem_cons, List.forall_mem_singleton]
    exact ⟨fun h => absurd h (by decide), fun h => absurd h (by decide),
      fun h => absurd h (by decide)⟩

/-- **A recording from frame `0` on.** The event of frame 12 gets the time 4, behind one of
frame 5 that has the time 5. -/
theorem stamps_decrease :
    let P := Platform.plain 64 (LuaScript.pass 0)
    let ps := [sample 0 5, sample 8 12]
    (∀ p ∈ ps, p.Ok) ∧ ps.IsChain Period.Follows ∧
      runStamps P 2 ps 0 = [⟨5, 5⟩, ⟨12, 4⟩] ∧ ¬ Faithful (runStamps P 2 ps 0) := by
  intro P ps
  have hstamps : runStamps P 2 ps 0 = [⟨5, 5⟩, ⟨12, 4⟩] := by decide +kernel
  refine ⟨?_, ?_, hstamps, ?_⟩
  · rw [List.forall_mem_cons, List.forall_mem_singleton]
    exact ⟨sample_ok (by decide) _, sample_ok (by decide) _⟩
  · show List.IsChain Period.Follows [sample 0 5, sample 8 12]
    unfold Period.Follows
    decide
  · rw [hstamps]
    intro h
    exact absurd (List.rel_of_pairwise_cons h List.mem_cons_self).1 (by decide)

end Write

end Tjost
