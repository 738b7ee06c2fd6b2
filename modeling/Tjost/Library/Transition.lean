import Mathlib.Tactic.Common

/-!
# Labelled machines

A machine is a set of initial states and a partial step function: `step s l` is
the state the label `l` leads to, or `none` where `l` is not enabled. Every
choice the environment makes (which party moves, what an outside call answers)
is part of the label, so a list of labels determines a run (`Machine.exec`).

Two rules carry the invariants of the developments built on this file.

* `Machine.exec_invariant` — a predicate that every enabled step preserves holds
  at the end of every run. The step hypothesis may use a *guard* `G`: a
  condition on the state and the label before the step. The conclusion is then
  about the runs whose steps all meet `G` (`Machine.Meets`).
* `Machine.meets_iff` — if the guarded steps preserve a predicate and every other step
  breaks it, then it holds along a run if and only if the steps of the run all meet the
  guard.
-/

namespace Transition

/-- A partial deterministic step function over the labels, with its initial
states. -/
structure Machine (State Label : Type*) where
  init : State → Prop
  step : State → Label → Option State

namespace Machine

variable {State Label : Type*}

/-- The state reached by a list of labels, if they are enabled one after the
other. -/
def exec (M : Machine State Label) : State → List Label → Option State
  | s, [] => some s
  | s, l :: ls => (M.step s l).bind fun s' => M.exec s' ls

/-- Every step of the run from `s` along the labels meets `G` in the state it is
taken in. -/
def Meets (M : Machine State Label) (G : State → Label → Prop) : State → List Label → Prop
  | _, [] => True
  | s, l :: ls => G s l ∧ ∀ s', M.step s l = some s' → M.Meets G s' ls

instance Meets.decidable (M : Machine State Label) (G : State → Label → Prop)
    [∀ s l, Decidable (G s l)] : ∀ s ls, Decidable (M.Meets G s ls)
  | _, [] => isTrue trivial
  | s, l :: ls =>
    match h : M.step s l with
    | none => decidable_of_iff (G s l) (by simp [Meets, h])
    | some t =>
      have := Meets.decidable M G t ls
      decidable_of_iff (G s l ∧ M.Meets G t ls) (by simp [Meets, h])

/-- `s` is reached from some initial state. -/
def Reachable (M : Machine State Label) (s : State) : Prop :=
  ∃ s₀ ls, M.init s₀ ∧ M.exec s₀ ls = some s

/-- `s` is reached from some initial state by a run whose steps all meet `G`. -/
def ReachableUnder (M : Machine State Label) (G : State → Label → Prop) (s : State) : Prop :=
  ∃ s₀ ls, M.init s₀ ∧ M.Meets G s₀ ls ∧ M.exec s₀ ls = some s

variable {M : Machine State Label} {G : State → Label → Prop}

@[simp] theorem exec_nil (s : State) : M.exec s [] = some s := rfl

theorem exec_cons (s : State) (l : Label) (ls : List Label) :
    M.exec s (l :: ls) = (M.step s l).bind fun s' => M.exec s' ls := rfl

/-- Inverting a run: its first step is enabled, and the rest runs from there. -/
theorem exec_cons_eq_some {s s' : State} {l : Label} {ls : List Label} :
    M.exec s (l :: ls) = some s' ↔ ∃ t, M.step s l = some t ∧ M.exec t ls = some s' :=
  Option.bind_eq_some_iff

theorem exec_append {s : State} {ls ls' : List Label} :
    M.exec s (ls ++ ls') = (M.exec s ls).bind fun s' => M.exec s' ls' := by
  induction ls generalizing s with
  | nil => rfl
  | cons l ls ih =>
    rw [List.cons_append, exec_cons, exec_cons]
    cases M.step s l with
    | none => rfl
    | some t => exact ih

theorem meets_true (s : State) (ls : List Label) : M.Meets (fun _ _ => True) s ls := by
  induction ls generalizing s with
  | nil => trivial
  | cons l ls ih => exact ⟨trivial, fun s' _ => ih s'⟩

/-- **Invariance along a run.** -/
theorem exec_invariant {I : State → Prop}
    (hstep : ∀ s l s', I s → G s l → M.step s l = some s' → I s')
    {s s' : State} {ls : List Label} (hI : I s) (hG : M.Meets G s ls)
    (hrun : M.exec s ls = some s') : I s' := by
  induction ls generalizing s with
  | nil =>
    obtain rfl : s = s' := Option.some.inj hrun
    exact hI
  | cons l ls ih =>
    obtain ⟨t, ht, hrun⟩ := exec_cons_eq_some.mp hrun
    exact ih (hstep s l t hI hG.1 ht) (hG.2 t ht) hrun

/-- If the guarded steps are enabled, so is a run of them. -/
theorem exists_exec {I : State → Prop}
    (hstep : ∀ s l, I s → G s l → ∃ s', M.step s l = some s' ∧ I s')
    {s : State} {ls : List Label} (hI : I s) (hG : M.Meets G s ls) :
    ∃ s', M.exec s ls = some s' ∧ I s' := by
  induction ls generalizing s with
  | nil => exact ⟨s, rfl, hI⟩
  | cons l ls ih =>
    obtain ⟨t, ht, hIt⟩ := hstep s l hI hG.1
    obtain ⟨s', hrun, hI'⟩ := ih hIt (hG.2 t ht)
    exact ⟨s', exec_cons_eq_some.mpr ⟨t, ht, hrun⟩, hI'⟩

/-- An invariant of the initial states and of the guarded steps holds of every
state reached under the guard. -/
theorem ReachableUnder.invariant {I : State → Prop} (hinit : ∀ s, M.init s → I s)
    (hstep : ∀ s l s', I s → G s l → M.step s l = some s' → I s')
    {s : State} (hs : M.ReachableUnder G s) : I s := by
  obtain ⟨s₀, ls, h₀, hG, hrun⟩ := hs
  exact exec_invariant hstep (hinit s₀ h₀) hG hrun

/-- An invariant of the initial states and of every step holds of every
reachable state. -/
theorem Reachable.invariant {I : State → Prop} (hinit : ∀ s, M.init s → I s)
    (hstep : ∀ s l s', I s → M.step s l = some s' → I s')
    {s : State} (hs : M.Reachable s) : I s := by
  obtain ⟨s₀, ls, h₀, hrun⟩ := hs
  exact exec_invariant (G := fun _ _ => True) (fun s l s' hI _ h => hstep s l s' hI h)
    (hinit s₀ h₀) (meets_true s₀ ls) hrun

/-- **Forward simulation.** If every step is a run of another machine, seen through `f`, then so
is every run. `R` says which labels a label stands for. -/
theorem exists_exec_map {State' Label' : Type*} {N : Machine State' Label'} {f : State → State'}
    {I : State → Prop} {R : Label → List Label' → Prop}
    (hstep : ∀ s l s', I s → M.step s l = some s' →
      I s' ∧ ∃ ls, R l ls ∧ N.exec (f s) ls = some (f s'))
    {s s' : State} {ls : List Label} (hI : I s) (hrun : M.exec s ls = some s') :
    I s' ∧ ∃ lss, List.Forall₂ R ls lss ∧ N.exec (f s) lss.flatten = some (f s') := by
  induction ls generalizing s with
  | nil =>
    obtain rfl : s = s' := Option.some.inj hrun
    exact ⟨hI, [], List.Forall₂.nil, rfl⟩
  | cons l ls ih =>
    obtain ⟨t, ht, hrun⟩ := exec_cons_eq_some.mp hrun
    obtain ⟨hIt, ls₁, hR, hls₁⟩ := hstep s l t hI ht
    obtain ⟨hI', lss, hRs, hlss⟩ := ih hIt hrun
    refine ⟨hI', ls₁ :: lss, List.Forall₂.cons hR hRs, ?_⟩
    rw [List.flatten_cons, exec_append, hls₁, Option.bind_some, hlss]

/-- **An exact guard.** If a guarded step keeps `I` and any other step breaks it,
then `I` holds at all times of a run if and only if every step of the run meets the
guard. `S` is an invariant of all steps. -/
theorem meets_iff {S I : State → Prop} (hS : ∀ s l s', S s → M.step s l = some s' → S s')
    (hI : ∀ s l s', S s → I s → M.step s l = some s' → (I s' ↔ G s l))
    {s s' : State} {ls : List Label} (hs : S s) (hi : I s) (hrun : M.exec s ls = some s') :
    (∀ ls' t, ls' <+: ls → M.exec s ls' = some t → I t) ↔ M.Meets G s ls := by
  induction ls generalizing s with
  | nil =>
    refine iff_of_true ?_ trivial
    intro ls' t hls' ht
    rw [List.prefix_nil.mp hls'] at ht
    obtain rfl : s = t := Option.some.inj ht
    exact hi
  | cons l ls ih =>
    obtain ⟨u, hu, hexec⟩ := exec_cons_eq_some.mp hrun
    constructor
    · intro h
      -- the property after one step makes it a guarded one
      have hone : M.exec s [l] = some u := exec_cons_eq_some.mpr ⟨u, hu, rfl⟩
      have hIu : I u := h [l] u (List.prefix_append [l] ls) hone
      refine ⟨(hI s l u hs hi hu).mp hIu, ?_⟩
      intro v hv
      obtain rfl : u = v := Option.some.inj (hu.symm.trans hv)
      refine (ih (hS s l u hs hu) hIu hexec).mp ?_
      intro ls' t hls' ht
      refine h (l :: ls') t ?_ (exec_cons_eq_some.mpr ⟨u, hu, ht⟩)
      exact List.cons_prefix_cons.mpr ⟨rfl, hls'⟩
    · rintro ⟨hG, hrest⟩ ls' t hls' ht
      -- and a guarded step keeps the property
      have hIu : I u := (hI s l u hs hi hu).mpr hG
      cases ls' with
      | nil =>
        obtain rfl : s = t := Option.some.inj ht
        exact hi
      | cons k ls' =>
        obtain ⟨rfl, htail⟩ := List.cons_prefix_cons.mp hls'
        obtain ⟨v, hv, htexec⟩ := exec_cons_eq_some.mp ht
        obtain rfl : u = v := Option.some.inj (hu.symm.trans hv)
        exact (ih (hS s k u hs hu) hIu hexec).mpr (hrest u hu) ls' t htail htexec

end Machine

end Transition
