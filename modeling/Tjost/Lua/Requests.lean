import Tjost.Library.Transition
import Tjost.Lua.Bundle

/-!
# What the serialiser requests

A packet that does not fit makes a setter answer `NULL`. The pointer then stays `NULL` in
`module->buf_ptr`, through all elements of the open bundles. A message outside of a bundle
is scheduled only if its pointer is not `NULL`. The pop of the outermost bundle does not
look at it, and takes the difference to `module->buffer` for a size. Nor does a pop look
whether a bundle is open.

`Serializer.machine` runs the calls of an output module and records what they pass to
`tjost_module_schedule`. `Serializer.wellFormed_iff`: all requests are of packets that have
fitted and have a size between 1 and `TJOST_BUF_SIZE`, no bundle record is made up and the
next packet is serialised as ever, if and only if every pop has an open bundle and the pop
of an outermost bundle comes with a pointer (`Serializer.Closes`).
-/

open ByteMemory Transition

namespace Tjost

/-- libosc hands `NULL` on, and answers it where a bundle does not fit. The end of a bundle
is nowhere else `NULL`. -/
structure LibOsc.NullSafe (O : LibOsc) : Prop where
  set_null : ∀ item mem, (O.set item mem none).2 = none
  startBundle_null : ∀ mem timetag, (O.startBundle mem none timetag).2.1 = none
  startBundle_full : ∀ mem p timetag, bufSize < p + 16 →
    (O.startBundle mem (some p) timetag).2.1 = none
  endBundle_null : ∀ mem bndl, (O.endBundle mem none bndl).2 = none
  endBundle_some : ∀ mem p bndl, (O.endBundle mem (some p) (some bndl)).2 ≠ none
  startBundleItem_null : ∀ mem, (O.startBundleItem mem none).2.1 = none
  endBundleItem_null : ∀ mem itm, (O.endBundleItem mem none itm).2 = none

/-- A call of `tjost_module_schedule`. -/
structure Request where
  size : ℕ
  /-- Ghost: a call for the packet has left the pointer `NULL`. -/
  lost : Bool
  deriving DecidableEq, Repr

/-- `ptr - module->buffer` as a `size_t`, with the address of the buffer. -/
def ptrSize (base : UInt64) (ptr : Option ℕ) : UInt64 :=
  (match ptr with
    | some p => base + UInt64.ofNat p
    | none => 0) - base

/-- An output module, with what its calls have done so far. -/
structure Serializer where
  module : OutModule
  requests : List Request
  /-- Ghost: the packet in progress has not fitted. -/
  lost : Bool
  /-- Ghost: a pop has taken what is not there for a bundle record. -/
  strayed : Bool
  /-- A null pointer has been followed. -/
  dead : Bool

namespace Serializer

variable (A : LuaApi) (O : LibOsc) (base : UInt64)

/-- A call. Where `serializePacket` has no result, a pop follows a null pointer: to the
record of the bundle, or in the size of the packet. -/
def next (s : Serializer) (c : Call) : Serializer :=
  match serializePacket A O c s.module with
  | some r =>
    let lost := (!s.module.bndls.isEmpty && s.lost) || r.module.bufPtr.isNone
    { s with
      module := r.module
      requests := s.requests ++ r.scheduled.map fun x => ⟨x.2.length, lost⟩
      lost }
  | none =>
    match s.module.bndls with
    -- the container of the head of an empty list is taken for a record
    | [] => { s with strayed := true, dead := true }
    -- the size is not `0`, so there is a request
    | _ :: _ =>
      { s with requests := s.requests ++ [⟨(ptrSize base none).toNat, s.lost⟩], dead := true }

def Init (s : Serializer) : Prop := s = ⟨OutModule.new, [], false, false, false⟩

def machine : Machine Serializer Call where
  init := Init
  step s c := if s.dead then none else some (s.next A O base c)

/-- The next packet is serialised as ever: a message, or a bundle of messages and of
bundles of messages. -/
def Normal (s : OutModule) : Prop :=
  s.bndls = [] →
    (∀ c time items, IsMessage A O c time items → (encodeItems O items).length ≤ bufSize →
      ∃ s', serializePacket A O c s = some ⟨s', [(time, encodeItems O items)], [], false⟩) ∧
    ∀ push (inner : Elements) pop time, inner.Valid A O → inner ≠ .nil → inner.depth ≤ 1 →
      IsPush A push → IsPop A pop time → 16 + (inner.encode A O).length ≤ bufSize →
        ∃ s', serializeAll A O (push :: inner.calls ++ [pop]) s =
          some (s', [(time, bundleHeader oscImmediate ++ inner.encode A O)])

/-- **The requests are well-formed.** -/
structure WellFormed (s : Serializer) : Prop where
  size : ∀ r ∈ s.requests, 1 ≤ r.size ∧ r.size ≤ bufSize
  fits : ∀ r ∈ s.requests, r.lost = false
  record : s.strayed = false
  normal : Normal A O s.module

/-- **The condition on a call.** A pop has an open bundle, and if that is the outermost one
everything in it has fitted. -/
def Closes (s : Serializer) (c : Call) : Prop :=
  ∀ time, IsPop A c time →
    s.module.bndls ≠ [] ∧ (s.module.bndls.length = 1 → s.module.bufPtr ≠ none)

/-- What holds of a module, whatever is called. -/
structure Tracks (s : Serializer) : Prop where
  within : s.module.Within
  lost : s.module.bndls ≠ [] → s.lost = true → s.module.bufPtr = none
  bndls : s.module.bndls ≠ [] → s.module.bufPtr ≠ none → ∀ bndl ∈ s.module.bndls, bndl ≠ none

end Serializer

section Calls

variable {A : LuaApi} {O : LibOsc} {s : OutModule} {c : Call} {r : CallResult} {time : NFrames}

theorem popBundle_eq_none_iff : popBundle O time s = none ↔ s.bndls = [] ∨
    ∃ bndl, s.bndls = [bndl] ∧ (O.endBundle s.buffer s.bufPtr bndl).2 = none := by
  unfold popBundle
  split
  · next hnil => exact iff_of_true rfl (Or.inl hnil)
  · next bndl bndls hcons =>
    simp only
    split
    · next hlast =>
      rw [Option.map_eq_none_iff, hcons, hlast]
      simp
    · next hmore =>
      refine iff_of_false (fun h => by cases h) ?_
      rintro (hnil | ⟨b, hb, -⟩)
      · exact absurd (hcons.symm.trans hnil) (List.cons_ne_nil _ _)
      · exact hmore (List.cons.inj (hcons.symm.trans hb)).2

/-- **Where a pop follows a null pointer.** -/
theorem serializePacket_eq_none_iff : serializePacket A O c s = none ↔
    ∃ time, IsPop A c time ∧ (s.bndls = [] ∨
      ∃ bndl, s.bndls = [bndl] ∧ (O.endBundle s.buffer s.bufPtr bndl).2 = none) := by
  by_cases hpop : ∃ time, IsPop A c time
  · obtain ⟨time, hpop⟩ := hpop
    rw [serializePacket_pop hpop, popBundle_eq_none_iff]
    exact ⟨fun h => ⟨time, hpop, h⟩, fun ⟨_, _, h⟩ => h⟩
  · refine iff_of_false ?_ (fun ⟨time, h, _⟩ => hpop ⟨time, h⟩)
    unfold serializePacket
    split
    · exact fun h => by cases h
    · next time path fmt args hheader =>
      split
      · exact fun h => by cases h
      · split
        · next hpath =>
          obtain ⟨rfl, rfl⟩ := hpath
          exact absurd ⟨time, args, hheader⟩ hpop
        · exact fun h => by cases h

theorem setMessage_bndls (path fmt : List Char) (args : List LuaValue) :
    (setMessage A O time path fmt args s).module.bndls = s.bndls := by
  unfold setMessage
  split
  · split
    · rfl
    · simp only
      split
      · rfl
      · split
        · rfl
        · split
          · rfl
          · rfl

/-- What is scheduled is not empty, and ends at the pointer that the call leaves. -/
def CallResult.Ends (r : CallResult) : Prop :=
  ∀ x ∈ r.scheduled, 0 < x.2.length ∧ r.module.bufPtr ≠ none

theorem popBundle_ends (hr : popBundle O time s = some r) : r.Ends := by
  unfold popBundle at hr
  split at hr
  · cases hr
  · simp only at hr
    split at hr
    · -- the outermost bundle has a size, since the null pointer has no result
      obtain ⟨size, hsize, rfl⟩ := Option.map_eq_some_iff.mp hr
      intro x hx
      refine ⟨?_, ?_⟩
      · simp only at hx
        split at hx
        · next hpos =>
          rw [List.mem_singleton.mp hx, length_read]
          exact hpos
        · exact absurd hx List.not_mem_nil
      · show (O.endBundle s.buffer s.bufPtr _).2 ≠ none
        rw [hsize]
        exact Option.some_ne_none size
    · obtain rfl := Option.some.inj hr
      exact fun x hx => absurd hx List.not_mem_nil

theorem setMessage_ends (path fmt : List Char) (args : List LuaValue) :
    (setMessage A O time path fmt args s).Ends := by
  have hnone : ∀ (m : OutModule) (msgs : List String) (raised : Bool),
      CallResult.Ends ⟨m, [], msgs, raised⟩ :=
    fun _ _ _ x hx => absurd hx List.not_mem_nil
  unfold setMessage
  split
  · next buffer ptr itm hstart =>
    split
    · exact hnone _ _ _
    · simp only
      split
      · exact hnone _ _ _
      · split
        · exact hnone _ _ _
        · split
          · -- outside of a bundle the pointer is tested
            intro x hx
            simp only at hx
            split at hx
            · next size hptr =>
              split at hx
              · next hpos =>
                refine ⟨?_, ?_⟩
                · rw [List.mem_singleton.mp hx, length_read]
                  exact hpos
                · exact fun hnull => Option.some_ne_none size (hptr.symm.trans hnull)
              · exact absurd hx List.not_mem_nil
            · exact absurd hx List.not_mem_nil
          · exact hnone _ _ _

theorem serializePacket_ends (hr : serializePacket A O c s = some r) : r.Ends := by
  unfold serializePacket at hr
  split at hr
  · obtain rfl := Option.some.inj hr
    exact fun x hx => absurd hx List.not_mem_nil
  · split at hr
    · obtain rfl := Option.some.inj hr
      exact fun x hx => absurd hx List.not_mem_nil
    · split at hr
      · exact popBundle_ends hr
      · obtain rfl := Option.some.inj hr
        exact setMessage_ends _ _ _

section NullSafe

variable (hO : O.NullSafe)

include hO

theorem setArgs_null (fmt : List Char) (args : List LuaValue) (buffer : ByteMemory.Memory) :
    (setArgs A O fmt args buffer none).ptr = none := by
  induction fmt generalizing args buffer with
  | nil => rfl
  | cons type fmt ih =>
    unfold setArgs
    split
    · next item _ =>
      simp only [hO.set_null item buffer]
      exact ih _ _
    · exact ih _ _
    · exact ih _ _
    · rfl

theorem popBundle_null (hbndls : s.bndls ≠ []) (hnull : s.bufPtr = none)
    (hr : popBundle O time s = some r) : r.module.bufPtr = none := by
  unfold popBundle at hr
  split at hr
  · next hnil => exact absurd hnil hbndls
  · next bndl bndls hcons =>
    have hend : (O.endBundle s.buffer s.bufPtr bndl).2 = none := by
      rw [hnull]
      exact hO.endBundle_null _ _
    simp only [hend] at hr
    split at hr
    · cases hr
    · obtain rfl := Option.some.inj hr
      exact hO.endBundleItem_null _ _

theorem setMessage_null (hbndls : s.bndls ≠ []) (hnull : s.bufPtr = none) (path fmt : List Char)
    (args : List LuaValue) : (setMessage A O time path fmt args s).module.bufPtr = none := by
  unfold setMessage
  simp only [if_neg hbndls, hnull, hO.startBundleItem_null, hO.set_null]
  split
  · rfl
  · split
    · rfl
    · split
      · rfl
      · simp only [setArgs_null hO, hO.endBundleItem_null]

/-- **A null pointer stays** while a bundle is open. -/
theorem null_persists (hbndls : s.bndls ≠ []) (hnull : s.bufPtr = none)
    (hr : serializePacket A O c s = some r) : r.module.bufPtr = none := by
  unfold serializePacket at hr
  split at hr
  · obtain rfl := Option.some.inj hr
    exact hnull
  · split at hr
    · obtain rfl := Option.some.inj hr
      show (pushBundle O s).bufPtr = none
      unfold pushBundle
      simp only [if_neg hbndls, hnull, hO.startBundleItem_null, hO.startBundle_null]
    · split at hr
      · exact popBundle_null hO hbndls hnull hr
      · obtain rfl := Option.some.inj hr
        exact setMessage_null hO hbndls hnull _ _ _

end NullSafe

/-- A top-level packet does not depend on what was serialised before. -/
theorem normal : Serializer.Normal A O s := by
  intro hbndls
  refine ⟨?_, ?_⟩
  · intro c time items hmessage hfit
    obtain ⟨s', hs', -⟩ := serializePacket_message hmessage hbndls hfit
    exact ⟨s', hs'⟩
  · intro push inner pop time hvalid hne hdepth hpush hpop hfit
    obtain ⟨s', s'', -, hrun, hbuffer, -⟩ := outer_runs hvalid hne hpush hpop hfit hbndls
    have hread := read_write s.buffer 0 (bundleHeader oscImmediate ++ inner.encode A O)
    rw [List.length_append, length_bundleHeader] at hread
    rw [hbuffer hdepth, hread] at hrun
    exact ⟨s'', hrun⟩

end Calls

namespace Serializer

variable {A : LuaApi} {O : LibOsc} {base : UInt64} {s s' : Serializer} {c : Call}

theorem next_of_some {r : CallResult} (hr : serializePacket A O c s.module = some r) :
    s.next A O base c =
      let lost := (!s.module.bndls.isEmpty && s.lost) || r.module.bufPtr.isNone
      { s with
        module := r.module
        requests := s.requests ++ r.scheduled.map fun x => ⟨x.2.length, lost⟩
        lost } := by
  unfold next
  rw [hr]

/-- A pop without an open bundle. -/
theorem next_stray (hnone : serializePacket A O c s.module = none) (hbndls : s.module.bndls = []) :
    s.next A O base c = { s with strayed := true, dead := true } := by
  unfold next
  rw [hnone, hbndls]

/-- A pop of an outermost bundle that has not fitted. -/
theorem next_null (hnone : serializePacket A O c s.module = none) (hbndls : s.module.bndls ≠ []) :
    s.next A O base c =
      { s with
        requests := s.requests ++ [⟨(ptrSize base none).toNat, s.lost⟩]
        dead := true } := by
  obtain ⟨bndl, bndls, hcons⟩ := List.exists_cons_of_ne_nil hbndls
  unfold next
  rw [hnone, hcons]

theorem step_eq_some : (machine A O base).step s c = some s' ↔
    s.dead = false ∧ s' = s.next A O base c := by
  show (if s.dead = true then none else some (s.next A O base c)) = some s' ↔ _
  cases s.dead with
  | true => simp
  | false => simp [eq_comm]

/-- The bundle records that a call leaves, with a pointer, have pointers. -/
theorem bndls_spec (hO : O.NullSafe) {r : CallResult} {m : OutModule}
    (hm : m.bndls ≠ [] → m.bufPtr ≠ none → ∀ bndl ∈ m.bndls, bndl ≠ none)
    (hr : serializePacket A O c m = some r) (hptr : r.module.bufPtr ≠ none) :
    ∀ bndl ∈ r.module.bndls, bndl ≠ none := by
  -- a pointer is left only where there was one
  have hold : ∀ bndl ∈ m.bndls, bndl ≠ none := by
    intro bndl hb
    have hne : m.bndls ≠ [] := List.ne_nil_of_mem hb
    exact hm hne (fun hnull => hptr (null_persists hO hne hnull hr)) bndl hb
  unfold serializePacket at hr
  split at hr
  · obtain rfl := Option.some.inj hr
    exact hold
  · split at hr
    · -- a bundle that fits gets a pointer
      obtain rfl := Option.some.inj hr
      change (pushBundle O m).bufPtr ≠ none at hptr
      show ∀ bndl ∈ (pushBundle O m).bndls, bndl ≠ none
      unfold pushBundle at hptr ⊢
      split at hptr
      next buffer ptr itm hstart =>
      cases ptr with
      | none => exact absurd (hO.startBundle_null buffer oscImmediate) hptr
      | some p =>
        have hfit : p + 16 ≤ bufSize := by
          by_contra hfull
          exact hptr (hO.startBundle_full buffer p oscImmediate (Nat.lt_of_not_le hfull))
        simp only [O.startBundle_eq buffer p oscImmediate hfit]
        exact List.forall_mem_cons.mpr ⟨Option.some_ne_none p, hold⟩
    · split at hr
      · unfold popBundle at hr
        split at hr
        · cases hr
        · next bndl bndls hcons =>
          have htail : ∀ b ∈ bndls, b ≠ none := fun b hb =>
            hold b (hcons ▸ List.mem_cons_of_mem _ hb)
          simp only at hr
          split at hr
          · obtain ⟨size, -, rfl⟩ := Option.map_eq_some_iff.mp hr
            exact htail
          · obtain rfl := Option.some.inj hr
            exact htail
      · obtain rfl := Option.some.inj hr
        rw [setMessage_bndls]
        exact hold

/-- **A call that does not follow a null pointer** keeps the invariant, and the requests
well-formed. -/
theorem next_some (hO : O.NullSafe) (hbound : O.Bounded) (ht : Tracks s)
    {r : CallResult} (hr : serializePacket A O c s.module = some r) :
    Tracks (s.next A O base c) ∧ (WellFormed A O s → WellFormed A O (s.next A O base c)) := by
  rw [next_of_some hr]
  obtain ⟨hwithin, hsize⟩ := serializePacket_within hbound ht.within hr
  have hends := serializePacket_ends hr
  -- the packet has lost something only if the pointer is gone
  have hlost : ((!s.module.bndls.isEmpty && s.lost) || r.module.bufPtr.isNone) = true →
      r.module.bufPtr = none := by
    intro h
    rcases Bool.or_eq_true_iff.mp h with h | h
    · obtain ⟨hopen, hl⟩ := Bool.and_eq_true_iff.mp h
      have hne : s.module.bndls ≠ [] := by simpa using hopen
      exact null_persists hO hne (ht.lost hne hl) hr
    · exact Option.isNone_iff_eq_none.mp h
  refine ⟨⟨hwithin, fun _ => hlost, fun _ hptr => bndls_spec hO ht.bndls hr hptr⟩, ?_⟩
  intro hw
  refine ⟨?_, ?_, hw.record, normal⟩
  · intro q hq
    rcases List.mem_append.mp hq with hq | hq
    · exact hw.size q hq
    · obtain ⟨x, hx, rfl⟩ := List.mem_map.mp hq
      exact ⟨(hends x hx).1, hsize x hx⟩
  · intro q hq
    rcases List.mem_append.mp hq with hq | hq
    · exact hw.fits q hq
    · obtain ⟨x, hx, rfl⟩ := List.mem_map.mp hq
      exact Bool.eq_false_iff.mpr fun h => (hends x hx).2 (hlost h)

/-- **The pops that follow a null pointer** are those that do not meet the condition. -/
theorem eq_none_iff (hO : O.NullSafe) (ht : Tracks s) :
    serializePacket A O c s.module = none ↔ ¬ Closes A s c := by
  rw [serializePacket_eq_none_iff]
  constructor
  · -- with a pointer, the end of the bundle is one
    rintro ⟨time, hpop, hnil | ⟨bndl, hbndls, hend⟩⟩ hcloses
    · exact (hcloses time hpop).1 hnil
    · have hptr := (hcloses time hpop).2 (by rw [hbndls]; rfl)
      have hb : bndl ≠ none := by
        refine ht.bndls ?_ hptr bndl ?_
        · rw [hbndls]
          exact List.cons_ne_nil _ _
        · rw [hbndls]
          exact List.mem_cons_self
      obtain ⟨p, hp⟩ := Option.ne_none_iff_exists'.mp hptr
      obtain ⟨b, rfl⟩ := Option.ne_none_iff_exists'.mp hb
      rw [hp] at hend
      exact hO.endBundle_some _ p b hend
  · intro h
    unfold Closes at h
    push Not at h
    obtain ⟨time, hpop, h⟩ := h
    refine ⟨time, hpop, ?_⟩
    by_cases hnil : s.module.bndls = []
    · exact Or.inl hnil
    · obtain ⟨hone, hptr⟩ := h hnil
      obtain ⟨bndl, hbndls⟩ := List.length_eq_one_iff.mp hone
      refine Or.inr ⟨bndl, hbndls, ?_⟩
      rw [hptr]
      exact hO.endBundle_null _ _

/-- The size that is computed from a null pointer. -/
theorem ptrSize_none (hbase : 0 < base) :
    (ptrSize base none).toNat = 2 ^ 64 - base.toNat := by
  have hpos : 0 < base.toNat := UInt64.lt_iff_toNat_lt.mp hbase
  show (0 - base).toNat = _
  rw [UInt64.toNat_sub]
  have hlt := base.toNat_lt
  have hzero : (0 : UInt64).toNat = 0 := rfl
  omega

/-- They leave requests that are not well-formed, and the module is dead. -/
theorem next_none (hbase : 0 < base) (hend : base.toNat + bufSize < 2 ^ 64)
    (hnone : serializePacket A O c s.module = none) :
    ¬ WellFormed A O (s.next A O base c) ∧ (s.next A O base c).dead = true := by
  by_cases hbndls : s.module.bndls = []
  · rw [next_stray hnone hbndls]
    refine ⟨fun hw => ?_, rfl⟩
    exact Bool.noConfusion hw.record
  · rw [next_null hnone hbndls]
    refine ⟨fun hw => ?_, rfl⟩
    have hsize : (ptrSize base none).toNat ≤ bufSize :=
      (hw.size _ (List.mem_append_right _ List.mem_cons_self)).2
    rw [ptrSize_none hbase] at hsize
    omega

/-- **When the requests are well-formed.** -/
theorem wellFormed_iff (hO : O.NullSafe) (hbound : O.Bounded) (hbase : 0 < base)
    (hend : base.toNat + bufSize < 2 ^ 64) {s₀ : Serializer} {cs : List Call}
    (h₀ : (machine A O base).init s₀) (hrun : (machine A O base).exec s₀ cs = some s) :
    (∀ cs' t, cs' <+: cs → (machine A O base).exec s₀ cs' = some t → WellFormed A O t) ↔
      (machine A O base).Meets (Closes A) s₀ cs := by
  obtain rfl := h₀
  -- a module is tracked until it follows a null pointer
  refine Machine.meets_iff (S := fun s => s.dead = false → Tracks s) ?_ ?_ ?_ ?_ hrun
  · intro s c s' ht hstep hdead
    obtain ⟨halive, rfl⟩ := step_eq_some.mp hstep
    cases hr : serializePacket A O c s.module with
    | some r => exact (next_some hO hbound (ht halive) hr).1
    | none => exact Bool.noConfusion (hdead.symm.trans (next_none hbase hend hr).2)
  · intro s c s' ht hw hstep
    obtain ⟨halive, rfl⟩ := step_eq_some.mp hstep
    have hiff : serializePacket A O c s.module = none ↔ ¬ Closes A s c := eq_none_iff hO (ht halive)
    cases hr : serializePacket A O c s.module with
    | some r =>
      have hcloses : Closes A s c := by
        by_contra h
        exact Option.some_ne_none r (hr.symm.trans (hiff.mpr h))
      exact iff_of_true ((next_some hO hbound (ht halive) hr).2 hw) hcloses
    | none => exact iff_of_false (next_none hbase hend hr).1 (hiff.mp hr)
  · exact fun _ => ⟨OutModule.new_within, fun h => absurd rfl h, fun h => absurd rfl h⟩
  · exact ⟨fun q hq => absurd hq List.not_mem_nil, fun q hq => absurd hq List.not_mem_nil, rfl,
      normal⟩

/-- The condition can be decided from the header of the call. -/
instance decidableCloses (s : Serializer) (c : Call) : Decidable (Closes A s c) :=
  match h : callHeader A c with
  | none => isTrue fun time ⟨_, hpop⟩ => by cases h.symm.trans hpop
  | some (time, path, fmt, args) =>
    if hpath : path = bundlePopPath ∧ fmt = [] then
      decidable_of_iff
        (s.module.bndls ≠ [] ∧ (s.module.bndls.length = 1 → s.module.bufPtr ≠ none))
        ⟨fun hc _ _ => hc, fun hc => hc time ⟨args, by rw [h, hpath.1, hpath.2]⟩⟩
    else isTrue fun time' ⟨args', hpop⟩ => by
      obtain ⟨-, rfl, rfl, -⟩ := Prod.mk.injEq .. ▸ Option.some.inj (h.symm.trans hpop)
      exact absurd ⟨rfl, rfl⟩ hpath

end Serializer

/-- The plain libosc, with the ends of bundles that hand `NULL` on. -/
def LibOsc.strict : LibOsc :=
  { LibOsc.plain with
    endBundle := fun mem ptr bndl =>
      match ptr with
      | some p => if p > bndl.getD 0 + 16 then (mem, some p) else (mem, some (bndl.getD 0))
      | none => (mem, none)
    endBundle_eq := fun _ _ _ h => if_pos h }

theorem LibOsc.strict_nullSafe : LibOsc.strict.NullSafe where
  set_null _ _ := rfl
  startBundle_null _ _ := rfl
  startBundle_full mem p timetag h := by
    show (if p + 16 ≤ bufSize then _ else _ : ByteMemory.Memory × Option ℕ × Option ℕ).2.1 = none
    rw [if_neg (Nat.not_le.mpr h)]
  endBundle_null _ _ := rfl
  endBundle_some mem p bndl := by
    show (if p > bndl + 16 then _ else _ : ByteMemory.Memory × Option ℕ).2 ≠ none
    split
    · exact Option.some_ne_none p
    · exact Option.some_ne_none bndl
  startBundleItem_null _ := rfl
  endBundleItem_null _ _ := rfl

theorem LibOsc.strict_bounded : LibOsc.strict.Bounded where
  set := LibOsc.plain_bounded.set
  startBundle := LibOsc.plain_bounded.startBundle
  endBundle mem ptr bndl hptr hbndl := by
    cases ptr with
    | none => exact WithinBuffer.none
    | some p =>
      show WithinBuffer (if p > bndl.getD 0 + 16 then _ else _ : ByteMemory.Memory × Option ℕ).2
      split
      · exact hptr
      · cases bndl with
        | none => exact WithinBuffer.zero
        | some b => exact hbndl
  startBundleItem := LibOsc.plain_bounded.startBundleItem
  endBundleItem := LibOsc.plain_bounded.endBundleItem

namespace Serializer

/-- A new module. -/
def start : Serializer := ⟨OutModule.new, [], false, false, false⟩

/-- A bundle of a message and an empty bundle, a message, and a bundle without a message. -/
def requestCalls : List Call :=
  [pushCall, pingCall, pushCall, popCall, popCall, pingCall, pushCall, popCall]

theorem wellFormed_iff_start :
    ∃ s, (machine LuaApi.plain LibOsc.strict 4096).exec start requestCalls = some s ∧
      s.requests = [⟨32, false⟩, ⟨12, false⟩] ∧ WellFormed LuaApi.plain LibOsc.strict s := by
  have hmeets : (machine LuaApi.plain LibOsc.strict 4096).Meets (Closes LuaApi.plain) start
      requestCalls := by
    decide +kernel
  have hrun : ((machine LuaApi.plain LibOsc.strict 4096).exec start requestCalls).map requests =
      some [⟨32, false⟩, ⟨12, false⟩] := by
    decide +kernel
  obtain ⟨s, hs, hrequests⟩ := Option.map_eq_some_iff.mp hrun
  exact ⟨s, hs, hrequests, (wellFormed_iff LibOsc.strict_nullSafe LibOsc.strict_bounded (by decide)
    (by decide) rfl hs).mpr hmeets requestCalls s List.prefix_rfl hs⟩

/-- A message with a path that is as long as the buffer leaves `NULL` in an open bundle. -/
theorem serializePacket_full {path : List Char} (hlong : bufSize ≤ path.length)
    (hslash : path.head? = some '/') {m : OutModule} (hbndls : m.bndls ≠ []) :
    serializePacket LuaApi.plain LibOsc.strict [.string path, .string []] m =
      some ⟨{ m with bufPtr := none }, [], [], false⟩ := by
  have hpush : ¬ (path = bundlePushPath ∧ ([] : List Char) = []) := by
    rintro ⟨rfl, -⟩
    exact absurd hlong (by decide)
  have hpop : ¬ (path = bundlePopPath ∧ ([] : List Char) = []) := by
    rintro ⟨rfl, -⟩
    exact absurd hlong (by decide)
  have hheader : callHeader LuaApi.plain [.string path, .string []] = some (0, path, [], []) := rfl
  have hcheck : LibOsc.strict.checkPath path = true := decide_eq_true hslash
  have hstart : ∀ ptr, (LibOsc.strict.startBundleItem m.buffer ptr).1 = m.buffer := by
    intro ptr
    cases ptr with
    | none => rfl
    | some p =>
      show (if p + 4 ≤ bufSize then _ else _ : ByteMemory.Memory × Option ℕ × Option ℕ).1 = _
      split <;> rfl
  have hset : ∀ ptr, LibOsc.strict.set (.path path) m.buffer ptr = (m.buffer, none) := by
    intro ptr
    cases ptr with
    | none => rfl
    | some p =>
      refine if_neg ?_
      simp only [OscItem.plain, oscPad, List.length_append, List.length_map,
        List.length_replicate]
      omega
  unfold serializePacket
  rw [hheader]
  dsimp only
  rw [if_neg hpush, if_neg hpop]
  unfold setMessage
  simp only [if_neg hbndls, hcheck, hstart, hset, Bool.true_eq_false, if_false]
  rfl

/-- A message with a path of 16385 characters. -/
def longCall : Call := [.string ('/' :: List.replicate bufSize 'a'), .string []]

/-- **A bundle that does not fit** is scheduled with a size that is made of a null pointer,
and a pop without an open bundle takes a record from nowhere. -/
theorem pop_null :
    (∃ s, (machine LuaApi.plain LibOsc.strict 4096).exec start [pushCall, longCall, popCall] =
        some s ∧ s.requests = [⟨18446744073709547520, true⟩] ∧
        ¬ WellFormed LuaApi.plain LibOsc.strict s) ∧
      ∃ s, (machine LuaApi.plain LibOsc.strict 4096).exec start [popCall] = some s ∧
        s.strayed = true ∧ ¬ WellFormed LuaApi.plain LibOsc.strict s := by
  refine ⟨?_, ?_⟩
  · -- the bundle is opened, and its only element does not fit
    set opened : Serializer := start.next LuaApi.plain LibOsc.strict 4096 pushCall with hopened
    set full : Serializer :=
      { opened with module := { opened.module with bufPtr := none }, lost := true } with hfull
    have hlength : bufSize ≤ ('/' :: List.replicate bufSize 'a').length := by
      rw [List.length_cons, List.length_replicate]
      exact Nat.le_succ bufSize
    have hcall : serializePacket LuaApi.plain LibOsc.strict longCall opened.module =
        some ⟨{ opened.module with bufPtr := none }, [], [], false⟩ :=
      serializePacket_full hlength rfl (List.cons_ne_nil _ _)
    have hlong : opened.next LuaApi.plain LibOsc.strict 4096 longCall = full := by
      rw [next_of_some hcall]
      rfl
    have hlast : serializePacket LuaApi.plain LibOsc.strict popCall full.module = none := rfl
    refine ⟨full.next LuaApi.plain LibOsc.strict 4096 popCall, ?_, ?_, ?_⟩
    · rw [Machine.exec_cons_eq_some]
      refine ⟨opened, step_eq_some.mpr ⟨rfl, rfl⟩, ?_⟩
      rw [Machine.exec_cons_eq_some]
      refine ⟨full, step_eq_some.mpr ⟨rfl, hlong.symm⟩, ?_⟩
      rw [Machine.exec_cons_eq_some]
      exact ⟨_, step_eq_some.mpr ⟨rfl, rfl⟩, rfl⟩
    · rw [next_null hlast (List.cons_ne_nil _ _)]
      decide
    · exact (next_none (by decide) (by decide) hlast).1
  · have hrun : ((machine LuaApi.plain LibOsc.strict 4096).exec start [popCall]).map strayed =
        some true := by
      decide +kernel
    obtain ⟨s, hs, hstrayed⟩ := Option.map_eq_some_iff.mp hrun
    exact ⟨s, hs, hstrayed, fun hw => Bool.noConfusion (hstrayed.symm.trans hw.record)⟩

end Serializer

end Tjost
