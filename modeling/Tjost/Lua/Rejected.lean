import Tjost.Library.Transition
import Tjost.Lua.Bundle

/-!
# Rejected calls

A call with an invalid path or format and one whose arguments Lua refuses have written into
`module->buffer` before they return. They leave `buf_ptr` as it was, so that what they have
written is behind the pointer, and the next call writes over it.

There is one place that no call writes over: the size field of a bundle that holds a bundle
itself, since `module->itm` has moved on to the inner one when it is closed. It shows
what was in the buffer before, be it of a rejected call (`three_levels_trace`).

`invisible`: the calls of an output module schedule the same packets and leave the same
open bundles with the rejected calls and without them, if bundles are nested two deep at
most. Two runs are related by what the next packets can see of the buffer (`Alike`).
-/

open BinaryFloat ByteMemory Transition

namespace Tjost

/-- The types of the switch of `_serialize_packet`. -/
def oscTypes : List Char :=
  ['i', 'f', 's', 'b', 'h', 'd', 't', 'T', 'F', 'N', 'I', 'S', 'c', 'm']

/-- The pointer is `NULL` or not in front of `p`. -/
def AtOrBehind (p : ℕ) (ptr : Option ℕ) : Prop := ∀ q ∈ ptr, p ≤ q

/-- libosc knows the types of a format that it accepts, writes nothing in front of the
pointer it is given and does not go back. An empty bundle and an empty element end where
they begin. -/
structure LibOsc.Local (O : LibOsc) : Prop where
  types : ∀ fmt, O.checkFmt fmt = true → ∀ type ∈ fmt, type ∈ oscTypes
  set : ∀ item mem ptr p, AtOrBehind p ptr →
    Set.EqOn (O.set item mem ptr).1 mem (Set.Iio p) ∧ AtOrBehind p (O.set item mem ptr).2
  startBundleItem : ∀ mem ptr p, AtOrBehind p ptr →
    Set.EqOn (O.startBundleItem mem ptr).1 mem (Set.Iio p) ∧
      AtOrBehind p (O.startBundleItem mem ptr).2.1
  endBundle_empty : ∀ mem bndl, O.endBundle mem (some (bndl + 16)) (some bndl) = (mem, some bndl)
  endBundleItem_empty : ∀ mem itm,
    O.endBundleItem mem (some (itm + 4)) (some itm) = (mem, some itm)

/-- What a call is. -/
inductive CallKind
  | push
  | pop (time : NFrames)
  | message (time : NFrames) (items : List OscItem)
  /-- Lua or libosc refuses it. -/
  | rejected
  deriving DecidableEq

variable (A : LuaApi) (O : LibOsc)

def callKind (c : Call) : CallKind :=
  match callHeader A c with
  | none => .rejected
  | some (time, path, fmt, args) =>
    if path = bundlePushPath ∧ fmt = [] then .push
    else if path = bundlePopPath ∧ fmt = [] then .pop time
    else if O.checkPath path = false ∨ O.checkFmt fmt = false then .rejected
    else
      match argItems A fmt args with
      | some its => .message time (.path path :: .fmt fmt :: its)
      | none => .rejected

/-- The calls that are not rejected. -/
def accepted (cs : List Call) : List Call := cs.filter fun c => callKind A O c ≠ .rejected

/-- The calls of an output module one after the other, with what they schedule. A script goes
on after an error. -/
def serializeCalls : List Call → OutModule → Option (OutModule × List (NFrames × List UInt8))
  | [], s => some (s, [])
  | c :: cs, s =>
    (serializePacket A O c s).bind fun r =>
      (serializeCalls cs r.module).map fun rest => (rest.1, r.scheduled ++ rest.2)

/-- The calls of an output module, as a machine. -/
def outputMachine : Machine OutModule Call where
  init s := s.bndls = []
  step s c := (serializePacket A O c s).map CallResult.module

/-- Where the next packet begins. -/
def OutModule.start (s : OutModule) : Option ℕ :=
  if s.bndls = [] then some 0 else s.bufPtr.map (· + 4)

/-- The call fits, and a pop has an open bundle. -/
def Fits (s : OutModule) (c : Call) : Prop :=
  match callKind A O c with
  | .push => ∃ p ∈ s.start, p + 16 ≤ bufSize
  | .pop _ => s.bndls ≠ []
  | .message _ items => ∃ p ∈ s.start, p + (encodeItems O items).length ≤ bufSize
  | .rejected => True

/-- **The condition on a call.** No bundle is opened in a bundle of a bundle. -/
def Shallow (s : OutModule) (c : Call) : Prop :=
  callKind A O c = .push → s.bndls.length ≤ 1

/-- **Rejected calls leave no trace** in the packets and in the open bundles. -/
def Invisible (s : OutModule) (cs : List Call) : Prop :=
  ∃ full kept packets, serializeCalls A O cs s = some (full, packets) ∧
    serializeCalls A O (accepted A O cs) s = some (kept, packets) ∧ full.bndls = kept.bndls

/-- **Two modules whose packets will be alike.** Of an open bundle all that has been written
is, but for the size of an element that is open itself. -/
inductive Alike : OutModule → OutModule → Prop
  | closed {s t : OutModule} (hs : s.bndls = []) (ht : t.bndls = []) : Alike s t
  | outer {mem mem' : ByteMemory.Memory} {p : ℕ} (itm itm' : Option ℕ) (hp : 16 ≤ p)
      (hmem : Set.EqOn mem mem' (Set.Iio p)) :
      Alike ⟨mem, some p, itm, [some 0]⟩ ⟨mem', some p, itm', [some 0]⟩
  | inner {mem mem' : ByteMemory.Memory} {p i : ℕ} (hi : 16 ≤ i) (hp : i + 20 ≤ p)
      (hmem : Set.EqOn mem mem' (Set.Iio i ∪ Set.Ico (i + 4) p)) :
      Alike ⟨mem, some p, some i, [some (i + 4), some 0]⟩
        ⟨mem', some p, some i, [some (i + 4), some 0]⟩

/-- The call has changed nothing in front of the pointer of an open bundle. -/
def CallResult.Refused (r : CallResult) (s : OutModule) : Prop :=
  r.scheduled = [] ∧ ∃ buffer, r.module = { s with buffer } ∧
    ∀ p, s.bndls ≠ [] → AtOrBehind p s.bufPtr → Set.EqOn buffer s.buffer (Set.Iio p)

variable {A O} {s t : OutModule} {c : Call} {cs : List Call}

theorem Alike.bndls (h : Alike s t) : s.bndls = t.bndls := by
  cases h with
  | closed hs ht => rw [hs, ht]
  | outer => rfl
  | inner => rfl

/-- Two calls that schedule the same and leave modules alike. -/
def AlikeResults (o o' : Option CallResult) : Prop :=
  ∃ r r', o = some r ∧ o' = some r' ∧ r.scheduled = r'.scheduled ∧ Alike r.module r'.module

/-! ### The kinds of calls -/

/-- Why a call is rejected: it has no header, or it is a message that libosc or Lua refuses. -/
def Invalid (A : LuaApi) (O : LibOsc) (c : Call) : Prop :=
  callHeader A c = none ∨ ∃ time path fmt args, callHeader A c = some (time, path, fmt, args) ∧
    ¬ (path = bundlePushPath ∧ fmt = []) ∧ ¬ (path = bundlePopPath ∧ fmt = []) ∧
    (O.checkPath path = false ∨ O.checkFmt fmt = false ∨ argItems A fmt args = none)

/-- What it means for a call to be of a kind. -/
def CallKind.Describes (A : LuaApi) (O : LibOsc) (c : Call) : CallKind → Prop
  | .push => IsPush A c
  | .pop time => IsPop A c time
  | .message time items => IsMessage A O c time items
  | .rejected => Invalid A O c

theorem callKind_describes (A : LuaApi) (O : LibOsc) (c : Call) :
    (callKind A O c).Describes A O c := by
  unfold callKind
  cases hheader : callHeader A c with
  | none => exact Or.inl hheader
  | some header =>
    obtain ⟨time, path, fmt, args⟩ := header
    simp only
    by_cases hpush : path = bundlePushPath ∧ fmt = []
    · rw [if_pos hpush]
      exact ⟨time, args, by rw [hheader, hpush.1, hpush.2]⟩
    · by_cases hpop : path = bundlePopPath ∧ fmt = []
      · rw [if_neg hpush, if_pos hpop]
        exact ⟨args, by rw [hheader, hpop.1, hpop.2]⟩
      · rw [if_neg hpush, if_neg hpop]
        by_cases hinvalid : O.checkPath path = false ∨ O.checkFmt fmt = false
        · rw [if_pos hinvalid]
          exact Or.inr ⟨time, path, fmt, args, hheader, hpush, hpop,
            hinvalid.imp_right Or.inl⟩
        · rw [if_neg hinvalid]
          rw [not_or, Bool.not_eq_false, Bool.not_eq_false] at hinvalid
          cases hits : argItems A fmt args with
          | none => exact Or.inr ⟨time, path, fmt, args, hheader, hpush, hpop, Or.inr (Or.inr hits)⟩
          | some its =>
            exact ⟨path, fmt, args, its, hheader, hpush, hpop, hinvalid.1, hinvalid.2, hits, rfl⟩

theorem argStep_ne_invalid {type : Char} (h : type ∈ oscTypes) (v : LuaValue) :
    argStep A type v ≠ .invalid := by
  have hof : ∀ {α : Type} (item : α → OscItem) (o : Option α),
      ArgStep.ofOption item o ≠ .invalid := by
    intro α item o
    cases o <;> exact fun h => by cases h
  simp only [oscTypes, List.mem_cons, List.not_mem_nil, or_false] at h
  rcases h with rfl | rfl | rfl | rfl | rfl | rfl | rfl | rfl | rfl | rfl | rfl | rfl | rfl | rfl
  all_goals first
    | exact hof _ _
    | exact fun h => by cases h

section Local

variable (hO : O.Local)

include hO

/-- **Arguments that Lua refuses**: the loop has written behind the pointer. -/
theorem setArgs_refused {fmt : List Char} {args : List LuaValue} (buffer : ByteMemory.Memory)
    (ptr : Option ℕ) (htypes : ∀ type ∈ fmt, type ∈ oscTypes) (h : argItems A fmt args = none) :
    (setArgs A O fmt args buffer ptr).raised = true ∧ ∀ p, AtOrBehind p ptr →
      Set.EqOn (setArgs A O fmt args buffer ptr).buffer buffer (Set.Iio p) := by
  induction fmt generalizing args buffer ptr with
  | nil => cases h
  | cons type fmt ih =>
    obtain ⟨htype, hrest⟩ := List.forall_mem_cons.mp htypes
    have hknown := argStep_ne_invalid (A := A) htype (args.headD .none)
    unfold argItems at h
    unfold setArgs
    cases hstep : argStep A type (args.headD .none) with
    | set item =>
      rw [hstep] at h
      obtain ⟨hraised, hbuffer⟩ := ih (O.set item buffer ptr).1 (O.set item buffer ptr).2 hrest
        (Option.map_eq_none_iff.mp h)
      refine ⟨hraised, fun p hp => ?_⟩
      obtain ⟨hset, hptr⟩ := hO.set item buffer ptr p hp
      exact (hbuffer p hptr).trans hset
    | skip =>
      rw [hstep] at h
      exact ih buffer ptr hrest h
    | invalid => exact absurd hstep hknown
    | raise => exact ⟨rfl, fun _ _ => Set.eqOn_refl _ _⟩

/-- **A message that is refused**, be it for its path, its format or its arguments. -/
theorem setMessage_refused {time : NFrames} {path fmt : List Char} {args : List LuaValue}
    (h : O.checkPath path = false ∨ O.checkFmt fmt = false ∨ argItems A fmt args = none) :
    (setMessage A O time path fmt args s).Refused s := by
  unfold setMessage
  split
  next buffer ptr itm hstart =>
  -- an element may have been started, which moves the pointer of this call only
  have hbegin : ∀ p, s.bndls ≠ [] → AtOrBehind p s.bufPtr →
      Set.EqOn buffer s.buffer (Set.Iio p) ∧ AtOrBehind p ptr := by
    intro p hbndls hp
    rw [if_neg hbndls] at hstart
    have hitem := hO.startBundleItem s.buffer s.bufPtr p hp
    rw [hstart] at hitem
    exact hitem
  split
  · exact ⟨rfl, buffer, rfl, fun p hbndls hp => (hbegin p hbndls hp).1⟩
  · next hpath =>
    -- the path has been written
    have hsetPath := hO.set (.path path) buffer ptr
    generalize O.set (.path path) buffer ptr = written at hsetPath ⊢
    obtain ⟨buffer₁, ptr₁⟩ := written
    simp only
    split
    · refine ⟨rfl, buffer₁, rfl, fun p hbndls hp => ?_⟩
      obtain ⟨hsame, hptr⟩ := hbegin p hbndls hp
      exact (hsetPath p hptr).1.trans hsame
    · next hfmt =>
      -- and so have the format and the arguments in front of the one that is refused
      have hitems := (h.resolve_left hpath).resolve_left hfmt
      have hsetFmt := hO.set (.fmt fmt) buffer₁ ptr₁
      obtain ⟨hraised, hargs⟩ := setArgs_refused hO (O.set (.fmt fmt) buffer₁ ptr₁).1
        (O.set (.fmt fmt) buffer₁ ptr₁).2 (hO.types fmt (by simpa using hfmt)) hitems
      split
      · refine ⟨rfl, _, rfl, fun p hbndls hp => ?_⟩
        obtain ⟨hsame, hptr⟩ := hbegin p hbndls hp
        obtain ⟨hpathSame, hptr⟩ := hsetPath p hptr
        obtain ⟨hfmtSame, hptr⟩ := hsetFmt p hptr
        exact (((hargs p hptr).trans hfmtSame).trans hpathSame).trans hsame
      · next hquiet => exact absurd hraised hquiet

/-- **A rejected call** is refused before the pointer is stored. -/
theorem serializePacket_rejected (h : callKind A O c = .rejected) :
    ∃ r, serializePacket A O c s = some r ∧ r.Refused s := by
  have hkind := callKind_describes A O c
  rw [h] at hkind
  rcases hkind with hheader | ⟨time, path, fmt, args, hheader, hpush, hpop, hinvalid⟩
  · refine ⟨⟨s, [], [], true⟩, ?_, rfl, s.buffer, rfl, fun _ _ _ => Set.eqOn_refl _ _⟩
    unfold serializePacket
    rw [hheader]
  · refine ⟨setMessage A O time path fmt args s, ?_, setMessage_refused hO hinvalid⟩
    unfold serializePacket
    rw [hheader]
    dsimp only
    rw [if_neg hpush, if_neg hpop]

/-- A rejected call of one of the modules. -/
theorem Alike.rejected (hst : Alike s t) (h : callKind A O c = .rejected) :
    ∃ r, serializePacket A O c s = some r ∧ r.scheduled = [] ∧ Alike r.module t := by
  obtain ⟨⟨module, scheduled, messages, raised⟩, hr, hquiet, buffer, rfl, hbehind⟩ :=
    serializePacket_rejected (s := s) hO h
  refine ⟨_, hr, hquiet, ?_⟩
  have hself : ∀ p, AtOrBehind p (some p) := fun p q hq => le_of_eq (Option.mem_some.mp hq)
  cases hst with
  -- without an open bundle the next packet begins at the front of the buffer
  | closed hs ht => exact .closed hs ht
  | @outer mem mem' p itm itm' hp hmem =>
    have hsame := hbehind p (List.cons_ne_nil _ _) (hself p)
    exact .outer itm itm' hp (hsame.trans hmem)
  | @inner mem mem' p i hi hp hmem =>
    have hsame := hbehind p (List.cons_ne_nil _ _) (hself p)
    refine .inner hi hp (Set.EqOn.trans (hsame.mono ?_) hmem)
    intro q hq
    rcases hq with hq | hq
    · have hlt : q < i := hq
      exact lt_of_lt_of_le hlt (by omega)
    · exact hq.2

/-- An open bundle is closed in both modules. -/
theorem Alike.pop {time : NFrames} (hst : Alike s t) (h : IsPop A c time) (hbndls : t.bndls ≠ []) :
    AlikeResults (serializePacket A O c s) (serializePacket A O c t) := by
  rw [serializePacket_pop h, serializePacket_pop h]
  cases hst with
  | closed hs ht => exact absurd ht hbndls
  | @outer mem mem' p itm itm' hp hmem =>
    rcases Nat.eq_or_lt_of_le hp with rfl | hlt
    · -- nothing is scheduled of an empty bundle
      exact ⟨_, _, popBundle_outermost rfl (hO.endBundle_empty mem 0),
        popBundle_outermost rfl (hO.endBundle_empty mem' 0), rfl, .closed rfl rfl⟩
    · -- all of the packet is in front of the pointer
      have hread : read mem 0 p = read mem' 0 p := by
        refine read_congr (hmem.mono ?_)
        intro q hq
        simpa using hq.2
      refine ⟨_, _, popBundle_outermost rfl (O.endBundle_eq mem p 0 hlt),
        popBundle_outermost rfl (O.endBundle_eq mem' p 0 hlt), ?_, .closed rfl rfl⟩
      simp only [hread]
  | @inner mem mem' p i hi hp hmem =>
    have hne : ([some 0] : List (Option ℕ)) ≠ [] := List.cons_ne_nil _ _
    rcases Nat.eq_or_lt_of_le hp with rfl | hlt
    · -- an empty bundle goes, with its size field
      exact ⟨_, _, popBundle_element rfl hne (hO.endBundle_empty mem (i + 4))
        (hO.endBundleItem_empty mem i), popBundle_element rfl hne
        (hO.endBundle_empty mem' (i + 4)) (hO.endBundleItem_empty mem' i), rfl,
        .outer _ _ hi (hmem.mono Set.subset_union_left)⟩
    · refine ⟨_, _, popBundle_element rfl hne (O.endBundle_eq mem p (i + 4) (by omega))
        (O.endBundleItem_eq mem p i (by omega)), popBundle_element rfl hne
        (O.endBundle_eq mem' p (i + 4) (by omega)) (O.endBundleItem_eq mem' p i (by omega)), rfl,
        .outer _ _ (by omega) ?_⟩
      -- the size is written now
      refine (eqOn_write hmem i (itemSize (p - i - 4))).mono ?_
      intro q hq
      have hqp : q < p := hq
      simp only [Set.mem_union, Set.mem_Iio, Set.mem_Ico, length_itemSize]
      omega

end Local

/-- A bundle is opened in both modules. -/
theorem Alike.push (hst : Alike s t) (h : IsPush A c) (hfit : ∃ p ∈ t.start, p + 16 ≤ bufSize)
    (hshallow : t.bndls.length ≤ 1) :
    AlikeResults (serializePacket A O c s) (serializePacket A O c t) := by
  obtain ⟨start, hstart, hfit⟩ := hfit
  rw [serializePacket_push h, serializePacket_push h]
  refine ⟨_, _, rfl, rfl, rfl, ?_⟩
  unfold pushBundle
  cases hst with
  | closed hs ht =>
    simp only [hs, ht, if_true, O.startBundle_eq _ 0 oscImmediate (Nat.le_of_ble_eq_true rfl)]
    refine .outer _ _ (le_refl 16) ((eqOn_write (Set.eqOn_empty _ _) 0 _).mono ?_)
    intro q hq
    have hlt : q < 16 := hq
    refine Or.inr ⟨Nat.zero_le q, ?_⟩
    rw [length_bundleHeader]
    omega
  | @outer mem mem' p itm itm' hp hmem =>
    have hne : ([some 0] : List (Option ℕ)) ≠ [] := List.cons_ne_nil _ _
    obtain rfl : p + 4 = start := by simpa [OutModule.start] using hstart
    simp only [if_neg hne, O.startBundleItem_eq _ p (by omega),
      O.startBundle_eq _ (p + 4) oscImmediate hfit]
    -- the size field between the pointer and the header stays open
    refine .inner hp (le_refl _) ?_
    have hwrite := eqOn_write hmem (p + 4) (bundleHeader oscImmediate)
    rw [length_bundleHeader] at hwrite
    exact hwrite
  -- two bundles are open
  | inner => exact absurd hshallow (Nat.not_succ_le_self 1)

/-- A message is serialised in both modules. -/
theorem Alike.message {time : NFrames} {items : List OscItem} (hst : Alike s t)
    (h : IsMessage A O c time items)
    (hfit : ∃ p ∈ t.start, p + (encodeItems O items).length ≤ bufSize) :
    AlikeResults (serializePacket A O c s) (serializePacket A O c t) := by
  obtain ⟨start, hstart, hfit⟩ := hfit
  have hne : ∀ b bs, (b :: bs : List (Option ℕ)) ≠ [] := List.cons_ne_nil
  cases hst with
  | closed hs ht =>
    obtain ⟨s', hs', hsbndls⟩ := serializePacket_message h hs (by omega)
    obtain ⟨t', ht', htbndls⟩ := serializePacket_message h ht (by omega)
    exact ⟨_, _, hs', ht', rfl, .closed hsbndls htbndls⟩
  | @outer mem mem' p itm itm' hp hmem =>
    obtain rfl : p + 4 = start := by simpa [OutModule.start] using hstart
    refine ⟨_, _, serializePacket_element h (hne _ _) rfl hfit,
      serializePacket_element h (hne _ _) rfl hfit, rfl, .outer _ _ (by omega) ?_⟩
    refine (eqOn_write hmem p _).mono ?_
    intro q hq
    have hlt : q < p + 4 + (encodeItems O items).length := hq
    simp only [Set.mem_union, Set.mem_Iio, Set.mem_Ico, List.length_append, length_itemSize]
    omega
  | @inner mem mem' p i hi hp hmem =>
    obtain rfl : p + 4 = start := by simpa [OutModule.start] using hstart
    refine ⟨_, _, serializePacket_element h (hne _ _) rfl hfit,
      serializePacket_element h (hne _ _) rfl hfit, rfl, .inner hi (by omega) ?_⟩
    refine (eqOn_write hmem p _).mono ?_
    intro q hq
    have hq' : q < i ∨ i + 4 ≤ q ∧ q < p + 4 + (encodeItems O items).length := hq
    simp only [Set.mem_union, Set.mem_Iio, Set.mem_Ico, List.length_append, length_itemSize]
    omega

/-- **A call that is not rejected** keeps the modules alike. -/
theorem Alike.step (hO : O.Local) (hst : Alike s t) (haccepted : callKind A O c ≠ .rejected)
    (hfits : Fits A O t c) (hshallow : Shallow A O t c) :
    AlikeResults (serializePacket A O c s) (serializePacket A O c t) := by
  have hdescribes := callKind_describes A O c
  unfold Fits at hfits
  cases hkind : callKind A O c with
  | push =>
    rw [hkind] at hfits hdescribes
    exact hst.push hdescribes hfits (hshallow hkind)
  | pop time =>
    rw [hkind] at hfits hdescribes
    exact hst.pop hO hdescribes hfits
  | message time items =>
    rw [hkind] at hfits hdescribes
    exact hst.message hdescribes hfits
  | rejected => exact absurd hkind haccepted

/-! ### The runs -/

theorem serializeCalls_cons {r : CallResult} {rest : OutModule × List (NFrames × List UInt8)}
    (hr : serializePacket A O c s = some r) (hrest : serializeCalls A O cs r.module = some rest) :
    serializeCalls A O (c :: cs) s = some (rest.1, r.scheduled ++ rest.2) := by
  rw [serializeCalls, hr, Option.bind_some, hrest]
  rfl

/-- **The calls, with the rejected ones and without**, keep the modules alike. -/
theorem Alike.run (hO : O.Local) (hst : Alike s t)
    (hfits : (outputMachine A O).Meets (Fits A O) t (accepted A O cs))
    (hshallow : (outputMachine A O).Meets (Shallow A O) t (accepted A O cs)) :
    ∃ s' t' packets, serializeCalls A O cs s = some (s', packets) ∧
      serializeCalls A O (accepted A O cs) t = some (t', packets) ∧ Alike s' t' := by
  induction cs generalizing s t with
  | nil => exact ⟨s, t, [], rfl, rfl, hst⟩
  | cons c cs ih =>
    by_cases hkind : callKind A O c = .rejected
    · -- the other run skips the call
      have hskip : accepted A O (c :: cs) = accepted A O cs :=
        List.filter_cons_of_neg (by simp [hkind])
      rw [hskip] at hfits hshallow ⊢
      obtain ⟨r, hr, hquiet, halike⟩ := hst.rejected hO hkind
      obtain ⟨s', t', packets, hs', ht', hst'⟩ := ih halike hfits hshallow
      refine ⟨s', t', packets, ?_, ht', hst'⟩
      rw [serializeCalls_cons hr hs', hquiet, List.nil_append]
    · have hkeep : accepted A O (c :: cs) = c :: accepted A O cs :=
        List.filter_cons_of_pos (by simp [hkind])
      rw [hkeep] at hfits hshallow ⊢
      obtain ⟨r, r', hr, hr', hscheduled, halike⟩ := hst.step hO hkind hfits.1 hshallow.1
      have hstep : (outputMachine A O).step t c = some r'.module :=
        Option.map_eq_some_iff.mpr ⟨r', hr', rfl⟩
      obtain ⟨s', t', packets, hs', ht', hst'⟩ :=
        ih halike (hfits.2 _ hstep) (hshallow.2 _ hstep)
      refine ⟨s', t', r'.scheduled ++ packets, ?_, serializeCalls_cons hr' ht', hst'⟩
      rw [serializeCalls_cons hr hs', hscheduled]

/-- **Rejected calls leave no trace** if bundles are nested two deep at most. -/
theorem invisible (hO : O.Local) (hs : s.bndls = [])
    (hfits : (outputMachine A O).Meets (Fits A O) s (accepted A O cs))
    (hshallow : (outputMachine A O).Meets (Shallow A O) s (accepted A O cs)) :
    Invisible A O s cs := by
  obtain ⟨full, kept, packets, hfull, hkept, halike⟩ := Alike.run hO (.closed hs hs) hfits hshallow
  exact ⟨full, kept, packets, hfull, hkept, halike.bndls⟩

instance Fits.decidable (s : OutModule) (c : Call) : Decidable (Fits A O s c) :=
  match h : callKind A O c with
  | .push => decidable_of_iff (∃ p ∈ s.start, p + 16 ≤ bufSize) (by rw [Fits, h])
  | .pop _ => decidable_of_iff (s.bndls ≠ []) (by rw [Fits, h])
  | .message _ items =>
    decidable_of_iff (∃ p ∈ s.start, p + (encodeItems O items).length ≤ bufSize) (by rw [Fits, h])
  | .rejected => isTrue (by rw [Fits, h]; trivial)

instance Shallow.decidable (s : OutModule) (c : Call) : Decidable (Shallow A O s c) :=
  inferInstanceAs (Decidable (_ → _))

theorem AtOrBehind.none (p : ℕ) : AtOrBehind p none := fun _ hq => nomatch hq

theorem AtOrBehind.some {p q : ℕ} (h : p ≤ q) : AtOrBehind p (some q) := by
  intro r hr
  rw [← Option.mem_some.mp hr]
  exact h

theorem LibOsc.plain_local : LibOsc.plain.Local where
  types fmt h type htype := by simpa [LibOsc.plain, oscTypes] using List.all_eq_true.mp h type htype
  set item mem ptr p hptr := by
    cases ptr with
    | none => exact ⟨Set.eqOn_refl _ _, AtOrBehind.none p⟩
    | some q =>
      have hle : p ≤ q := hptr q rfl
      unfold LibOsc.plain
      simp only
      split
      · refine ⟨fun i hi => ?_, AtOrBehind.some (by omega)⟩
        exact write_of_lt (lt_of_lt_of_le hi hle)
      · exact ⟨Set.eqOn_refl _ _, AtOrBehind.none p⟩
  startBundleItem mem ptr p hptr := by
    cases ptr with
    | none => exact ⟨Set.eqOn_refl _ _, AtOrBehind.none p⟩
    | some q =>
      have hle : p ≤ q := hptr q rfl
      unfold LibOsc.plain
      simp only
      split
      · exact ⟨Set.eqOn_refl _ _, AtOrBehind.some (by omega)⟩
      · exact ⟨Set.eqOn_refl _ _, AtOrBehind.none p⟩
  endBundle_empty mem bndl := if_neg (Nat.lt_irrefl (bndl + 16))
  endBundleItem_empty mem itm := if_neg (Nat.lt_irrefl (itm + 4))

/-- `out("/aaaaaaaaaaaaaaaaaaaaaaaaaaaaaaaaaaaaaaaa", "?")`. -/
def formatCall : Call := [.string ('/' :: List.replicate 40 'a'), .string ['?']]

/-- `out("/value", "ii", 7)`. -/
def missingCall : Call :=
  [.string ['/', 'v', 'a', 'l', 'u', 'e'], .string ['i', 'i'], .number (binary64.ofInt 7)]

/-- `out("value", "")`. -/
def pathCall : Call := [.string ['v', 'a', 'l', 'u', 'e'], .string []]

/-- Rejected calls in front of a bundle of a message and a bundle, and in them. -/
def mixedCalls : List Call :=
  [formatCall, pushCall, pathCall, pingCall, missingCall, pushCall, formatCall, pingCall,
    missingCall, popCall, formatCall, popCall, missingCall, pingCall]

theorem invisible_mixed : Invisible LuaApi.plain LibOsc.plain OutModule.new mixedCalls :=
  invisible LibOsc.plain_local rfl (by decide +kernel) (by decide +kernel)

/-- Three levels, after a rejected call. -/
def deepCalls : List Call :=
  [formatCall, pushCall, pushCall, pushCall, pingCall, popCall, popCall, popCall]

/-- **A rejected call in the packet.** The size of the bundle in the middle is a part of the
path of the rejected call. -/
theorem three_levels_trace :
    (outputMachine LuaApi.plain LibOsc.plain).Meets (Fits LuaApi.plain LibOsc.plain) OutModule.new
        (accepted LuaApi.plain LibOsc.plain deepCalls) ∧
      ¬ Invisible LuaApi.plain LibOsc.plain OutModule.new deepCalls := by
  refine ⟨by decide +kernel, ?_⟩
  rintro ⟨full, kept, packets, hfull, hkept, -⟩
  have hsame := (congrArg (Option.map Prod.snd) hfull).trans
    (congrArg (Option.map Prod.snd) hkept).symm
  revert hsame
  decide +kernel

end Tjost
