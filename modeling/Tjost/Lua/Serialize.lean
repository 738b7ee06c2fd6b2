import Tjost.Lua.Interface

/-!
# The serialiser

`serializePacket` is `_serialize_packet`, the call of an output module from Lua. It
takes the time (where there is one), the path, the format and the arguments, and
writes a message into `module->buffer`. Outside of a bundle the message is
scheduled at once. Two messages are reserved: `/bundle/push` opens a bundle and
`/bundle/pop` closes the innermost one, and a message in between becomes an element.
The open bundles, the pointer behind what has been written and the address of the
pending size field stay in the module between the calls.

A call is a *message* if its header names one, libosc accepts its path and its format,
and Lua accepts its arguments (`IsMessage`). `serializePacket_message` and
`serializePacket_element` say what becomes of one that fits.
-/

open BinaryFloat ByteMemory

namespace Tjost

/-! ### The arguments -/

/-- What the switch over the types does with an argument. -/
inductive ArgStep
  /-- A setter is called. -/
  | set (item : OscItem)
  /-- The type has no payload. -/
  | skip
  /-- The type is reported. -/
  | invalid
  /-- Lua raises an error. -/
  | raise

/-- A setter call, if Lua accepts the argument. -/
def ArgStep.ofOption {α : Type} (item : α → OscItem) : Option α → ArgStep
  | some x => .set (item x)
  | none => .raise

variable (A : LuaApi) (O : LibOsc)

/-- The switch of `_serialize_packet`. -/
def argStep (type : Char) (v : LuaValue) : ArgStep :=
  match type with
  | 'i' => .ofOption (fun n => .int32 (Int32.ofInt n)) (A.checkInteger v)
  | 'f' =>
    .ofOption (fun x => .float (UInt32.ofNat ((x.convert binary32).encode A.nan32.toNat)))
      (A.checkNumber v)
  | 's' => .ofOption .string (A.checkString v)
  | 'b' => .ofOption .blob v.checkBlob
  | 'h' =>
    .ofOption (fun x => .int64 (Int64.ofInt (A.cast (-2 ^ 63) (2 ^ 63 - 1) x))) (A.checkNumber v)
  | 'd' => .ofOption (fun x => .double (UInt64.ofNat (x.encode A.nan64.toNat))) (A.checkNumber v)
  | 't' =>
    .ofOption (fun x => .timetag (UInt64.ofInt (A.cast 0 (2 ^ 64 - 1) x))) (A.checkNumber v)
  | 'T' | 'F' | 'N' | 'I' => .skip
  | 'S' => .ofOption .symbol (A.checkString v)
  | 'm' => .ofOption .midi v.checkMidi
  | 'c' => .ofOption (fun x => .char (Int8.ofInt (A.cast (-2 ^ 7) (2 ^ 7 - 1) x))) (A.checkNumber v)
  | _ => .invalid

/-- What the loop over the types leaves. -/
structure ArgsResult where
  buffer : ByteMemory.Memory
  ptr : Option ℕ
  messages : List String
  /-- Lua has raised an error. -/
  raised : Bool

/-- The loop over the types. -/
def setArgs : List Char → List LuaValue → ByteMemory.Memory → Option ℕ → ArgsResult
  | [], _, buffer, ptr => ⟨buffer, ptr, [], false⟩
  | type :: fmt, args, buffer, ptr =>
    match argStep A type (args.headD .none) with
    | .set item =>
      let (buffer, ptr) := O.set item buffer ptr
      setArgs fmt args.tail buffer ptr
    | .skip => setArgs fmt args.tail buffer ptr
    | .invalid =>
      let rest := setArgs fmt args.tail buffer ptr
      { rest with messages := ("Lua: invalid argument type '" ++ type.toString ++ "'") :: rest.messages }
    | .raise => ⟨buffer, ptr, [], true⟩

/-! ### The call -/

/-- `TJOST_BUNDLE_PUSH_PATH`. Its format is empty, like that of the pop. -/
def bundlePushPath : List Char :=
  ['/', 'b', 'u', 'n', 'd', 'l', 'e', '/', 'p', 'u', 's', 'h']

/-- `TJOST_BUNDLE_POP_PATH`. -/
def bundlePopPath : List Char := ['/', 'b', 'u', 'n', 'd', 'l', 'e', '/', 'p', 'o', 'p']

/-- The serialiser's part of `Tjost_Module`. -/
structure OutModule where
  buffer : ByteMemory.Memory
  bufPtr : Option ℕ
  itm : Option ℕ
  /-- `bndl->ptr` of the open bundles, the innermost one first. -/
  bndls : List (Option ℕ)

/-- The memory of a new module is cleared. -/
def OutModule.new : OutModule := ⟨fun _ => 0, none, none, []⟩

/-- What a call leaves. -/
structure CallResult where
  module : OutModule
  /-- The packets passed to `tjost_module_schedule`. -/
  scheduled : List (NFrames × List UInt8)
  messages : List String
  /-- Lua has raised an error. -/
  raised : Bool

/-- The values of a call, without the module. -/
abbrev Call := List LuaValue

/-- The time, the path, the format and the arguments, or `none` where Lua raises an
error. -/
def callHeader (args : Call) : Option (NFrames × List Char × List Char × List LuaValue) :=
  let hasTimestamp := A.isNumber (args.headD .none)
  let time : NFrames :=
    if hasTimestamp then UInt32.ofInt ((A.checkInteger (args.headD .none)).getD 0) else 0
  let args := if hasTimestamp then args.tail else args
  match A.checkString (args.headD .none), A.checkString (args.tail.headD .none) with
  | some path, some fmt => some (time, path, fmt, args.drop 2)
  | _, _ => none

/-- `/bundle/push`. -/
def pushBundle (s : OutModule) : OutModule :=
  let (buffer, ptr, itm) :=
    if s.bndls = [] then (s.buffer, some 0, s.itm) else O.startBundleItem s.buffer s.bufPtr
  let (buffer, ptr, bndl) := O.startBundle buffer ptr oscImmediate
  { buffer, bufPtr := ptr, itm, bndls := bndl :: s.bndls }

/-- `/bundle/pop`. There is no result where the code follows a null pointer: without
an open bundle, and where the size of a bundle that has not fitted is computed. -/
def popBundle (time : NFrames) (s : OutModule) : Option CallResult :=
  match s.bndls with
  | [] => none
  | bndl :: bndls =>
    let (buffer, ptr) := O.endBundle s.buffer s.bufPtr bndl
    if bndls = [] then
      ptr.map fun size =>
        ⟨{ s with buffer, bufPtr := ptr, bndls },
          if 0 < size then [(time, read buffer 0 size)] else [], [], false⟩
    else
      let (buffer, ptr) := O.endBundleItem buffer ptr s.itm
      some ⟨{ s with buffer, bufPtr := ptr, bndls }, [], [], false⟩

/-- Any other message. An invalid one and one whose arguments Lua refuses end the
call before `buf_ptr` is set. -/
def setMessage (time : NFrames) (path fmt : List Char) (args : List LuaValue) (s : OutModule) :
    CallResult :=
  let (buffer, ptr, itm) :=
    if s.bndls = [] then (s.buffer, some 0, none) else O.startBundleItem s.buffer s.bufPtr
  if O.checkPath path = false then
    ⟨{ s with buffer }, [], ["Lua: invalid OSC path " ++ String.ofList path], false⟩
  else
    let (buffer, ptr) := O.set (.path path) buffer ptr
    if O.checkFmt fmt = false then
      ⟨{ s with buffer }, [], ["Lua: invalid OSC format " ++ String.ofList fmt], false⟩
    else
      let (buffer, ptr) := O.set (.fmt fmt) buffer ptr
      let r := setArgs A O fmt args buffer ptr
      if r.raised then ⟨{ s with buffer := r.buffer }, [], r.messages, true⟩
      else if s.bndls = [] then
        ⟨{ s with buffer := r.buffer, bufPtr := r.ptr },
          match r.ptr with
          | some size => if 0 < size then [(time, read r.buffer 0 size)] else []
          | none => [],
          r.messages, false⟩
      else
        let (buffer, ptr) := O.endBundleItem r.buffer r.ptr itm
        ⟨{ s with buffer, bufPtr := ptr }, [], r.messages, false⟩

/-- `_serialize_packet`. -/
def serializePacket (args : Call) (s : OutModule) : Option CallResult :=
  match callHeader A args with
  | none => some ⟨s, [], [], true⟩
  | some (time, path, fmt, args) =>
    if path = bundlePushPath ∧ fmt = [] then some ⟨pushBundle O s, [], [], false⟩
    else if path = bundlePopPath ∧ fmt = [] then popBundle O time s
    else some (setMessage A O time path fmt args s)

/-! ### Messages -/

/-- The setters that the arguments lead to, if Lua accepts them and libosc knows
their types. -/
def argItems : List Char → List LuaValue → Option (List OscItem)
  | [], _ => some []
  | type :: fmt, args =>
    match argStep A type (args.headD .none) with
    | .set item => (argItems fmt args.tail).map (item :: ·)
    | .skip => argItems fmt args.tail
    | _ => none

/-- The call is `/bundle/push`. -/
def IsPush (c : Call) : Prop :=
  ∃ time args, callHeader A c = some (time, bundlePushPath, [], args)

/-- The call is `/bundle/pop`, at that time. -/
def IsPop (c : Call) (time : NFrames) : Prop :=
  ∃ args, callHeader A c = some (time, bundlePopPath, [], args)

/-- The call is a valid message, at that time, which leads to these setters. -/
def IsMessage (c : Call) (time : NFrames) (items : List OscItem) : Prop :=
  ∃ path fmt args its, callHeader A c = some (time, path, fmt, args) ∧
    ¬ (path = bundlePushPath ∧ fmt = []) ∧ ¬ (path = bundlePopPath ∧ fmt = []) ∧
    O.checkPath path = true ∧ O.checkFmt fmt = true ∧ argItems A fmt args = some its ∧
    items = .path path :: .fmt fmt :: its

/-- The encoding of a message. -/
def encodeItems (items : List OscItem) : List UInt8 := items.flatMap O.encode

variable {A O} {s : OutModule} {c : Call} {time : NFrames} {items : List OscItem}

theorem encodeItems_cons (item : OscItem) (items : List OscItem) :
    encodeItems O (item :: items) = O.encode item ++ encodeItems O items := List.flatMap_cons

/-- A message is not empty, since its path is not. -/
theorem IsMessage.length_pos (h : IsMessage A O c time items) :
    0 < (encodeItems O items).length := by
  obtain ⟨path, fmt, args, its, -, -, -, -, -, -, rfl⟩ := h
  rw [encodeItems_cons, List.length_append]
  have hpath := List.length_pos_iff.mpr (O.encode_path_ne path)
  omega

/-- The loop over the types of arguments that fit. -/
theorem setArgs_eq {fmt : List Char} {args : List LuaValue} {its : List OscItem}
    {buffer : ByteMemory.Memory} {p : ℕ} (h : argItems A fmt args = some its)
    (hfit : p + (encodeItems O its).length ≤ bufSize) :
    setArgs A O fmt args buffer (some p) =
      ⟨write buffer p (encodeItems O its), some (p + (encodeItems O its).length), [], false⟩ := by
  induction fmt generalizing args its buffer p with
  | nil =>
    obtain rfl : [] = its := Option.some.inj h
    simp [setArgs, encodeItems, write_nil]
  | cons type fmt ih =>
    unfold argItems at h
    unfold setArgs
    split at h
    · next item hitem =>
      obtain ⟨its, hits, rfl⟩ := Option.map_eq_some_iff.mp h
      rw [encodeItems_cons, List.length_append] at hfit ⊢
      have hset := O.set_eq item buffer p (by omega)
      rw [hitem]
      simp only [hset]
      rw [ih hits (by omega), write_append, Nat.add_assoc]
    · next hitem =>
      rw [hitem]
      exact ih h hfit
    · cases h

variable (O) in
/-- The setters of a message that fits, one after the other. -/
theorem setItems (path : List Char) {fmt : List Char} {args : List LuaValue}
    {its : List OscItem} (buffer : ByteMemory.Memory) (p : ℕ) (h : argItems A fmt args = some its)
    (hfit : p + (encodeItems O (.path path :: .fmt fmt :: its)).length ≤ bufSize) :
    ∃ b₁ p₁ b₂ p₂, O.set (.path path) buffer (some p) = (b₁, p₁) ∧
      O.set (.fmt fmt) b₁ p₁ = (b₂, p₂) ∧
      setArgs A O fmt args b₂ p₂ =
        ⟨write buffer p (encodeItems O (.path path :: .fmt fmt :: its)),
          some (p + (encodeItems O (.path path :: .fmt fmt :: its)).length), [], false⟩ := by
  rw [encodeItems_cons, encodeItems_cons] at hfit ⊢
  simp only [List.length_append] at hfit
  refine ⟨_, _, _, _, O.set_eq (.path path) buffer p (by omega), O.set_eq (.fmt fmt) _ _ (by omega),
    ?_⟩
  rw [setArgs_eq h (by omega), write_append, write_append]
  simp only [List.length_append, Nat.add_assoc]

theorem serializePacket_push (h : IsPush A c) :
    serializePacket A O c s = some ⟨pushBundle O s, [], [], false⟩ := by
  obtain ⟨time, args, hheader⟩ := h
  unfold serializePacket
  rw [hheader]
  simp

theorem serializePacket_pop (h : IsPop A c time) :
    serializePacket A O c s = popBundle O time s := by
  obtain ⟨args, hheader⟩ := h
  have hne : bundlePopPath ≠ bundlePushPath := by decide
  unfold serializePacket
  rw [hheader]
  simp [hne]

/-- The pop of the outermost bundle. -/
theorem popBundle_outermost {bndl : Option ℕ} {buffer : ByteMemory.Memory} {size : ℕ}
    (hbndls : s.bndls = [bndl]) (hend : O.endBundle s.buffer s.bufPtr bndl = (buffer, some size)) :
    popBundle O time s =
      some ⟨{ s with buffer, bufPtr := some size, bndls := [] },
        if 0 < size then [(time, read buffer 0 size)] else [], [], false⟩ := by
  unfold popBundle
  simp only [hbndls, if_true, hend, Option.map_some]

/-- The pop of a bundle in a bundle. -/
theorem popBundle_element {bndl ptr ptr' : Option ℕ} {bndls : List (Option ℕ)}
    {buffer buffer' : ByteMemory.Memory} (hbndls : s.bndls = bndl :: bndls) (hne : bndls ≠ [])
    (hend : O.endBundle s.buffer s.bufPtr bndl = (buffer, ptr))
    (hitem : O.endBundleItem buffer ptr s.itm = (buffer', ptr')) :
    popBundle O time s = some ⟨{ s with buffer := buffer', bufPtr := ptr', bndls }, [], [], false⟩ := by
  unfold popBundle
  simp only [hbndls, if_neg hne, hend, hitem]

/-- **A message outside of a bundle** is scheduled. -/
theorem serializePacket_message (h : IsMessage A O c time items) (hbndls : s.bndls = [])
    (hfit : (encodeItems O items).length ≤ bufSize) :
    ∃ s', serializePacket A O c s =
        some ⟨s', [(time, encodeItems O items)], [], false⟩ ∧ s'.bndls = [] := by
  have hpos := h.length_pos
  obtain ⟨path, fmt, args, its, hheader, hpush, hpop, hpath, hfmt, hits, hitems⟩ := h
  rw [hitems] at hfit hpos ⊢
  obtain ⟨b₁, p₁, b₂, p₂, hsetPath, hsetFmt, hargs⟩ :=
    setItems O path s.buffer 0 hits (by omega)
  rw [Nat.zero_add] at hargs
  refine ⟨{ s with
    buffer := write s.buffer 0 (encodeItems O (.path path :: .fmt fmt :: its))
    bufPtr := some (encodeItems O (.path path :: .fmt fmt :: its)).length }, ?_, hbndls⟩
  unfold serializePacket
  rw [hheader]
  dsimp only
  rw [if_neg hpush, if_neg hpop]
  unfold setMessage
  simp only [hbndls, hpath, hfmt, hsetPath, hsetFmt, hargs, if_true, Bool.true_eq_false,
    Bool.false_eq_true, if_false, if_pos hpos, read_write]

/-- **A message in a bundle** becomes an element, with its size in front. -/
theorem serializePacket_element {p : ℕ} (h : IsMessage A O c time items) (hbndls : s.bndls ≠ [])
    (hptr : s.bufPtr = some p) (hfit : p + 4 + (encodeItems O items).length ≤ bufSize) :
    serializePacket A O c s =
      some ⟨{ s with
        buffer := write s.buffer p
          (itemSize (encodeItems O items).length ++ encodeItems O items)
        bufPtr := some (p + 4 + (encodeItems O items).length) }, [], [], false⟩ := by
  have hpos := h.length_pos
  obtain ⟨path, fmt, args, its, hheader, hpush, hpop, hpath, hfmt, hits, hitems⟩ := h
  rw [hitems] at hfit hpos ⊢
  have hstart := O.startBundleItem_eq s.buffer p (by omega)
  obtain ⟨b₁, p₁, b₂, p₂, hsetPath, hsetFmt, hargs⟩ :=
    setItems O path s.buffer (p + 4) hits hfit
  -- the size goes into the four bytes in front
  have hend := O.endBundleItem_eq
    (write s.buffer (p + 4) (encodeItems O (.path path :: .fmt fmt :: its)))
    (p + 4 + (encodeItems O (.path path :: .fmt fmt :: its)).length) p (by omega)
  have hsize : p + 4 + (encodeItems O (.path path :: .fmt fmt :: its)).length - p - 4 =
      (encodeItems O (.path path :: .fmt fmt :: its)).length := by omega
  have hfront := write_front s.buffer p
    (itemSize (encodeItems O (.path path :: .fmt fmt :: its)).length)
    (encodeItems O (.path path :: .fmt fmt :: its))
  rw [length_itemSize] at hfront
  rw [hsize, hfront] at hend
  unfold serializePacket
  rw [hheader]
  dsimp only
  rw [if_neg hpush, if_neg hpop]
  unfold setMessage
  simp only [hbndls, hpath, hfmt, hptr, hstart, hsetPath, hsetFmt, hargs, hend, Bool.true_eq_false,
    Bool.false_eq_true, if_false]

/-! ### The end of the buffer -/

/-- The pointer is not behind the end of the buffer. -/
def WithinBuffer (ptr : Option ℕ) : Prop := ∀ p ∈ ptr, p ≤ bufSize

theorem WithinBuffer.none : WithinBuffer none := fun _ hp => nomatch hp

theorem WithinBuffer.of_le {p : ℕ} (h : p ≤ bufSize) : WithinBuffer (some p) := by
  intro q hq
  rw [← Option.mem_some.mp hq]
  exact h

theorem WithinBuffer.zero : WithinBuffer (some 0) := .of_le (Nat.zero_le _)

/-- libosc answers no pointer behind the end. What does not fit has the answer
`NULL`. -/
structure LibOsc.Bounded (O : LibOsc) : Prop where
  set : ∀ item mem ptr, WithinBuffer ptr → WithinBuffer (O.set item mem ptr).2
  startBundle : ∀ mem ptr timetag, WithinBuffer ptr →
    WithinBuffer (O.startBundle mem ptr timetag).2.1 ∧
      WithinBuffer (O.startBundle mem ptr timetag).2.2
  endBundle : ∀ mem ptr bndl, WithinBuffer ptr → WithinBuffer bndl →
    WithinBuffer (O.endBundle mem ptr bndl).2
  startBundleItem : ∀ mem ptr, WithinBuffer ptr →
    WithinBuffer (O.startBundleItem mem ptr).2.1 ∧ WithinBuffer (O.startBundleItem mem ptr).2.2
  endBundleItem : ∀ mem ptr itm, WithinBuffer ptr → WithinBuffer itm →
    WithinBuffer (O.endBundleItem mem ptr itm).2

/-- All pointers that a module keeps are in its buffer. -/
structure OutModule.Within (s : OutModule) : Prop where
  bufPtr : WithinBuffer s.bufPtr
  itm : WithinBuffer s.itm
  bndls : ∀ bndl ∈ s.bndls, WithinBuffer bndl

theorem OutModule.new_within : OutModule.new.Within :=
  ⟨WithinBuffer.none, WithinBuffer.none, fun _ hb => absurd hb List.not_mem_nil⟩

/-- The bytes that are scheduled are those in front of the pointer. -/
theorem WithinBuffer.scheduled {size : ℕ} (h : WithinBuffer (some size)) {mem : ByteMemory.Memory} :
    ∀ x ∈ (if 0 < size then [(time, read mem 0 size)] else []), x.2.length ≤ bufSize := by
  intro x hx
  split at hx
  · rw [List.mem_singleton.mp hx, length_read]
    exact h size rfl
  · exact absurd hx List.not_mem_nil

section Within

variable (hO : O.Bounded)

include hO

theorem setArgs_within (fmt : List Char) (args : List LuaValue) (buffer : ByteMemory.Memory)
    {ptr : Option ℕ} (hptr : WithinBuffer ptr) :
    WithinBuffer (setArgs A O fmt args buffer ptr).ptr := by
  induction fmt generalizing args buffer ptr with
  | nil => exact hptr
  | cons type fmt ih =>
    unfold setArgs
    split
    · next item _ => exact ih _ _ (hO.set item buffer ptr hptr)
    · exact ih _ _ hptr
    · exact ih _ _ hptr
    · exact hptr

theorem pushBundle_within (hs : s.Within) : (pushBundle O s).Within := by
  unfold pushBundle
  split
  · next buffer ptr itm hstart =>
    have hpair : WithinBuffer ptr ∧ WithinBuffer itm := by
      split at hstart
      · obtain ⟨-, rfl, rfl⟩ := Prod.mk.injEq .. ▸ hstart
        exact ⟨WithinBuffer.zero, hs.itm⟩
      · have hitem := hO.startBundleItem s.buffer s.bufPtr hs.bufPtr
        rw [hstart] at hitem
        exact hitem
    have hbundle := hO.startBundle buffer ptr oscImmediate hpair.1
    exact ⟨hbundle.1, hpair.2, List.forall_mem_cons.mpr ⟨hbundle.2, hs.bndls⟩⟩

theorem popBundle_within (hs : s.Within) {r : CallResult} (hr : popBundle O time s = some r) :
    r.module.Within ∧ ∀ x ∈ r.scheduled, x.2.length ≤ bufSize := by
  unfold popBundle at hr
  cases hbndls : s.bndls with
  | nil =>
    rw [hbndls] at hr
    exact nomatch hr
  | cons bndl bndls =>
    have hinner : WithinBuffer bndl := hs.bndls bndl (hbndls ▸ List.mem_cons_self)
    have houter : ∀ b ∈ bndls, WithinBuffer b := fun b hb =>
      hs.bndls b (hbndls ▸ List.mem_cons_of_mem _ hb)
    have hend := hO.endBundle s.buffer s.bufPtr bndl hs.bufPtr hinner
    rw [hbndls] at hr
    simp only at hr
    split at hr
    · -- the outermost bundle is scheduled
      obtain ⟨size, hsize, rfl⟩ := Option.map_eq_some_iff.mp hr
      refine ⟨⟨hend, hs.itm, houter⟩, ?_⟩
      rw [hsize] at hend
      exact hend.scheduled
    · obtain rfl := Option.some.inj hr
      have hitem := hO.endBundleItem (O.endBundle s.buffer s.bufPtr bndl).1 _ s.itm hend hs.itm
      exact ⟨⟨hitem, hs.itm, houter⟩, fun x hx => absurd hx List.not_mem_nil⟩

theorem setMessage_within (hs : s.Within) (time : NFrames) (path fmt : List Char)
    (args : List LuaValue) :
    (setMessage A O time path fmt args s).module.Within ∧
      ∀ x ∈ (setMessage A O time path fmt args s).scheduled, x.2.length ≤ bufSize := by
  have hnone : ∀ x ∈ ([] : List (NFrames × List UInt8)), x.2.length ≤ bufSize :=
    fun x hx => absurd hx List.not_mem_nil
  unfold setMessage
  split
  · next buffer ptr itm hstart =>
    have hpair : WithinBuffer ptr ∧ WithinBuffer itm := by
      split at hstart
      · obtain ⟨-, rfl, rfl⟩ := Prod.mk.injEq .. ▸ hstart
        exact ⟨WithinBuffer.zero, WithinBuffer.none⟩
      · have hitem := hO.startBundleItem s.buffer s.bufPtr hs.bufPtr
        rw [hstart] at hitem
        exact hitem
    have hpath := hO.set (.path path) buffer ptr hpair.1
    have hfmt := hO.set (.fmt fmt) (O.set (.path path) buffer ptr).1 _ hpath
    have hargs := setArgs_within (A := A) hO fmt args
      (O.set (.fmt fmt) (O.set (.path path) buffer ptr).1 (O.set (.path path) buffer ptr).2).1 hfmt
    split
    · exact ⟨⟨hs.bufPtr, hs.itm, hs.bndls⟩, hnone⟩
    · simp only
      split
      · exact ⟨⟨hs.bufPtr, hs.itm, hs.bndls⟩, hnone⟩
      · split
        · exact ⟨⟨hs.bufPtr, hs.itm, hs.bndls⟩, hnone⟩
        · split
          · refine ⟨⟨hargs, hs.itm, hs.bndls⟩, ?_⟩
            simp only
            split
            · next size hsize =>
              rw [hsize] at hargs
              exact hargs.scheduled
            · exact hnone
          · exact ⟨⟨hO.endBundleItem _ _ itm hargs hpair.2, hs.itm, hs.bndls⟩, hnone⟩

/-- **The serialiser stays in its buffer.** What it schedules has at most
`TJOST_BUF_SIZE` bytes. -/
theorem serializePacket_within (hs : s.Within) {r : CallResult}
    (hr : serializePacket A O c s = some r) :
    r.module.Within ∧ ∀ x ∈ r.scheduled, x.2.length ≤ bufSize := by
  have hnone : ∀ x ∈ ([] : List (NFrames × List UInt8)), x.2.length ≤ bufSize :=
    fun x hx => absurd hx List.not_mem_nil
  unfold serializePacket at hr
  split at hr
  · obtain rfl := Option.some.inj hr
    exact ⟨hs, hnone⟩
  · split at hr
    · obtain rfl := Option.some.inj hr
      exact ⟨pushBundle_within hO hs, hnone⟩
    · split at hr
      · exact popBundle_within hO hs hr
      · obtain rfl := Option.some.inj hr
        exact setMessage_within hO hs _ _ _ _

end Within

/-- The plain libosc minds the end of the buffer. -/
theorem LibOsc.plain_bounded : LibOsc.plain.Bounded where
  set item mem ptr hptr := by
    cases ptr with
    | none => exact WithinBuffer.none
    | some p =>
      unfold LibOsc.plain
      simp only
      split
      · next hfit => exact .of_le hfit
      · exact WithinBuffer.none
  startBundle mem ptr timetag hptr := by
    cases ptr with
    | none => exact ⟨WithinBuffer.none, WithinBuffer.none⟩
    | some p =>
      unfold LibOsc.plain
      simp only
      split
      · next hfit => exact ⟨.of_le hfit, hptr⟩
      · exact ⟨WithinBuffer.none, WithinBuffer.none⟩
  endBundle mem ptr bndl hptr hbndl := by
    unfold LibOsc.plain
    simp only
    split
    · exact hptr
    · exact hbndl
  startBundleItem mem ptr hptr := by
    cases ptr with
    | none => exact ⟨WithinBuffer.none, WithinBuffer.none⟩
    | some p =>
      unfold LibOsc.plain
      simp only
      split
      · next hfit => exact ⟨.of_le hfit, hptr⟩
      · exact ⟨WithinBuffer.none, WithinBuffer.none⟩
  endBundleItem mem ptr itm hptr hitm := by
    unfold LibOsc.plain
    simp only
    split
    · split
      · exact hptr
      · exact hitm
    · exact WithinBuffer.none

end Tjost
