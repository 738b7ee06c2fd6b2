import Tjost.Lua.Serialize

/-!
# Bundles

A script builds a bundle with one call for every bundle it opens and closes and one
for every message. `Elements` is the tree that such calls describe, with the calls
at its nodes, and `Elements.encode` its encoding: every element with its size in
front.

The size of an inner bundle is written when it is closed, at `module->itm`. There
is one such pointer, and the next inner bundle to be opened overwrites it. So a
bundle in the outermost one gets its size if it holds messages only
(`Elements.Runs`); if it holds a bundle itself, its size field keeps the bytes
that were in the buffer before (`Elements.unfilled`).

`serializes_iff`: the packet is the encoding of the tree, whatever the module has in
its buffer, if and only if bundles are nested two deep at most. `three_levels` is
the packet of three.
-/

open BinaryFloat ByteMemory

namespace Tjost

/-- The elements of a bundle, with the calls that describe them. -/
inductive Elements
  | nil
  | message (call : Call) (rest : Elements)
  | bundle (push : Call) (inner : Elements) (pop : Call) (rest : Elements)

/-- An element with its size in front. -/
def sized (bs : List UInt8) : List UInt8 := itemSize bs.length ++ bs

@[simp] theorem length_sized (bs : List UInt8) : (sized bs).length = 4 + bs.length := by
  simp [sized]

variable (A : LuaApi) (O : LibOsc)

/-- The setters a call leads to. -/
def callItems (c : Call) : List OscItem :=
  match callHeader A c with
  | some (_, path, fmt, args) => .path path :: .fmt fmt :: (argItems A fmt args).getD []
  | none => []

/-- The encoding of the message of a call. -/
def encodeCall (c : Call) : List UInt8 := encodeItems O (callItems A c)

namespace Elements

/-- The calls, in order. -/
def calls : Elements → List Call
  | nil => []
  | message call rest => call :: rest.calls
  | bundle push inner pop rest => push :: inner.calls ++ pop :: rest.calls

/-- The encoding of the tree. -/
def encode : Elements → List UInt8
  | nil => []
  | message call rest => sized (encodeCall A O call) ++ rest.encode
  | bundle _ inner _ rest => sized (bundleHeader oscImmediate ++ inner.encode) ++ rest.encode

/-- How deep the bundles among the elements are nested. -/
def depth : Elements → ℕ
  | nil => 0
  | message _ rest => rest.depth
  | bundle _ inner _ rest => max (inner.depth + 1) rest.depth

/-- Where the first size field that stays empty is, if bundles are nested. -/
def unfilled : Elements → ℕ
  | nil => 0
  | message call rest => 4 + (encodeCall A O call).length + rest.unfilled
  | bundle _ inner _ rest =>
    if inner.depth = 0 then 20 + (inner.encode A O).length + rest.unfilled else 0

/-- The calls are what they stand for, and no bundle is empty. -/
def Valid : Elements → Prop
  | nil => True
  | message call rest => (∃ time, IsMessage A O call time (callItems A call)) ∧ rest.Valid
  | bundle push inner pop rest =>
    IsPush A push ∧ (∃ time, IsPop A pop time) ∧ inner ≠ nil ∧ inner.Valid ∧ rest.Valid

end Elements

/-- The calls of an output module one after the other, with what they schedule, where
Lua raises no error. -/
def serializeAll : List Call → OutModule → Option (OutModule × List (NFrames × List UInt8))
  | [], s => some (s, [])
  | c :: cs, s =>
    (serializePacket A O c s).bind fun r =>
      if r.raised then none
      else (serializeAll cs r.module).map fun rest => (rest.1, r.scheduled ++ rest.2)

variable {A O} {s s' : OutModule} {c : Call} {cs cs' : List Call}

theorem serializeAll_append :
    serializeAll A O (cs ++ cs') s = (serializeAll A O cs s).bind fun r =>
      (serializeAll A O cs' r.1).map fun rest => (rest.1, r.2 ++ rest.2) := by
  induction cs generalizing s with
  | nil => simp [serializeAll]
  | cons c cs ih =>
    rw [List.cons_append, serializeAll, serializeAll]
    cases serializePacket A O c s with
    | none => rfl
    | some r =>
      simp only [Option.bind_some]
      by_cases hr : r.raised
      · simp [hr]
      · simp only [hr, Bool.false_eq_true, if_false, ih]
        cases serializeAll A O cs r.module with
        | none => rfl
        | some r' =>
          simp only [Option.bind_some, Option.map_some, Option.map_map]
          congr 1
          funext rest
          simp

/-- One call more, in front. -/
theorem serializeAll_cons {r : CallResult} {rest : OutModule × List (NFrames × List UInt8)}
    (h : serializePacket A O c s = some r) (hr : r.raised = false)
    (hrest : serializeAll A O cs r.module = some rest) :
    serializeAll A O (c :: cs) s = some (rest.1, r.scheduled ++ rest.2) := by
  rw [serializeAll, h, Option.bind_some, hr, hrest]
  rfl

/-- Calls that schedule nothing, one list after the other. -/
theorem serializeAll_append_quiet {s₁ s₂ : OutModule} {out : List (NFrames × List UInt8)}
    (h : serializeAll A O cs s = some (s₁, [])) (h' : serializeAll A O cs' s₁ = some (s₂, out)) :
    serializeAll A O (cs ++ cs') s = some (s₂, out) := by
  rw [serializeAll_append, h, Option.bind_some, h']
  rfl

namespace Elements

/-- An element is not empty. -/
theorem length_encode_pos {es : Elements} (hne : es ≠ nil) : 0 < (es.encode A O).length := by
  cases es with
  | nil => exact absurd rfl hne
  | message call rest =>
    simp only [encode, List.length_append, length_sized]
    omega
  | bundle push inner pop rest =>
    simp only [encode, List.length_append, length_sized]
    omega

/-- **What the calls of the elements do** inside a bundle. They fill the bytes from
`p` on, and schedule nothing. Where no bundle among them holds another one, they
write the encoding. The item pointer is that of a bundle among them, if there is
one. -/
def Runs (A : LuaApi) (O : LibOsc) (es : Elements) : Prop :=
  ∀ (s : OutModule) (p : ℕ), s.bufPtr = some p → s.bndls ≠ [] →
    p + (es.encode A O).length ≤ bufSize →
      ∃ s', serializeAll A O es.calls s = some (s', []) ∧
        s'.bufPtr = some (p + (es.encode A O).length) ∧ s'.bndls = s.bndls ∧
        SameOutside p (p + (es.encode A O).length) s.buffer s'.buffer ∧
        (es.depth = 0 → s'.itm = s.itm) ∧
        (es.depth ≠ 0 → ∃ q, s'.itm = some q ∧ p ≤ q ∧ q + 4 < p + (es.encode A O).length) ∧
        (es.depth ≤ 1 → s'.buffer = write s.buffer p (es.encode A O)) ∧
        (1 < es.depth → s'.buffer (p + es.unfilled A O) = s.buffer (p + es.unfilled A O))

/-- **An inner bundle.** If it holds messages only, it is written with its size.
Otherwise its size field is left as it was. -/
theorem inner_runs {inner : Elements} {push pop : Call} {time : NFrames} (hruns : inner.Runs A O)
    (hne : inner ≠ nil) (hpush : IsPush A push) (hpop : IsPop A pop time) {p n : ℕ}
    (hn : n = 20 + (inner.encode A O).length) (hptr : s.bufPtr = some p) (hbndls : s.bndls ≠ [])
    (hfit : p + n ≤ bufSize) :
    ∃ s', serializeAll A O (push :: inner.calls ++ [pop]) s = some (s', []) ∧
      s'.bufPtr = some (p + n) ∧ s'.bndls = s.bndls ∧ SameOutside p (p + n) s.buffer s'.buffer ∧
      (∃ q, s'.itm = some q ∧ p ≤ q ∧ q + 4 < p + n) ∧
      (inner.depth = 0 → s'.buffer =
        write s.buffer p (sized (bundleHeader oscImmediate ++ inner.encode A O))) ∧
      (inner.depth ≠ 0 → s'.buffer p = s.buffer p) := by
  have hpos := length_encode_pos (A := A) (O := O) hne
  -- the bundle is opened
  have hitem := O.startBundleItem_eq s.buffer p (by omega)
  have hstart := O.startBundle_eq s.buffer (p + 4) oscImmediate (by omega)
  set s₁ : OutModule :=
    { buffer := write s.buffer (p + 4) (bundleHeader oscImmediate), bufPtr := some (p + 4 + 16),
      itm := some p, bndls := some (p + 4) :: s.bndls } with hs₁
  have hopen : pushBundle O s = s₁ := by
    unfold pushBundle
    simp only [if_neg hbndls, hptr, hitem, hstart, hs₁]
  have hfirst := serializePacket_push (O := O) (s := s) hpush
  rw [hopen] at hfirst
  -- the elements
  obtain ⟨s₂, hinner, hptr₂, hbndls₂, hsame₂, hitm₀, hitm₁, hbuffer₂, -⟩ :=
    hruns s₁ (p + 4 + 16) rfl (List.cons_ne_nil _ _) (by omega)
  -- and the bundle is closed
  have hq : ∃ q, s₂.itm = some q ∧ p ≤ q ∧ q + 4 < p + n ∧ (inner.depth = 0 → q = p) ∧
      (inner.depth ≠ 0 → p < q) := by
    by_cases h0 : inner.depth = 0
    · refine ⟨p, ?_, le_refl _, by omega, fun _ => rfl, fun h => absurd h0 h⟩
      rw [hitm₀ h0]
    · obtain ⟨q, hq, hle, hlt⟩ := hitm₁ h0
      exact ⟨q, hq, by omega, by omega, fun h => absurd h h0, fun _ => by omega⟩
  obtain ⟨q, hitm₂, hqle, hqlt, hq₀, hq₁⟩ := hq
  have hend := O.endBundle_eq s₂.buffer (p + 4 + 16 + (inner.encode A O).length) (p + 4) (by omega)
  have hclose := O.endBundleItem_eq s₂.buffer (p + 4 + 16 + (inner.encode A O).length) q (by omega)
  have hlen : p + 4 + 16 + (inner.encode A O).length = p + n := by omega
  rw [hlen] at hend hclose hptr₂
  set s₃ : OutModule :=
    { s₂ with buffer := write s₂.buffer q (itemSize (p + n - q - 4)), bufPtr := some (p + n),
              bndls := s.bndls } with hs₃
  have hlast : serializePacket A O pop s₂ = some ⟨s₃, [], [], false⟩ := by
    rw [serializePacket_pop hpop]
    unfold popBundle
    rw [hbndls₂, hptr₂]
    simp only [hs₁, hend, hitm₂, hclose, if_neg hbndls, hs₃]
  have hsame₁ : SameOutside p (p + n) s.buffer s₁.buffer := by
    refine SameOutside.write s.buffer (Nat.le_add_right _ _) ?_
    rw [length_bundleHeader]
    omega
  have hsame₃ : SameOutside p (p + n) s₂.buffer s₃.buffer := by
    refine SameOutside.write s₂.buffer hqle ?_
    rw [length_itemSize]
    omega
  refine ⟨s₃, ?_, rfl, rfl, ?_, ⟨q, hitm₂, hqle, hqlt⟩, ?_, ?_⟩
  · have hnil : serializeAll A O [] s₃ = some (s₃, []) := rfl
    have htail : serializeAll A O (inner.calls ++ [pop]) s₁ = some (s₃, []) :=
      serializeAll_append_quiet hinner (serializeAll_cons hlast rfl hnil)
    exact serializeAll_cons hfirst rfl htail
  · exact (hsame₁.trans (hsame₂.mono (by omega) (by omega))).trans hsame₃
  · intro h0
    obtain rfl := hq₀ h0
    have hn4 : q + n - q - 4 = (bundleHeader oscImmediate ++ inner.encode A O).length := by
      rw [List.length_append, length_bundleHeader]
      omega
    have hfront := write_front s.buffer q (itemSize (q + n - q - 4))
      (bundleHeader oscImmediate ++ inner.encode A O)
    have happend := write_append s.buffer (q + 4) (bundleHeader oscImmediate) (inner.encode A O)
    rw [length_bundleHeader] at happend
    rw [length_itemSize, happend] at hfront
    change write s₂.buffer q (itemSize (q + n - q - 4)) = _
    rw [hbuffer₂ (by omega), hfront, hn4, sized]
  · intro h0
    have hlt := hq₁ h0
    change write s₂.buffer q (itemSize (p + n - q - 4)) p = s.buffer p
    rw [write_of_lt hlt, hsame₂ p (Or.inl (by omega))]
    exact write_of_lt (by omega)

/-- **The calls of valid elements run.** The induction is on the tree. -/
theorem runs {es : Elements} (hvalid : es.Valid A O) : es.Runs A O := by
  induction es with
  | nil =>
    intro s p hptr hbndls hfit
    refine ⟨s, rfl, hptr, rfl, SameOutside.refl _ _ _, fun _ => rfl, fun h => absurd rfl h, ?_,
      fun _ => rfl⟩
    intro _
    exact (write_nil s.buffer p).symm
  | message call rest ih =>
    obtain ⟨⟨time, hmessage⟩, hrest⟩ := hvalid
    intro s p hptr hbndls hfit
    simp only [encode, List.length_append, length_sized] at hfit ⊢
    set s₁ : OutModule :=
      { s with
        buffer := write s.buffer p (sized (encodeCall A O call))
        bufPtr := some (p + 4 + (encodeCall A O call).length) } with hs₁
    have hcall : serializePacket A O call s = some ⟨s₁, [], [], false⟩ :=
      serializePacket_element hmessage hbndls hptr (by unfold encodeCall at hfit; omega)
    obtain ⟨s', hrun, hptr', hbndls', hsame, hitm₀, hitm₁, hbuffer, hstuck⟩ :=
      ih hrest s₁ (p + 4 + (encodeCall A O call).length) rfl hbndls (by omega)
    refine ⟨s', serializeAll_cons hcall rfl hrun, ?_, hbndls', ?_, hitm₀, ?_, ?_, ?_⟩
    · rw [hptr']
      congr 1
      omega
    · refine SameOutside.trans (SameOutside.write s.buffer (le_refl p) ?_)
        (hsame.mono (by omega) (by omega))
      rw [length_sized]
      omega
    · intro h
      obtain ⟨q, hq, hle, hlt⟩ := hitm₁ h
      exact ⟨q, hq, by omega, by omega⟩
    · intro h
      rw [hbuffer h, write_append, length_sized, ← Nat.add_assoc]
    · intro h
      have hpos : p + (4 + (encodeCall A O call).length + rest.unfilled A O) =
          p + 4 + (encodeCall A O call).length + rest.unfilled A O := by omega
      simp only [unfilled]
      rw [hpos, hstuck h]
      refine write_of_ge ?_
      rw [length_sized]
      omega
  | bundle push inner pop rest ihInner ihRest =>
    obtain ⟨hpush, ⟨time, hpop⟩, hne, hinner, hrest⟩ := hvalid
    intro s p hptr hbndls hfit
    simp only [encode, List.length_append, length_sized, length_bundleHeader] at hfit ⊢
    obtain ⟨s₁, hrun₁, hptr₁, hbndls₁, hsame₁, ⟨q, hitm₁, hqle, hqlt⟩, hbuffer₁, hkept⟩ :=
      inner_runs (ihInner hinner) hne hpush hpop (s := s) (p := p) rfl hptr hbndls (by omega)
    obtain ⟨s₂, hrun₂, hptr₂, hbndls₂, hsame₂, hitm₀, hitm₂, hbuffer₂, hstuck⟩ :=
      ihRest hrest s₁ (p + (20 + (inner.encode A O).length)) hptr₁ (by rwa [hbndls₁]) (by omega)
    refine ⟨s₂, ?_, ?_, hbndls₂.trans hbndls₁, ?_, ?_, ?_, ?_, ?_⟩
    · have happend := serializeAll_append_quiet hrun₁ hrun₂
      rw [List.append_assoc] at happend
      exact happend
    · rw [hptr₂]
      congr 1
      omega
    · exact SameOutside.trans (hsame₁.mono (le_refl _) (by omega)) (hsame₂.mono (by omega) (by omega))
    · intro h
      simp only [depth] at h
      omega
    · intro _
      by_cases h0 : rest.depth = 0
      · rw [hitm₀ h0]
        exact ⟨q, hitm₁, hqle, by omega⟩
      · obtain ⟨q', hq', hle, hlt⟩ := hitm₂ h0
        exact ⟨q', hq', by omega, by omega⟩
    · intro h
      simp only [depth] at h
      rw [hbuffer₂ (by omega), hbuffer₁ (by omega), write_append, length_sized, List.length_append,
        length_bundleHeader]
      congr 1
      omega
    · intro h
      simp only [depth] at h
      simp only [unfilled]
      split
      · next h0 =>
        -- the bundle is complete, so the field is behind it
        have hpos : p + (20 + (inner.encode A O).length + rest.unfilled A O) =
            p + (20 + (inner.encode A O).length) + rest.unfilled A O := by omega
        rw [hpos, hstuck (by omega)]
        exact hsame₁ _ (Or.inr (by omega))
      · next h0 => exact (hsame₂ p (Or.inl (by omega))).trans (hkept h0)

theorem unfilled_lt {es : Elements} (h : 1 < es.depth) :
    es.unfilled A O < (es.encode A O).length := by
  induction es with
  | nil => exact absurd h (by decide)
  | message call rest ih =>
    simp only [depth] at h
    have hrest := ih h
    simp only [unfilled, encode, List.length_append, length_sized]
    omega
  | bundle push inner pop rest _ ih =>
    simp only [depth] at h
    simp only [unfilled, encode, List.length_append, length_sized, length_bundleHeader]
    split
    · next h0 =>
      have hrest := ih (by omega)
      omega
    · omega

end Elements

/-- **The outermost bundle**: its calls schedule one packet, with the last of them. -/
theorem outer_runs {inner : Elements} {push pop : Call} {time : NFrames}
    (hvalid : inner.Valid A O) (hne : inner ≠ .nil) (hpush : IsPush A push)
    (hpop : IsPop A pop time) (hfit : 16 + (inner.encode A O).length ≤ bufSize)
    (hbndls : s.bndls = []) :
    ∃ s' s'', serializeAll A O (push :: inner.calls) s = some (s', []) ∧
      serializeAll A O (push :: inner.calls ++ [pop]) s =
        some (s'', [(time, read s'.buffer 0 (16 + (inner.encode A O).length))]) ∧
      (inner.depth ≤ 1 →
        s'.buffer = write s.buffer 0 (bundleHeader oscImmediate ++ inner.encode A O)) ∧
      (1 < inner.depth →
        s'.buffer (16 + inner.unfilled A O) = s.buffer (16 + inner.unfilled A O)) := by
  have hpos := Elements.length_encode_pos (A := A) (O := O) hne
  have hstart := O.startBundle_eq s.buffer 0 oscImmediate (by omega)
  set s₁ : OutModule :=
    { buffer := write s.buffer 0 (bundleHeader oscImmediate), bufPtr := some (0 + 16),
      itm := s.itm, bndls := [some 0] } with hs₁
  have hfirst : serializePacket A O push s = some ⟨s₁, [], [], false⟩ := by
    rw [serializePacket_push hpush]
    unfold pushBundle
    simp only [hbndls, if_true, hstart, hs₁]
  -- the elements are written behind the header
  obtain ⟨s₂, hinner, hptr₂, hbndls₂, -, -, -, hbuffer₂, hstuck₂⟩ :=
    Elements.runs hvalid s₁ 16 rfl (List.cons_ne_nil _ _) hfit
  have hend := O.endBundle_eq s₂.buffer (16 + (inner.encode A O).length) 0 (by omega)
  set s₃ : OutModule := { s₂ with bndls := [] } with hs₃
  -- and the end of the bundle is the size of the packet
  have hlast : serializePacket A O pop s₂ =
      some ⟨s₃, [(time, read s₂.buffer 0 (16 + (inner.encode A O).length))], [], false⟩ := by
    have hsize : 0 < 16 + (inner.encode A O).length := by omega
    rw [serializePacket_pop hpop]
    unfold popBundle
    rw [hbndls₂]
    simp only [hs₁, hptr₂, hend, if_true, Option.map_some, if_pos hsize, hs₃]
  have hnil : serializeAll A O [] s₃ = some (s₃, []) := rfl
  refine ⟨s₂, s₃, serializeAll_cons hfirst rfl hinner, ?_, ?_, ?_⟩
  · have htail := serializeAll_append_quiet hinner (serializeAll_cons hlast rfl hnil)
    exact serializeAll_cons hfirst rfl htail
  · intro h
    have happend := write_append s.buffer 0 (bundleHeader oscImmediate) (inner.encode A O)
    rw [length_bundleHeader] at happend
    rw [hbuffer₂ h, happend]
  · intro h
    -- the header is in front of the field
    rw [hstuck₂ h]
    change write s.buffer 0 (bundleHeader oscImmediate) (16 + inner.unfilled A O) = _
    refine write_of_ge ?_
    rw [length_bundleHeader]
    omega

variable (A O)

/-- The calls of a bundle schedule its tree, with the last of them, whatever the
module has in its buffer. -/
def Serializes (push : Call) (inner : Elements) (pop : Call) (time : NFrames) : Prop :=
  ∀ s : OutModule, s.bndls = [] →
    (∃ s', serializeAll A O (push :: inner.calls) s = some (s', [])) ∧
      ∃ s', serializeAll A O (push :: inner.calls ++ [pop]) s =
        some (s', [(time, bundleHeader oscImmediate ++ inner.encode A O)])

variable {A O}

/-- **Bundles are serialised as described** if and only if they are nested two deep
at most. -/
theorem serializes_iff {inner : Elements} {push pop : Call} {time : NFrames}
    (hvalid : inner.Valid A O) (hne : inner ≠ .nil) (hpush : IsPush A push)
    (hpop : IsPop A pop time) (hfit : 16 + (inner.encode A O).length ≤ bufSize) :
    Serializes A O push inner pop time ↔ inner.depth ≤ 1 := by
  constructor
  · intro h
    by_contra hdepth
    have hdeep : 1 < inner.depth := Nat.lt_of_not_le hdepth
    have hlt := Elements.unfilled_lt (A := A) (O := O) hdeep
    -- the byte at the empty field is the one that was there
    have hbyte : ∀ b : UInt8,
        (bundleHeader oscImmediate ++ inner.encode A O)[16 + inner.unfilled A O]? = some b := by
      intro b
      obtain ⟨s', s'', -, hrun, -, hstuck⟩ := outer_runs (s := ⟨fun _ => b, none, none, []⟩) hvalid
        hne hpush hpop hfit rfl
      obtain ⟨-, t, ht⟩ := h ⟨fun _ => b, none, none, []⟩ rfl
      have hout := congrArg Prod.snd (Option.some.inj (hrun.symm.trans ht))
      have hpacket : read s'.buffer 0 (16 + (inner.encode A O).length) =
          bundleHeader oscImmediate ++ inner.encode A O := by simpa using hout
      rw [← hpacket, getElem?_read (by omega), Nat.zero_add, hstuck hdeep]
    have hcontra := (hbyte 0).symm.trans (hbyte 255)
    exact absurd hcontra (by decide)
  · intro hdepth s hbndls
    obtain ⟨s', s'', hquiet, hrun, hbuffer, -⟩ := outer_runs hvalid hne hpush hpop hfit hbndls
    refine ⟨⟨s', hquiet⟩, s'', ?_⟩
    have hread := read_write s.buffer 0 (bundleHeader oscImmediate ++ inner.encode A O)
    rw [List.length_append, length_bundleHeader] at hread
    rw [hrun, hbuffer hdepth, hread]

/-- `out("/bundle/push", "")`. -/
def pushCall : Call := [.string bundlePushPath, .string []]

/-- `out("/bundle/pop", "")`. -/
def popCall : Call := [.string bundlePopPath, .string []]

/-- `out("/ping", "")`. -/
def pingCall : Call := [.string ['/', 'p', 'i', 'n', 'g'], .string []]

theorem isPush_pushCall : IsPush LuaApi.plain pushCall := ⟨0, [], rfl⟩

theorem isPop_popCall : IsPop LuaApi.plain popCall 0 := ⟨[], rfl⟩

theorem isMessage_pingCall :
    IsMessage LuaApi.plain LibOsc.plain pingCall 0 (callItems LuaApi.plain pingCall) :=
  ⟨['/', 'p', 'i', 'n', 'g'], [], [], [], rfl, by decide, by decide, rfl, rfl, rfl, rfl⟩

/-- A message, and a bundle with a message. -/
def twoLevels : Elements :=
  .message pingCall (.bundle pushCall (.message pingCall .nil) popCall .nil)

theorem serializes_iff_twoLevels :
    Serializes LuaApi.plain LibOsc.plain pushCall twoLevels popCall 0 := by
  have hping : ∃ time, IsMessage LuaApi.plain LibOsc.plain pingCall time
      (callItems LuaApi.plain pingCall) := ⟨0, isMessage_pingCall⟩
  have hvalid : twoLevels.Valid LuaApi.plain LibOsc.plain :=
    ⟨hping, isPush_pushCall, ⟨0, isPop_popCall⟩, by simp, ⟨hping, trivial⟩, trivial⟩
  have hfit : 16 + (twoLevels.encode LuaApi.plain LibOsc.plain).length ≤ bufSize := by
    decide +kernel
  exact (serializes_iff hvalid (by simp [twoLevels]) isPush_pushCall isPop_popCall hfit).mpr
    (by decide)

/-- A bundle with a bundle with a message. -/
def threeLevels : Elements :=
  .bundle pushCall (.bundle pushCall (.message pingCall .nil) popCall .nil) popCall .nil

/-- **Three levels.** In the packet of a new module the size of the bundle in the
middle is `0`. -/
theorem three_levels :
    ∃ s packet, serializeAll LuaApi.plain LibOsc.plain
        (pushCall :: threeLevels.calls ++ [popCall]) OutModule.new = some (s, [(0, packet)]) ∧
      (packet.drop 16).take 4 = itemSize 0 ∧
      packet ≠ bundleHeader oscImmediate ++ threeLevels.encode LuaApi.plain LibOsc.plain := by
  have hrun : (serializeAll LuaApi.plain LibOsc.plain
      (pushCall :: threeLevels.calls ++ [popCall]) OutModule.new).map
        (fun r => r.2.map fun out => (out.1, (out.2.drop 16).take 4)) = some [(0, itemSize 0)] := by
    decide +kernel
  obtain ⟨⟨s, out⟩, hs, hout⟩ := Option.map_eq_some_iff.mp hrun
  obtain ⟨⟨time, packet⟩, rfl, hpacket⟩ := List.map_eq_singleton_iff.mp hout
  obtain ⟨rfl, hsize⟩ := Prod.mk.inj hpacket
  refine ⟨s, packet, hs, hsize, ?_⟩
  rintro rfl
  revert hsize
  decide +kernel

end Tjost
