import Tjost.Lua.Packets
import Tjost.Modules.Console

/-!
# The arguments of a line

What the parser of the console makes of a line, against what the line says. A line says a message
if its path and its format are valid and there is a token for each argument that the conversion of
the type takes as a whole (`readArgs`).

The parser does not ask for this. Where a token is missing, the one before is converted again, which
may be the format. A conversion counts unless the answer of `sscanf` is `0`: so do the answer `EOF`,
with which nothing is assigned, and conversions of a part of the token. `Conversions` gives the
answers of `sscanf` by its directives.

`matched_iff`: the message of a line is the one it says if and only if path or format are invalid,
the line says a message, or the arguments that are set all the same are refused, for their length
or, where one is left out, by `osc_check_message`. `format_again` is a line that says no message and
has one.
-/

namespace Tjost.Console

/-! ### The directives of `sscanf` -/

/-- What a directive makes of a string. -/
inductive Scan (α : Type)
  /-- The string ends in front of a value. -/
  | eof
  | mismatch
  | value (x : α) (rest : List UInt8)

namespace Scan

variable {α : Type}

/-- The answer of `sscanf` for this directive only, and what is then in the variable. -/
def answer : Scan α → α → ℤ × α
  | .eof, old => (-1, old)
  | .mismatch, old => (0, old)
  | .value x _, _ => (1, x)

/-- The value, if the directive takes the whole string. -/
def whole : Scan α → Option α
  | .value x [] => some x
  | _ => none

theorem eq_of_whole {s : Scan α} {x : α} (h : s.whole = some x) : s = .value x [] := by
  cases s with
  | eof => cases h
  | mismatch => cases h
  | value y rest =>
    cases rest with
    | nil => rw [Option.some.inj h]
    | cons b rest => cases h

end Scan

/-- The directives, with the values in front. -/
structure Conversions where
  /-- `%i` for 32 bits. -/
  int32 : List UInt8 → Scan Int32
  float : List UInt8 → Scan UInt32
  /-- `%02x` for 8 bits. -/
  hex8 : List UInt8 → Scan UInt8
  /-- `%i` for 64 bits. -/
  int64 : List UInt8 → Scan Int64
  double : List UInt8 → Scan UInt64
  /-- `%x` for 32 bits. -/
  hex32 : List UInt8 → Scan UInt32

namespace Conversions

variable (C : Conversions)

/-- `"%x.%x"`. The answer is the number of values, or `EOF` if there is none. -/
def hex32Pair (bs : List UInt8) (old : UInt32 × UInt32) : ℤ × UInt32 × UInt32 :=
  match C.hex32 bs with
  | .eof => (-1, old)
  | .mismatch => (0, old)
  | .value sec [] => (1, sec, old.2)
  | .value sec (b :: rest) =>
    if b = 0x2e then
      let frac := (C.hex32 rest).answer old.2
      (1 + max 0 frac.1, sec, frac.2)
    else (1, sec, old.2)

/-- `"%02x"` for each variable. -/
def hex8s : List UInt8 → List UInt8 → ℤ × List UInt8
  | _, [] => (0, [])
  | bs, x :: old =>
    match C.hex8 bs with
    | .eof => (-1, x :: old)
    | .mismatch => (0, x :: old)
    | .value y rest =>
      let r := hex8s rest old
      (1 + max 0 r.1, y :: r.2)

/-- `sscanf` with the formats of the parser. -/
def sscanf : Sscanf where
  int32 bs old := (C.int32 bs).answer old
  float bs old := (C.float bs).answer old
  hex8 bs old := (C.hex8 bs).answer old
  int64 bs old := (C.int64 bs).answer old
  double bs old := (C.double bs).answer old
  hex32Pair := C.hex32Pair
  hex8Four := C.hex8s

/-! ### What a line says -/

/-- The bytes of a token with two digits for each. -/
def pairs : List UInt8 → Option (List UInt8)
  | [] => some []
  | [_] => none
  | a :: b :: bs =>
    match C.hex8 (a :: b :: bs) with
    | .value x rest => if rest = bs then (pairs bs).map (x :: ·) else none
    | _ => none

/-- The `n` bytes of a token, one value behind the other. -/
def bytes : ℕ → List UInt8 → Option (List UInt8)
  | 0, [] => some []
  | 0, _ :: _ => none
  | n + 1, bs =>
    match C.hex8 bs with
    | .value x rest => (bytes n rest).map (x :: ·)
    | _ => none

/-- The timetag of a token. -/
def timetag (token : List UInt8) : Option UInt64 :=
  match C.hex32 token with
  | .value sec (b :: rest) =>
    if b = 0x2e then
      (C.hex32 rest).whole.map fun frac => sec.toUInt64 <<< (32 : UInt64) ||| frac.toUInt64
    else none
  | _ => none

/-- **The argument that a token is**, if the conversion of the type takes the whole token. -/
def argument (type : Char) (token : List UInt8) : Option OscArg :=
  match type with
  | 'i' => (C.int32 token).whole.map .int32
  | 'f' => (C.float token).whole.map .float
  | 's' => some (.string (chars token))
  | 'b' => (C.pairs token).map .blob
  | 'h' => (C.int64 token).whole.map .int64
  | 'd' => (C.double token).whole.map .double
  | 't' => (C.timetag token).map .timetag
  | 'S' => some (.symbol (chars token))
  | 'c' =>
    match token with
    | [b] => some (.char b.toInt8)
    | _ => none
  | 'm' => (C.bytes 4 token).map .midi
  | _ => none

end Conversions

/-- The arguments without a token. -/
def silent (type : Char) : Option OscArg :=
  match type with
  | 'T' => some .true
  | 'F' => some .false
  | 'N' => some .nil
  | 'I' => some .bang
  | _ => none

variable (C : Conversions) (E : Environment)

/-- **The arguments that the rest of a line says**, with a token of its own for each type that takes
one. -/
def readArgs : List UInt8 → List UInt8 → Option (List OscArg)
  | [], _ => some []
  | b :: types, rest =>
    match silent (charOf b) with
    | some a => (readArgs types rest).map (a :: ·)
    | none =>
      if tokenOf rest = [] then none
      else (C.argument (charOf b) (tokenOf rest)).bind fun a =>
        (readArgs types (afterToken rest)).map (a :: ·)

/-- The path of a line. -/
def linePath (bs : List UInt8) : List Char := chars (tokenOf bs)

/-- The format of a line. -/
def lineFmt (bs : List UInt8) : List UInt8 := formatOf (afterToken bs)

/-- What is behind the path and the format of a line. -/
def lineRest (bs : List UInt8) : List UInt8 := afterToken (afterToken bs)

/-- **The message is the one that the line says**, if there is one. -/
def Matched (bs : List UInt8) (message : Option (List UInt8)) : Prop :=
  ∀ m ∈ message, E.osc.checkPath (linePath bs) = true ∧ E.osc.checkFmt (chars (lineFmt bs)) = true ∧
    ∃ args, readArgs C (lineFmt bs) (lineRest bs) = some args ∧
      OscPacket.fmt args = chars (lineFmt bs) ∧
      m = (OscPacket.message (linePath bs) args).encode E.osc

/-! ### What is set all the same -/

/-- What the walk of the parser sets for each type that takes a token: `none` where the answer of
`sscanf` is `0`. Where there is no token, the switch is given the one before. -/
def given (k : ℕ) (types cur rest : List UInt8) : List (Option OscItem) :=
  ((walk C.sscanf E.locals k types cur rest).filter fun x => takesToken x.1).map fun x => x.2.1

theorem given_cons (k : ℕ) (b : UInt8) (types cur rest : List UInt8) :
    given C E k (b :: types) cur rest =
      let following := given C E (k + 1) types (curAt (charOf b) cur rest) (restAt (charOf b) rest)
      if takesToken (charOf b) then
        (convert C.sscanf (E.locals k) (charOf b) (curAt (charOf b) cur rest)).1 :: following
      else following := by
  unfold given
  dsimp only [walk]
  rw [List.filter_cons]
  split <;> rfl

/-- The encoding of what is set for a line. -/
def givenBytes (bs : List UInt8) : List UInt8 :=
  encodeItems E.osc (.path (linePath bs) :: .fmt (chars (lineFmt bs)) ::
    (given C E 0 (lineFmt bs) (lineFmt bs) (lineRest bs)).reduceOption)

/-- **What is set is refused**: it is too long, or one is left out and libosc does not take the
rest for a message. This is the part of the condition that is about the parser. It is for lines that
say no message, of which the parser makes none. -/
def Refused (bs : List UInt8) : Prop :=
  bufSize < (givenBytes C E bs).length ∨
    none ∈ given C E 0 (lineFmt bs) (lineFmt bs) (lineRest bs) ∧
      E.checkMessage (givenBytes C E bs) = false

/-- **The condition on a line.** The first three parts are about the line only. -/
def Sound (bs : List UInt8) : Prop :=
  E.osc.checkPath (linePath bs) = false ∨ E.osc.checkFmt (chars (lineFmt bs)) = false ∨
    (readArgs C (lineFmt bs) (lineRest bs)).isSome ∨ Refused C E bs

/-- The libraries behave as documented: `sscanf` goes by its directives, and a message with a value
for each type of its format is valid. The variable for a MIDI event has four bytes. -/
structure Documented : Prop where
  sscanf : E.sscanf = C.sscanf
  midi : ∀ k, (E.locals k).m.length = 4
  checkMessage : ∀ path args, E.osc.checkPath path = true →
    E.osc.checkFmt (OscPacket.fmt args) = true → (∀ a ∈ args, ∀ item ∈ a.item, item.Valid) →
    E.checkMessage ((OscPacket.message path args).encode E.osc) = true

variable {C E} {v : Locals} {type : Char} {token : List UInt8} {a : OscArg}

/-! ### Types and their arguments -/

theorem silent_isSome (type : Char) : (silent type).isSome = !takesToken type := by
  unfold silent takesToken
  split
  · rfl
  · rfl
  · rfl
  · rfl
  · simp_all

theorem type_of_silent (h : silent type = some a) : a.type = type ∧ a.item = none := by
  unfold silent at h
  split at h <;> cases h <;> exact ⟨rfl, rfl⟩

/-- A type without a token has no conversion. -/
theorem converts_of_not_takesToken (h : takesToken type = false) : converts type = false := by
  have hsilent := silent_isSome type
  rw [h] at hsilent
  unfold silent at hsilent
  split at hsilent
  · rfl
  · rfl
  · rfl
  · rfl
  · cases hsilent

/-! ### Tokens that are accepted -/

/-- The pairs of a blob are converted one after the other. -/
theorem hex8_of_pairs : ∀ {token payload : List UInt8}, C.pairs token = some payload →
    (List.range (token.length / 2)).map (fun i => C.sscanf.hex8 (token.drop (2 * i)) 0) =
      payload.map fun x => (1, x)
  | [], _, h => by
    obtain rfl := Option.some.inj h
    rfl
  | [_], _, h => by cases h
  | a :: b :: bs, payload, h => by
    unfold Conversions.pairs at h
    split at h
    · next x rest hscan =>
      split at h
      · obtain ⟨following, hfollowing, rfl⟩ := Option.map_eq_some_iff.mp h
        have hhalf : (a :: b :: bs).length / 2 = bs.length / 2 + 1 := by
          rw [List.length_cons, List.length_cons]
          omega
        have hfirst : C.sscanf.hex8 ((a :: b :: bs).drop (2 * 0)) 0 = (1, x) := by
          change (C.hex8 (a :: b :: bs)).answer 0 = (1, x)
          rw [hscan]
          rfl
        rw [hhalf, List.range_succ_eq_map, List.map_cons, hfirst, List.map_map, List.map_cons,
          ← hex8_of_pairs hfollowing]
        rfl
      · cases h
    · cases h

theorem convertBlob_of_pairs {payload : List UInt8} (h : C.pairs token = some payload) :
    convertBlob C.sscanf token = (some (.blob payload), []) := by
  unfold convertBlob
  simp only [hex8_of_pairs h, List.map_map, Function.comp_def, List.map_id']
  rw [List.filter_eq_nil_iff.mpr]
  · rfl
  · intro r hr
    obtain ⟨x, -, rfl⟩ := List.mem_map.mp hr
    simp

/-- The bytes of a MIDI event are converted one after the other. -/
theorem hex8s_of_bytes {n : ℕ} {m old : List UInt8} (h : C.bytes n token = some m)
    (hold : old.length = n) : C.hex8s token old = ((n : ℤ), m) := by
  induction n generalizing token m old with
  | zero =>
    obtain rfl := List.length_eq_zero_iff.mp hold
    cases token with
    | nil =>
      obtain rfl := Option.some.inj h
      rfl
    | cons b bs => cases h
  | succ n ih =>
    obtain ⟨x, old, rfl⟩ := List.exists_of_length_succ old hold
    unfold Conversions.bytes at h
    split at h
    · next y rest hscan =>
      obtain ⟨following, hfollowing, rfl⟩ := Option.map_eq_some_iff.mp h
      have hrest := ih hfollowing (Nat.succ.inj hold)
      unfold Conversions.hex8s
      rw [hscan]
      simp only [hrest]
      congr 1
      push_cast
      omega
    · cases h

/-- Both halves of a timetag are converted. -/
theorem convert_of_timetag {t : UInt64} (h : C.timetag token = some t) :
    convert C.sscanf v 't' token = (some (.timetag t), []) := by
  change converted 't' (fun x => OscItem.timetag (x.1.toUInt64 <<< (32 : UInt64) ||| x.2.toUInt64))
    (C.hex32Pair token (v.sec, v.frac)) = _
  unfold Conversions.timetag at h
  split at h
  · next sec b rest hscan =>
    split at h
    · next hdot =>
      obtain ⟨frac, hfrac, rfl⟩ := Option.map_eq_some_iff.mp h
      unfold Conversions.hex32Pair
      rw [hscan]
      dsimp only
      rw [if_pos hdot, Scan.eq_of_whole hfrac]
      rfl
    · cases h
  · cases h

/-- A directive that takes the whole token answers `1`. -/
theorem converted_of_whole {α : Type} {s : Scan α} {x old : α} {item : α → OscItem}
    (h : s.whole = some x) : converted type item (s.answer old) = (some (item x), []) := by
  rw [Scan.eq_of_whole h]
  rfl

/-- **A token that is accepted** is an argument of the type, and what the switch sets. -/
theorem convert_of_argument (hm : v.m.length = 4) (h : C.argument type token = some a) :
    a.type = type ∧ ∃ item, a.item = some item ∧
      convert C.sscanf v type token = (some item, []) := by
  unfold Conversions.argument at h
  unfold convert
  split at h
  · obtain ⟨x, hx, rfl⟩ := Option.map_eq_some_iff.mp h
    exact ⟨rfl, _, rfl, converted_of_whole hx⟩
  · obtain ⟨x, hx, rfl⟩ := Option.map_eq_some_iff.mp h
    exact ⟨rfl, _, rfl, converted_of_whole hx⟩
  · obtain rfl := Option.some.inj h
    exact ⟨rfl, _, rfl, rfl⟩
  · -- a blob: every pair of digits is a directive of its own
    obtain ⟨x, hx, rfl⟩ := Option.map_eq_some_iff.mp h
    exact ⟨rfl, _, rfl, convertBlob_of_pairs hx⟩
  · obtain ⟨x, hx, rfl⟩ := Option.map_eq_some_iff.mp h
    exact ⟨rfl, _, rfl, converted_of_whole hx⟩
  · obtain ⟨x, hx, rfl⟩ := Option.map_eq_some_iff.mp h
    exact ⟨rfl, _, rfl, converted_of_whole hx⟩
  · obtain ⟨x, hx, rfl⟩ := Option.map_eq_some_iff.mp h
    exact ⟨rfl, _, rfl, convert_of_timetag hx⟩
  · obtain rfl := Option.some.inj h
    exact ⟨rfl, _, rfl, rfl⟩
  · -- a character: the parser takes the first byte, which is all of the token
    split at h
    · obtain rfl := Option.some.inj h
      exact ⟨rfl, _, rfl, rfl⟩
    · cases h
  · obtain ⟨x, hx, rfl⟩ := Option.map_eq_some_iff.mp h
    refine ⟨rfl, _, rfl, ?_⟩
    change converted 'm' .midi (C.hex8s token v.m) = _
    rw [hex8s_of_bytes hx hm]
    rfl
  · cases h

/-- The message of a line, as the items that the parser sets. -/
theorem encode_message (O : LibOsc) (path : List Char) (args : List OscArg) :
    (OscPacket.message path args).encode O =
      encodeItems O (.path path :: .fmt (OscPacket.fmt args) :: args.filterMap OscArg.item) := by
  have hargs : args.flatMap (OscArg.bytes O) = encodeItems O (args.filterMap OscArg.item) := by
    induction args with
    | nil => rfl
    | cons a args ih =>
      rw [List.flatMap_cons, ih]
      unfold OscArg.bytes
      cases hitem : a.item with
      | none => rw [List.filterMap_cons_none hitem, List.nil_append]
      | some item =>
        rw [List.filterMap_cons_some hitem]
        rfl
  rw [OscPacket.encode, hargs, List.append_assoc]
  rfl

/-- **Where a line says its arguments, the parser sets them**, and reports nothing. -/
theorem parseArgs_of_readArgs (hE : Documented C E) {types rest : List UInt8} {args : List OscArg}
    (h : readArgs C types rest = some args) (k : ℕ) (cur : List UInt8) :
    parseArgs E k types cur rest = (args.filterMap OscArg.item, []) ∧
      OscPacket.fmt args = chars types := by
  induction types generalizing rest args k cur with
  | nil =>
    obtain rfl := Option.some.inj h
    exact ⟨rfl, rfl⟩
  | cons b types ih =>
    unfold readArgs at h
    have hsilent := silent_isSome (charOf b)
    rw [parseArgs_cons]
    dsimp only
    cases ha : silent (charOf b) with
    | some a =>
      -- the type takes no token, and the rest stays
      rw [ha] at h hsilent
      obtain ⟨following, hfollowing, rfl⟩ := Option.map_eq_some_iff.mp h
      have htakes : takesToken (charOf b) = false := by simpa using hsilent
      obtain ⟨htype, hitem⟩ := type_of_silent ha
      obtain ⟨hargs, hfmt⟩ := ih hfollowing (k + 1) (curAt (charOf b) cur rest)
      have hrest : restAt (charOf b) rest = rest := by simp [restAt, htakes]
      have hmissing : missingAt (charOf b) rest = [] := by simp [missingAt, htakes]
      rw [hrest, hargs, hmissing, Parser.convert_of_not (converts_of_not_takesToken htakes),
        List.filterMap_cons_none hitem]
      refine ⟨rfl, ?_⟩
      change a.type :: OscPacket.fmt following = charOf b :: chars types
      rw [htype, hfmt]
    | none =>
      -- there is a token, so the cursor moves to it
      rw [ha] at h hsilent
      dsimp only at h
      split at h
      · cases h
      · next htoken =>
        obtain ⟨a, hargument, h⟩ := Option.bind_eq_some_iff.mp h
        obtain ⟨following, hfollowing, rfl⟩ := Option.map_eq_some_iff.mp h
        have htakes : takesToken (charOf b) = true := by simpa using hsilent
        have hne : rest ≠ [] := by
          rintro rfl
          exact htoken rfl
        obtain ⟨htype, item, hitem, hconvert⟩ := convert_of_argument (hE.midi k) hargument
        have hcur : curAt (charOf b) cur rest = tokenOf rest := if_pos ⟨htakes, hne⟩
        obtain ⟨hargs, hfmt⟩ := ih hfollowing (k + 1) (tokenOf rest)
        have hrest : restAt (charOf b) rest = afterToken rest := by simp [restAt, htakes]
        have hmissing : missingAt (charOf b) rest = [] := by simp [missingAt, hne]
        rw [hcur, hrest, hargs, hmissing, hE.sscanf, hconvert, List.filterMap_cons_some hitem]
        refine ⟨rfl, ?_⟩
        change a.type :: OscPacket.fmt following = charOf b :: chars types
        rw [htype, hfmt]

/-! ### Lines that say no message -/

/-- What the parser sets, type by type. -/
theorem parseArgs_given (hE : Documented C E) (k : ℕ) (types cur rest : List UInt8) :
    (parseArgs E k types cur rest).1 = (given C E k types cur rest).reduceOption := by
  induction types generalizing k cur rest with
  | nil => rfl
  | cons b types ih =>
    rw [parseArgs_cons, given_cons]
    dsimp only
    rw [ih, hE.sscanf]
    cases htakes : takesToken (charOf b) with
    | true =>
      -- what is left out has been reported
      rw [if_pos rfl]
      cases (convert C.sscanf (E.locals k) (charOf b) (curAt (charOf b) cur rest)).1 with
      | none => rfl
      | some item => rfl
    | false =>
      rw [Parser.convert_of_not (converts_of_not_takesToken htakes), if_neg Bool.false_ne_true]
      rfl

theorem length_hex8s (bs old : List UInt8) : (C.hex8s bs old).2.length = old.length := by
  induction old generalizing bs with
  | nil => rfl
  | cons x old ih =>
    unfold Conversions.hex8s
    split
    · rfl
    · rfl
    · next y rest hscan => exact congrArg (· + 1) (ih rest)

/-- A token is a C string. -/
theorem isCString_chars {bs : List UInt8} (h : ∀ b ∈ bs, isToken b = true) :
    IsCString (chars bs) := by
  intro c hc
  obtain ⟨b, hb, rfl⟩ := List.mem_map.mp hc
  have htoken := h b hb
  have hlt : b.toNat < 256 := b.toNat_lt
  have hvalid : b.toNat.isValidChar := Or.inl (hlt.trans (by decide))
  have hchar : (charOf b).toNat = b.toNat := by
    unfold charOf Char.ofNat
    rw [dif_pos hvalid]
    rfl
  rw [hchar]
  refine ⟨fun hzero => ?_, hlt⟩
  exact isToken_ne_zero htoken (UInt8.toNat_inj.mp hzero)

/-- **What the switch sets is an argument of its type.** -/
theorem argument_of_convert (hm : v.m.length = 4) (htoken : ∀ b ∈ token, isToken b = true)
    (hlen : token.length < 2 ^ 32) {item : OscItem}
    (h : (convert C.sscanf v type token).1 = some item) :
    ∃ a : OscArg, a.type = type ∧ a.item = some item ∧ item.Valid := by
  -- an answer of `sscanf` is not looked at any further
  have hanswer : ∀ {α : Type} {f : α → OscItem} {r : ℤ × α}, (converted type f r).1 = some item →
      item = f r.2 := by
    intro α f r hr
    unfold converted at hr
    split at hr
    · exact (Option.some.inj hr).symm
    · cases hr
  unfold convert at h
  split at h
  · obtain rfl := hanswer h
    exact ⟨.int32 _, rfl, rfl, trivial⟩
  · obtain rfl := hanswer h
    exact ⟨.float _, rfl, rfl, trivial⟩
  · obtain rfl := Option.some.inj h
    exact ⟨.string _, rfl, rfl, isCString_chars htoken⟩
  · -- half as many bytes as the token has digits
    obtain rfl := Option.some.inj h
    refine ⟨.blob _, rfl, rfl, ?_⟩
    change List.length _ < 2 ^ 31
    rw [List.length_map, List.length_map, List.length_range]
    omega
  · obtain rfl := hanswer h
    exact ⟨.int64 _, rfl, rfl, trivial⟩
  · obtain rfl := hanswer h
    exact ⟨.double _, rfl, rfl, trivial⟩
  · obtain rfl := hanswer h
    exact ⟨.timetag _, rfl, rfl, trivial⟩
  · obtain rfl := Option.some.inj h
    exact ⟨.symbol _, rfl, rfl, isCString_chars htoken⟩
  · obtain rfl := Option.some.inj h
    exact ⟨.char _, rfl, rfl, trivial⟩
  · obtain rfl := hanswer h
    exact ⟨.midi _, rfl, rfl, (length_hex8s token v.m).trans hm⟩
  · cases h

theorem tokenOf_isToken (rest : List UInt8) : ∀ b ∈ tokenOf rest, isToken b = true :=
  fun _ hb => List.mem_takeWhile_imp hb

theorem length_tokenOf (rest : List UInt8) : (tokenOf rest).length ≤ rest.length :=
  (List.takeWhile_prefix _).length_le

theorem length_afterToken (rest : List UInt8) : (afterToken rest).length ≤ rest.length :=
  calc (afterToken rest).length ≤ (rest.dropWhile isToken).tail.length :=
        (List.dropWhile_suffix _).length_le
    _ ≤ (rest.dropWhile isToken).length := (List.tail_suffix _).length_le
    _ ≤ rest.length := (List.dropWhile_suffix _).length_le

/-- The items are the values of arguments with these types. -/
def Values (types : List Char) (items : List OscItem) : Prop :=
  ∃ args : List OscArg, OscPacket.fmt args = types ∧ args.filterMap OscArg.item = items ∧
    ∀ a ∈ args, ∀ item ∈ a.item, item.Valid

/-- One more argument, with its value if it has one. -/
theorem Values.cons {types : List Char} {items : List OscItem} (h : Values types items)
    (hvalid : ∀ item ∈ a.item, item.Valid) :
    Values (a.type :: types) (a.item.toList ++ items) := by
  obtain ⟨args, hfmt, hitems, hargs⟩ := h
  refine ⟨a :: args, ?_, ?_, ?_⟩
  · change a.type :: OscPacket.fmt args = a.type :: types
    rw [hfmt]
  · cases hitem : a.item with
    | none => rw [List.filterMap_cons_none hitem, hitems, Option.toList_none, List.nil_append]
    | some item =>
      rw [List.filterMap_cons_some hitem, hitems, Option.toList_some, List.singleton_append]
  · intro x hx
    obtain rfl | hx := List.mem_cons.mp hx
    · exact hvalid
    · exact hargs x hx

/-- **Where none is left out, a message is set**, whether the line says it or not. -/
theorem values_of_given (hE : Documented C E) {k : ℕ} {types cur rest : List UInt8}
    (hcur : ∀ b ∈ cur, isToken b = true) (hcurlen : cur.length < 2 ^ 32)
    (hrest : rest.length < 2 ^ 32) (h : none ∉ given C E k types cur rest) :
    Values (chars types) (given C E k types cur rest).reduceOption := by
  induction types generalizing k cur rest with
  | nil => exact ⟨[], rfl, rfl, fun a ha => absurd ha List.not_mem_nil⟩
  | cons b types ih =>
    -- the token that is looked at is one of the line, wherever it comes from
    have hat : (∀ x ∈ curAt (charOf b) cur rest, isToken x = true) ∧
        (curAt (charOf b) cur rest).length < 2 ^ 32 := by
      unfold curAt
      split
      · exact ⟨tokenOf_isToken rest, (length_tokenOf rest).trans_lt hrest⟩
      · exact ⟨hcur, hcurlen⟩
    have hafter : (restAt (charOf b) rest).length < 2 ^ 32 := by
      unfold restAt
      split
      · exact (length_afterToken rest).trans_lt hrest
      · exact hrest
    rw [given_cons] at h ⊢
    dsimp only at h ⊢
    cases htakes : takesToken (charOf b) with
    | true =>
      rw [htakes, if_pos rfl, List.mem_cons, not_or] at h
      rw [if_pos rfl]
      obtain ⟨hhead, htail⟩ := h
      obtain ⟨item, hitem⟩ := Option.ne_none_iff_exists'.mp (Ne.symm hhead)
      obtain ⟨a, htype, haitem, hvalid⟩ := argument_of_convert (hE.midi k) hat.1 hat.2 hitem
      have hvalues := (ih hat.1 hat.2 hafter htail).cons (a := a) (by
        intro x hx
        obtain rfl := Option.some.inj (haitem.symm.trans hx)
        exact hvalid)
      rw [htype, haitem] at hvalues
      rw [hitem]
      exact hvalues
    | false =>
      rw [htakes, if_neg Bool.false_ne_true] at h
      rw [if_neg Bool.false_ne_true]
      have hsilent := silent_isSome (charOf b)
      rw [htakes] at hsilent
      obtain ⟨a, ha⟩ := Option.isSome_iff_exists.mp hsilent
      obtain ⟨htype, hitem⟩ := type_of_silent ha
      have hvalues := (ih hat.1 hat.2 hafter h).cons (a := a) (by
        intro x hx
        rw [hitem] at hx
        cases hx)
      rw [htype, hitem] at hvalues
      exact hvalues

/-! ### Lines -/

/-- Behind a part of a line is the end of the line. -/
theorem tokensEnd_of_line {rest : List UInt8} (n : ℕ)
    (h : rest = [] ∨ rest.getLast? = some 0x0a) : TokensEnd n rest := by
  induction n generalizing rest with
  | zero => trivial
  | succ n ih =>
    obtain rfl | hlast := h
    · exact Or.inl rfl
    · refine Or.inr ⟨⟨0x0a, List.mem_of_getLast? hlast, by decide⟩, ih ?_⟩
      have hsuffix : afterToken rest <:+ rest :=
        ((List.dropWhile_suffix _).trans (List.tail_suffix _)).trans (List.dropWhile_suffix _)
      obtain ⟨front, hfront⟩ := hsuffix
      by_cases hnil : afterToken rest = []
      · exact Or.inl hnil
      · right
        calc (afterToken rest).getLast? = (front ++ afterToken rest).getLast? :=
              (List.getLast?_append_of_ne_nil front hnil).symm
          _ = some 0x0a := by rw [hfront, hlast]

variable {bs : List UInt8}

/-- **What is passed on for a line** whose path and format are valid. -/
theorem parse_message (hE : Documented C E) (hpath : E.osc.checkPath (linePath bs) = true)
    (hfmt : E.osc.checkFmt (chars (lineFmt bs)) = true) (m : List UInt8) :
    m ∈ (parse E bs).message ↔ m = givenBytes C E bs ∧ (givenBytes C E bs).length ≤ bufSize ∧
      E.checkMessage (givenBytes C E bs) = true := by
  have hgiven : givenBytes C E bs = encodeItems E.osc (.path (linePath bs) ::
      .fmt (chars (lineFmt bs)) :: (parseArgs E 0 (lineFmt bs) (lineFmt bs) (lineRest bs)).1) := by
    rw [parseArgs_given hE]
    rfl
  have hparse : parse E bs = conclude E (.path (linePath bs) :: .fmt (chars (lineFmt bs)) ::
      (parseArgs E 0 (lineFmt bs) (lineFmt bs) (lineRest bs)).1)
      (parseArgs E 0 (lineFmt bs) (lineFmt bs) (lineRest bs)).2 := by
    have htrue : ¬ (true = false) := Bool.noConfusion
    unfold parse
    unfold linePath at hpath
    unfold lineFmt at hfmt
    dsimp only
    rw [hpath, hfmt, if_neg htrue, if_neg htrue]
    rfl
  rw [hparse, hgiven]
  -- the two checks of the end
  unfold conclude
  split
  · next h =>
    rw [Option.mem_some_iff]
    exact ⟨fun hm => ⟨hm.symm, h⟩, fun hm => hm.1.symm⟩
  · next h =>
    constructor
    · intro hm
      cases hm
    · intro hm
      exact absurd hm.2 h

/-- **What is set is a message**, if none is left out. -/
theorem checkMessage_of_given (hE : Documented C E) (hn : bs.length ≤ lineSize)
    (hpath : E.osc.checkPath (linePath bs) = true)
    (hfmt : E.osc.checkFmt (chars (lineFmt bs)) = true)
    (h : none ∉ given C E 0 (lineFmt bs) (lineFmt bs) (lineRest bs)) :
    E.checkMessage (givenBytes C E bs) = true := by
  have hline : lineSize < 2 ^ 32 := by decide
  have htoken : ∀ b ∈ lineFmt bs, isToken b = true := by
    unfold lineFmt formatOf
    split
    · exact fun b hb => absurd hb List.not_mem_nil
    · exact tokenOf_isToken _
  have hlen : (lineFmt bs).length ≤ bs.length := by
    unfold lineFmt formatOf
    split
    · exact Nat.zero_le _
    · exact (length_tokenOf _).trans (length_afterToken bs)
  have hrest : (lineRest bs).length ≤ bs.length :=
    (length_afterToken _).trans (length_afterToken bs)
  obtain ⟨args, htypes, hitems, hvalid⟩ := values_of_given hE htoken
    ((hlen.trans hn).trans_lt hline) ((hrest.trans hn).trans_lt hline) h
  have hbytes : givenBytes C E bs = (OscPacket.message (linePath bs) args).encode E.osc := by
    rw [encode_message, htypes, hitems]
    rfl
  rw [hbytes]
  rw [← htypes] at hfmt
  exact hE.checkMessage (linePath bs) args hpath hfmt hvalid

/-- A line without a valid path and format has no message. -/
theorem parse_invalid (h : E.osc.checkPath (linePath bs) = false ∨
    E.osc.checkFmt (chars (lineFmt bs)) = false) : (parse E bs).message = none := by
  unfold linePath lineFmt at h
  unfold parse
  dsimp only
  split
  · rfl
  · next hpath => rw [if_pos (h.resolve_left hpath)]

/-- **When the message is the one that the line says.** -/
theorem matched_parse (hE : Documented C E) (hn : bs.length ≤ lineSize) :
    Matched C E bs (parse E bs).message ↔ Sound C E bs := by
  by_cases hinvalid : E.osc.checkPath (linePath bs) = false ∨
      E.osc.checkFmt (chars (lineFmt bs)) = false
  · rw [parse_invalid hinvalid]
    refine iff_of_true (fun m hm => by cases hm) ?_
    exact hinvalid.imp_right Or.inl
  rw [not_or, Bool.not_eq_false, Bool.not_eq_false] at hinvalid
  obtain ⟨hpath, hfmt⟩ := hinvalid
  have hmessage := parse_message hE hpath hfmt
  cases hargs : readArgs C (lineFmt bs) (lineRest bs) with
  | some args =>
    -- the parser has set what the line says
    refine iff_of_true ?_ (Or.inr (Or.inr (Or.inl (by rw [hargs]; rfl))))
    intro m hm
    obtain ⟨hparse, htypes⟩ := parseArgs_of_readArgs hE hargs 0 (lineFmt bs)
    refine ⟨hpath, hfmt, args, hargs, htypes, ?_⟩
    have hgiven := parseArgs_given hE 0 (lineFmt bs) (lineFmt bs) (lineRest bs)
    rw [hparse] at hgiven
    rw [((hmessage m).mp hm).1, encode_message, htypes]
    unfold givenBytes
    rw [← hgiven]
  | none =>
    -- it has set something else, which must not be passed on
    have hnot : Matched C E bs (parse E bs).message ↔ Refused C E bs := by
      constructor
      · intro hmatched
        have hrefused : ¬ ((givenBytes C E bs).length ≤ bufSize ∧
            E.checkMessage (givenBytes C E bs) = true) := by
          intro h
          obtain ⟨-, -, args, hsome, -⟩ := hmatched _ ((hmessage _).mpr ⟨rfl, h⟩)
          rw [hargs] at hsome
          cases hsome
        by_cases hlong : bufSize < (givenBytes C E bs).length
        · exact Or.inl hlong
        have hcheck : E.checkMessage (givenBytes C E bs) = false :=
          Bool.not_eq_true _ ▸ fun h => hrefused ⟨Nat.not_lt.mp hlong, h⟩
        refine Or.inr ⟨?_, hcheck⟩
        -- with all of them it would have been a message
        by_contra hall
        have haccepted := checkMessage_of_given hE hn hpath hfmt hall
        rw [hcheck] at haccepted
        cases haccepted
      · rintro (hlong | ⟨-, hcheck⟩) m hm
        · exact absurd ((hmessage m).mp hm).2.1 (Nat.not_le.mpr hlong)
        · rw [((hmessage m).mp hm).2.2] at hcheck
          cases hcheck
    rw [hnot]
    unfold Sound
    rw [hpath, hfmt, hargs]
    simp

/-- **When a line is matched.** -/
theorem matched_iff (hO : Refuses E.osc) (hE : Documented C E) (hn : bs.length ≤ lineSize)
    (hline : bs.getLast? = some 0x0a) :
    (∀ mem, Holds mem bs → ∃ decision scans, recv E bs.length mem = some (decision, scans) ∧
        Matched C E bs decision.message) ↔ Sound C E bs := by
  have hne : bs ≠ [] := by
    rintro rfl
    cases hline
  have hends : Ends E bs := tokensEnd_of_line _ (Or.inr hline)
  rw [← matched_parse hE hn]
  constructor
  · -- one content of the memory behind the line is enough
    intro h
    obtain ⟨decision, scans, hrecv, hmatched⟩ := h _ (holds_lineOf 0 bs)
    obtain ⟨scans', hparse, -⟩ := recv_eq hO hne hn hends (holds_lineOf 0 bs)
    rw [hparse] at hrecv
    rw [(Prod.mk.inj (Option.some.inj hrecv)).1]
    exact hmatched
  · intro hmatched mem hmem
    obtain ⟨scans, hparse, -⟩ := recv_eq hO hne hn hends hmem
    exact ⟨parse E bs, scans, hparse, hmatched⟩

/-! ### A line with an integer -/

/-- Decimal integers only. -/
def Conversions.plain : Conversions where
  int32 bs :=
    let digits := bs.takeWhile fun b => 0x30 ≤ b && b ≤ 0x39
    if digits = [] then (if bs = [] then .eof else .mismatch)
    else .value (Int32.ofNat (digits.foldl (fun n b => 10 * n + (b - 0x30).toNat) 0))
      (bs.drop digits.length)
  float _ := .mismatch
  hex8 _ := .mismatch
  int64 _ := .mismatch
  double _ := .mismatch
  hex32 _ := .mismatch

def decimalEnvironment : Environment :=
  { Environment.plain with sscanf := Conversions.plain.sscanf }

/-- The plain encodings are padded to four bytes. -/
theorem length_plain_mod {item : OscItem} (h : ∀ m, item = .midi m → m.length = 4) :
    item.plain.length % 4 = 0 := by
  have hpad : ∀ s : List Char, (oscPad s).length % 4 = 0 := by
    intro s
    simp only [oscPad, List.length_append, List.length_map, List.length_replicate]
    omega
  cases item with
  | path s => exact hpad s
  | fmt s => exact hpad (',' :: s)
  | string s => exact hpad s
  | symbol s => exact hpad s
  | blob b =>
    simp only [OscItem.plain, List.length_append, Bytes.length_toBE, List.length_replicate]
    omega
  | midi m => exact congrArg (· % 4) (h m rfl)
  | _ => simp [OscItem.plain]

theorem length_message_mod (path : List Char) {args : List OscArg}
    (hvalid : ∀ a ∈ args, ∀ item ∈ a.item, item.Valid) :
    ((OscPacket.message path args).encode LibOsc.plain).length % 4 = 0 := by
  have hargs : (args.flatMap (OscArg.bytes LibOsc.plain)).length % 4 = 0 := by
    induction args with
    | nil => rfl
    | cons a args ih =>
      have hrest := ih fun x hx => hvalid x (List.mem_cons_of_mem a hx)
      have ha : (a.bytes LibOsc.plain).length % 4 = 0 := by
        unfold OscArg.bytes
        cases hitem : a.item with
        | none => rfl
        | some item =>
          refine length_plain_mod fun m hm => ?_
          subst hm
          exact hvalid a List.mem_cons_self _ hitem
      rw [List.flatMap_cons, List.length_append]
      omega
  have hpath : ((OscItem.path path).plain).length % 4 = 0 := length_plain_mod (by simp)
  have hfmt : ((OscItem.fmt (OscPacket.fmt args)).plain).length % 4 = 0 :=
    length_plain_mod (by simp)
  rw [OscPacket.encode, List.length_append, List.length_append]
  change ((OscItem.path path).plain.length + (OscItem.fmt (OscPacket.fmt args)).plain.length +
    (args.flatMap (OscArg.bytes LibOsc.plain)).length) % 4 = 0
  omega

theorem decimal_documented : Documented Conversions.plain decimalEnvironment where
  sscanf := rfl
  midi _ := rfl
  checkMessage path args hpath _ hvalid := by
    have hmod := length_message_mod path hvalid
    have hslash : path.head? = some '/' := of_decide_eq_true hpath
    obtain ⟨path, rfl⟩ : ∃ s, path = '/' :: s := by
      cases path with
      | nil => cases hslash
      | cons c s => exact ⟨s, by rw [Option.some.inj hslash]⟩
    change (decide (((OscPacket.message ('/' :: path) args).encode LibOsc.plain).head? = some 0x2f) &&
      ((OscPacket.message ('/' :: path) args).encode LibOsc.plain).length % 4 == 0) = true
    rw [hmod]
    rfl

/-- `"/a i 7\n"` says a message. -/
theorem matched_iff_seven :
    (parse decimalEnvironment sevenLine).message =
        some [0x2f, 0x61, 0, 0, 0x2c, 0x69, 0, 0, 0, 0, 0, 7] ∧
      ∀ mem, Holds mem sevenLine → ∃ decision scans,
        recv decimalEnvironment sevenLine.length mem = some (decision, scans) ∧
          Matched Conversions.plain decimalEnvironment sevenLine decision.message := by
  have hO : Refuses decimalEnvironment.osc := plain_refuses
  have hsound : (readArgs Conversions.plain (lineFmt sevenLine) (lineRest sevenLine)).isSome := by
    decide +kernel
  exact ⟨by decide +kernel, (matched_iff hO decimal_documented (by decide) rfl).mpr
    (Or.inr (Or.inr (Or.inl hsound)))⟩

/-- `"/a s\n"`. -/
def formatLine : List UInt8 := [0x2f, 0x61, 0x20, 0x73, 0x0a]

/-- **The format is the argument as well**, where there is no token for it. -/
theorem format_again :
    (recv decimalEnvironment 5 (lineOf 0 formatLine)).map Prod.fst =
        some ⟨some [0x2f, 0x61, 0, 0, 0x2c, 0x73, 0, 0, 0x73, 0, 0, 0],
          [report "argument 's' missing"]⟩ ∧
      ¬ ∀ mem, Holds mem formatLine → ∃ decision scans,
        recv decimalEnvironment formatLine.length mem = some (decision, scans) ∧
          Matched Conversions.plain decimalEnvironment formatLine decision.message := by
  have hrecv : (recv decimalEnvironment 5 (lineOf 0 formatLine)).map Prod.fst =
      some ⟨some [0x2f, 0x61, 0, 0, 0x2c, 0x73, 0, 0, 0x73, 0, 0, 0],
        [report "argument 's' missing"]⟩ := by
    decide +kernel
  refine ⟨hrecv, fun h => ?_⟩
  obtain ⟨decision, scans, hdecision, hmatched⟩ := h _ (holds_lineOf 0 formatLine)
  have hlen : formatLine.length = 5 := rfl
  rw [hlen] at hdecision
  rw [hdecision] at hrecv
  obtain rfl := Option.some.inj hrecv
  obtain ⟨-, -, args, hargs, -⟩ := hmatched _ rfl
  have hnone : (readArgs Conversions.plain (lineFmt formatLine) (lineRest formatLine)).isSome =
      false := by decide +kernel
  rw [hargs] at hnone
  cases hnone

end Tjost.Console
