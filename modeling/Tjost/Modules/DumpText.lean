import Tjost.Lua.Packets

/-!
# What the dump module prints

`Dump.serializeMessage`, `Dump.serializeBundle` and `Dump.serializePacket` are the functions of
`mod_dump.c` that print a packet. They follow the sizes in the bytes, not a tree: a pointer is an
offset into the bytes of the packet, a loop goes from one element to the next as long as it is in
front of the end, and a read of other bytes than those of the packet ends the call with
`Stop.outside`.

`Dump.render` is the text of a packet as a tree. `Dump.serializeBundle_encode`: what is printed for
the encoding of a bundle is its text, no other bytes are read, and as many rounds as there are
bytes are enough.
-/

namespace Tjost

/-- The getters with those that only a reader of whole messages needs. An extent is the number of
bytes that a getter and the use of its answer look at; within an encoding it does not exceed it. -/
structure MessageGetters (O : LibOsc) extends OscGetters O where
  getPath : List UInt8 → List Char × List UInt8
  getFmt : List UInt8 → List Char × List UInt8
  /-- `osc_skip`. -/
  skip : Char → List UInt8 → List UInt8
  pathExtent : List UInt8 → ℕ
  fmtExtent : List UInt8 → ℕ
  /-- That of the getter for a type. -/
  extent : Char → List UInt8 → ℕ
  getPath_encode : ∀ s rest, IsCString s → getPath (O.encode (.path s) ++ rest) = (s, rest)
  getFmt_encode : ∀ s rest, IsCString s → getFmt (O.encode (.fmt s) ++ rest) = (s, rest)
  skip_empty : ∀ type ∈ ['T', 'F', 'N', 'I'], ∀ bytes, skip type bytes = bytes
  pathExtent_encode : ∀ s rest, IsCString s →
    pathExtent (O.encode (.path s) ++ rest) ≤ (O.encode (.path s)).length
  fmtExtent_encode : ∀ s rest, IsCString s →
    fmtExtent (O.encode (.fmt s) ++ rest) ≤ (O.encode (.fmt s)).length
  extent_encode : ∀ (a : OscArg) rest, (∀ item ∈ a.item, item.Valid) →
    extent a.type (a.bytes O ++ rest) ≤ (a.bytes O).length
  /-- A path is encoded with its characters in front. -/
  encode_path_cons : ∀ c s, ∃ bytes, O.encode (.path (c :: s)) = UInt8.ofNat c.toNat :: bytes
  /-- Strings and symbols have one encoding. -/
  encode_symbol : ∀ s, O.encode (.symbol s) = O.encode (.string s)

namespace Dump

/-! ### Formatted output -/

/-- `%i`. -/
def decimal (n : ℤ) : List Char := (toString n).toList

/-- `%X` with leading zeros. -/
def hex (width n : ℕ) : List Char :=
  let digits := (Nat.toDigits 16 n).map Char.toUpper
  List.replicate (width - digits.length) '0' ++ digits

/-- The tabulators in front of a line. -/
def tabs (indent : ℕ) : List Char := List.replicate indent '\t'

/-- The two halves of a timetag. -/
def timetagText (t : UInt64) : List Char :=
  hex 8 (t >>> 32).toNat ++ '.' :: hex 8 (t &&& 0xFFFFFFFF).toNat

/-- The payload of a blob. The comma behind the last byte is covered by the bracket. -/
def payloadText (b : List UInt8) : List Char :=
  '[' :: b.flatMap (fun x => hex 2 x.toNat ++ [',']) ++ ['\x08', ']']

/-- `%c`. -/
def charText (c : Int8) : List Char := [Char.ofNat c.toUInt8.toNat]

/-- The text of numbers in `%f`. -/
structure FloatText where
  float : UInt32 → List Char
  double : UInt64 → List Char

/-! ### Reading the bytes of a packet -/

/-- Why a call does not return. -/
inductive Stop
  /-- Bytes are read that are not those of the packet. -/
  | outside
  /-- There are no more rounds. -/
  | rounds
  deriving DecidableEq, Repr

/-- A getter at a pointer: what it answers, and the pointer behind. -/
def look {α : Type} (buf : List UInt8) (ptr : ℤ) (extent : List UInt8 → ℕ)
    (get : List UInt8 → α × List UInt8) : Except Stop (α × ℤ) :=
  let bytes := buf.drop ptr.toNat
  if 0 ≤ ptr ∧ ptr + extent bytes ≤ buf.length then
    .ok ((get bytes).1, ptr + bytes.length - (get bytes).2.length)
  else
    .error .outside

/-- A big-endian number of `n` bytes. -/
def lookBE (buf : List UInt8) (ptr : ℤ) (n : ℕ) : Except Stop (ℕ × ℤ) :=
  look buf ptr (fun _ => n) (getBE n)

/-! ### The functions of the module -/

/-- What is printed. -/
structure Printed where
  stdout : List Char
  stderr : List Char
  deriving DecidableEq, Repr

namespace Printed

/-- One text behind the other. -/
def append (p q : Printed) : Printed := ⟨p.stdout ++ q.stdout, p.stderr ++ q.stderr⟩

/-- A text on the standard output. -/
def print (text : List Char) : Printed := ⟨text, []⟩

/-- A text on the standard error. -/
def report (text : List Char) : Printed := ⟨[], text⟩

@[simp] theorem print_append_print (s t : List Char) :
    (print s).append (print t) = print (s ++ t) := rfl

end Printed

open Printed

variable {O : LibOsc} (D : MessageGetters O) (F : FloatText) (verbose : Bool)

/-- The switch over the type of an argument: what is printed, and the bytes behind it. -/
def printArg (type : Char) (ptr : List UInt8) : List Char × List UInt8 :=
  match type with
  | 'i' =>
    let (i, ptr) := D.getInt32 ptr
    (' ' :: decimal i.toInt, ptr)
  | 'f' =>
    let (f, ptr) := D.getFloat ptr
    (' ' :: F.float f, ptr)
  | 's' =>
    let (s, ptr) := D.getString ptr
    (' ' :: '\'' :: s ++ ['\''], ptr)
  | 'b' =>
    let (b, ptr) := D.getBlob ptr
    (' ' :: '(' :: decimal b.length ++ ')' :: (if verbose then payloadText b else []), ptr)
  | 'h' =>
    let (h, ptr) := D.getInt64 ptr
    (' ' :: decimal h.toInt, ptr)
  | 'd' =>
    let (d, ptr) := D.getDouble ptr
    (' ' :: F.double d, ptr)
  | 't' =>
    let (t, ptr) := D.getTimetag ptr
    (' ' :: timetagText t, ptr)
  | 'S' =>
    -- a symbol is read as a string
    let (S, ptr) := D.getString ptr
    (' ' :: '\'' :: S ++ ['\''], ptr)
  | 'c' =>
    let (c, ptr) := D.getChar ptr
    (' ' :: charText c, ptr)
  | 'm' =>
    let (m, ptr) := D.getMidi ptr
    (' ' :: '[' :: hex 2 (m.getD 0 0).toNat ++ ',' :: hex 2 (m.getD 1 0).toNat ++
      ',' :: hex 2 (m.getD 2 0).toNat ++ ',' :: hex 2 (m.getD 3 0).toNat ++ [']'], ptr)
  | _ => ([], D.skip type ptr)

/-- The loop over the types of a format. -/
def printArgs (buf : List UInt8) : List Char → ℤ → Except Stop (List Char)
  | [], _ => .ok []
  | type :: fmt, ptr => do
    let (text, ptr) ← look buf ptr (D.extent type) (printArg D F verbose type)
    let rest ← printArgs buf fmt ptr
    return text ++ rest

/-- `_serialize_message`. It does not look at the length of the message. -/
def serializeMessage (buf : List UInt8) (buffer : ℤ) : Except Stop Printed := do
  let (path, ptr) ← look buf buffer D.pathExtent D.getPath
  let (fmt, ptr) ← look buf ptr D.fmtExtent D.getFmt
  let args ← printArgs D F verbose buf fmt ptr
  return print (' ' :: path ++ ' ' :: fmt ++ args ++ ['\n'])

/-- What stands in front of an element. -/
def elementText (indent : ℕ) (hsize : ℤ) : List Char := tabs indent ++ decimal hsize ++ [':']

/-- The text up to the elements of a bundle. -/
def headText (indent : ℕ) (timetag : UInt64) : List Char :=
  " #bundle ".toList ++ timetagText timetag ++ '\n' :: tabs indent ++ ['[', '\n']

/-- The text behind the elements of a bundle. -/
def closeText (indent : ℕ) : List Char := tabs indent ++ [']', '\n']

mutual

/-- `_serialize_bundle`. The end is a pointer like any other, so a negative length leads in front
of the buffer. -/
def serializeBundle (buf : List UInt8) :
    ℕ → (buffer len : ℤ) → (indent : ℕ) → Except Stop Printed
  | 0, _, _, _ => .error .rounds
  | rounds + 1, buffer, len, indent => do
    let (timetag, _) ← lookBE buf (buffer + 8) 8
    let elements ← serializeElements buf rounds (buffer + 16) (buffer + len) indent
    return (print (headText indent (UInt64.ofNat timetag))).append elements

/-- The loop of `_serialize_bundle` and what is behind it. -/
def serializeElements (buf : List UInt8) :
    ℕ → (ptr stop : ℤ) → (indent : ℕ) → Except Stop Printed
  | 0, _, _, _ => .error .rounds
  | rounds + 1, ptr, stop, indent =>
    if ptr < stop then do
      let (size, ptr) ← lookBE buf ptr 4
      let hsize := (UInt32.ofNat size).toInt32.toInt
      let (c, _) ← lookBE buf ptr 1
      if c = '#'.toNat then
        let inner ← serializeBundle buf rounds ptr hsize (indent + 1)
        let rest ← serializeElements buf rounds (ptr + hsize) stop indent
        return (print (elementText (indent + 1) hsize)).append (inner.append rest)
      else if c = '/'.toNat then
        let inner ← serializeMessage D F verbose buf ptr
        let rest ← serializeElements buf rounds (ptr + hsize) stop indent
        return (print (elementText (indent + 1) hsize)).append (inner.append rest)
      else
        -- the call returns here, without a closing bracket
        return report ("dump: not an OSC bundle item '".toList ++ Char.ofNat c :: ['\'', '\n'])
    else
      return print (closeText indent)

end

/-- `_serialize_packet`, with the checks of libosc. -/
def serializePacket (checkBundle checkMessage : List UInt8 → Bool) (rounds : ℕ) (time : NFrames)
    (buf : List UInt8) : Except Stop Printed := do
  let (c, _) ← lookBE buf 0 1
  let text := hex 8 time.toNat ++ ' ' ::
    (let size := decimal buf.length; List.replicate (4 - size.length) ' ' ++ size) ++ [':']
  let packet ←
    if c = '#'.toNat then
      if checkBundle buf then serializeBundle D F verbose buf rounds 0 buf.length 0
      else .ok (report "dump: tx OSC bundle invalid\n".toList)
    else if c = '/'.toNat then
      if checkMessage buf then serializeMessage D F verbose buf 0
      else .ok (report "dump: tx OSC message invalid\n".toList)
    else .ok (report "dump: tx OSC packet invalid\n".toList)
  return (print text).append packet

/-! ### The text of a packet -/

variable (O) in
mutual

/-- **The packets of the standard**: a path begins with a slash, the values are those that an
encoding holds, and the size of an element fits into its four bytes. -/
def WellFormed : OscPacket → Prop
  | .message path args =>
    (IsCString path ∧ path.head? = some '/') ∧ ∀ a ∈ args, ∀ item ∈ a.item, item.Valid
  | .bundle _ elements => WellFormedAll elements

/-- The elements of a bundle. -/
def WellFormedAll : List OscPacket → Prop
  | [] => True
  | p :: ps => (WellFormed p ∧ (p.encode O).length < 2 ^ 31) ∧ WellFormedAll ps

end

/-- The text of an argument. -/
def argText : OscArg → List Char
  | .int32 i => ' ' :: decimal i.toInt
  | .float f => ' ' :: F.float f
  | .string s | .symbol s => ' ' :: '\'' :: s ++ ['\'']
  | .blob b => ' ' :: '(' :: decimal b.length ++ ')' :: (if verbose then payloadText b else [])
  | .int64 h => ' ' :: decimal h.toInt
  | .double d => ' ' :: F.double d
  | .timetag t => ' ' :: timetagText t
  | .char c => ' ' :: charText c
  | .midi m => ' ' :: '[' :: hex 2 (m.getD 0 0).toNat ++ ',' :: hex 2 (m.getD 1 0).toNat ++
      ',' :: hex 2 (m.getD 2 0).toNat ++ ',' :: hex 2 (m.getD 3 0).toNat ++ [']']
  -- the types without a payload are seen in the format only
  | .true | .false | .bang | .nil => []

variable (O) in
mutual

/-- The text of a packet inside of `indent` bundles. -/
def render (indent : ℕ) : OscPacket → List Char
  | .message path args =>
    ' ' :: path ++ ' ' :: OscPacket.fmt args ++ args.flatMap (argText F verbose) ++ ['\n']
  | .bundle timetag elements =>
    headText indent timetag ++ renderAll (indent + 1) elements ++ closeText indent

/-- The text of the elements of a bundle, each behind its size. -/
def renderAll (indent : ℕ) : List OscPacket → List Char
  | [] => []
  | p :: ps => elementText indent (p.encode O).length ++ render indent p ++ renderAll indent ps

end

/-! ### Reading an encoding -/

/-- **A getter reads what is encoded at its pointer**, and no other bytes. -/
theorem look_append {α : Type} {buf front bytes rest : List UInt8} {extent : List UInt8 → ℕ}
    {get : List UInt8 → α × List UInt8} {x : α} (hbuf : buf = front ++ bytes ++ rest)
    (hextent : extent (bytes ++ rest) ≤ bytes.length) (hget : get (bytes ++ rest) = (x, rest)) :
    look buf front.length extent get = .ok (x, (front ++ bytes).length) := by
  have hdrop : buf.drop (front.length : ℤ).toNat = bytes ++ rest := by
    rw [Int.toNat_natCast, hbuf, List.append_assoc, List.drop_left]
  have hlen : buf.length = front.length + bytes.length + rest.length := by
    rw [hbuf, List.length_append, List.length_append]
  unfold look
  dsimp only
  rw [hdrop, hget, if_pos ⟨by omega, by omega⟩]
  congr 2
  rw [List.length_append, List.length_append]
  push_cast
  ring

/-- A number in its place. -/
theorem lookBE_append {buf front rest : List UInt8} {n x : ℕ}
    (hbuf : buf = front ++ Bytes.toBE n x ++ rest) (hx : x < 256 ^ n) :
    lookBE buf front.length n = .ok (x, (front ++ Bytes.toBE n x).length) :=
  look_append hbuf (Bytes.length_toBE n x).ge (getBE_toBE hx rest)

/-- The first byte of an encoding. -/
theorem lookBE_head {buf front word bytes rest : List UInt8} {b : UInt8}
    (hbuf : buf = front ++ word ++ rest) (hword : word = b :: bytes) :
    ∃ ptr, lookBE buf front.length 1 = .ok (b.toNat, ptr) := by
  have hbyte : Bytes.toBE 1 b.toNat = [b] := by
    have hb := Bytes.toBE_ofBE [b]
    simpa [Bytes.ofBE, Bytes.ofLE] using hb
  have hsplit : buf = front ++ Bytes.toBE 1 b.toNat ++ (bytes ++ rest) := by
    rw [hbyte, hbuf, hword]
    simp
  exact ⟨_, lookBE_append hsplit b.toNat_lt⟩

/-- **The printer and the encoding are in step** at every type. -/
theorem printArg_bytes {a : OscArg} (ha : ∀ item ∈ a.item, item.Valid) (rest : List UInt8) :
    printArg D F verbose a.type (a.bytes O ++ rest) = (argText F verbose a, rest) := by
  have hvalid : ∀ item, a.item = some item → item.Valid := fun item h => ha item h
  cases a with
  | int32 i => simp only [OscArg.bytes, OscArg.item, OscArg.type, printArg, D.getInt32_encode, argText]
  | float f => simp only [OscArg.bytes, OscArg.item, OscArg.type, printArg, D.getFloat_encode, argText]
  | string s =>
    simp only [OscArg.bytes, OscArg.item, OscArg.type, printArg, argText,
      D.getString_encode s rest (hvalid _ rfl)]
  | blob b =>
    simp only [OscArg.bytes, OscArg.item, OscArg.type, printArg, argText,
      D.getBlob_encode b rest (hvalid _ rfl)]
  | int64 h => simp only [OscArg.bytes, OscArg.item, OscArg.type, printArg, D.getInt64_encode, argText]
  | double d =>
    simp only [OscArg.bytes, OscArg.item, OscArg.type, printArg, D.getDouble_encode, argText]
  | timetag t =>
    simp only [OscArg.bytes, OscArg.item, OscArg.type, printArg, D.getTimetag_encode, argText]
  | symbol s =>
    -- the getter of strings is used, which the common encoding allows
    simp only [OscArg.bytes, OscArg.item, OscArg.type, printArg, argText, D.encode_symbol,
      D.getString_encode s rest (hvalid _ rfl)]
  | char c => simp only [OscArg.bytes, OscArg.item, OscArg.type, printArg, D.getChar_encode, argText]
  | midi m =>
    simp only [OscArg.bytes, OscArg.item, OscArg.type, printArg, argText,
      D.getMidi_encode m rest (hvalid _ rfl)]
  | true => exact congrArg (Prod.mk []) (D.skip_empty 'T' (by decide) rest)
  | false => exact congrArg (Prod.mk []) (D.skip_empty 'F' (by decide) rest)
  | bang => exact congrArg (Prod.mk []) (D.skip_empty 'I' (by decide) rest)
  | nil => exact congrArg (Prod.mk []) (D.skip_empty 'N' (by decide) rest)

/-- The arguments of a message, one behind the other. -/
theorem printArgs_bytes {args : List OscArg} (hargs : ∀ a ∈ args, ∀ item ∈ a.item, item.Valid)
    {buf front rest : List UInt8} (hbuf : buf = front ++ args.flatMap (OscArg.bytes O) ++ rest) :
    printArgs D F verbose buf (OscPacket.fmt args) front.length =
      .ok (args.flatMap (argText F verbose)) := by
  induction args generalizing front with
  | nil => rfl
  | cons a args ih =>
    rw [List.flatMap_cons, ← List.append_assoc] at hbuf
    have ha := hargs a List.mem_cons_self
    have hrest := ih (fun b hb => hargs b (List.mem_cons_of_mem a hb)) hbuf
    rw [List.append_assoc] at hbuf
    have hlook := look_append hbuf (D.extent_encode a _ ha)
      (printArg_bytes D F verbose ha _)
    change printArgs D F verbose buf (a.type :: OscPacket.fmt args) _ = _
    unfold printArgs
    simp only [hlook, hrest, bind, Except.bind, pure, Except.pure, List.flatMap_cons]

/-- The types of a format are characters of one byte. -/
theorem isCString_fmt (args : List OscArg) : IsCString (OscPacket.fmt args) := by
  intro c hc
  obtain ⟨a, _, rfl⟩ := List.mem_map.mp hc
  cases a <;> simp [OscArg.type]

/-- **A message** is printed with its path, its format and all its arguments. -/
theorem serializeMessage_encode {path : List Char} {args : List OscArg}
    (hp : WellFormed O (.message path args)) {buf front rest : List UInt8}
    (hbuf : buf = front ++ (OscPacket.message path args).encode O ++ rest) (indent : ℕ) :
    serializeMessage D F verbose buf front.length =
      .ok (print (render O F verbose indent (.message path args))) := by
  obtain ⟨⟨hpath, -⟩, hargs⟩ := hp
  have hfmt := isCString_fmt args
  -- the three parts of the message, each behind those in front of it
  have hbuf₁ : buf = front ++ O.encode (.path path) ++
      (O.encode (.fmt (OscPacket.fmt args)) ++ (args.flatMap (OscArg.bytes O) ++ rest)) := by
    rw [hbuf, OscPacket.encode]
    simp only [List.append_assoc]
  have hbuf₂ : buf = front ++ O.encode (.path path) ++ O.encode (.fmt (OscPacket.fmt args)) ++
      (args.flatMap (OscArg.bytes O) ++ rest) := by
    rw [hbuf₁]
    simp only [List.append_assoc]
  have hbuf₃ : buf = front ++ O.encode (.path path) ++ O.encode (.fmt (OscPacket.fmt args)) ++
      args.flatMap (OscArg.bytes O) ++ rest := by
    rw [hbuf₂]
    simp only [List.append_assoc]
  have hlookPath := look_append hbuf₁ (D.pathExtent_encode path _ hpath)
    (D.getPath_encode path _ hpath)
  have hlookFmt := look_append hbuf₂ (D.fmtExtent_encode _ _ hfmt) (D.getFmt_encode _ _ hfmt)
  have hprint := printArgs_bytes D F verbose hargs hbuf₃
  unfold serializeMessage
  simp only [hlookPath, hlookFmt, hprint, bind, Except.bind, pure, Except.pure, render]

/-! ### The walk over a bundle -/

/-- The size in front of an element is read as it has been written. -/
theorem toInt_size {n : ℕ} (hn : n < 2 ^ 31) : (UInt32.ofNat n).toInt32.toInt = n := by
  have htoNat : (UInt32.ofNat n).toNat = n := by
    rw [UInt32.toNat_ofNat']
    omega
  rw [UInt32.toInt32, Int32.toInt, BitVec.toInt_eq_toNat_of_lt]
  · exact congrArg Nat.cast htoNat
  · change 2 * (UInt32.ofNat n).toNat < 2 ^ 32
    omega

/-- A slash or a hash. -/
def headByte : OscPacket → UInt8
  | .message _ _ => 47
  | .bundle _ _ => 35

/-- An element begins with a slash if it is a message, and with a hash if it is a bundle. -/
theorem encode_head (D : MessageGetters O) {p : OscPacket} (hp : WellFormed O p) :
    ∃ bytes, p.encode O = headByte p :: bytes := by
  cases p with
  | message path args =>
    obtain ⟨⟨-, hhead⟩, -⟩ := hp
    obtain ⟨path, rfl⟩ : ∃ s, path = '/' :: s := by
      cases path with
      | nil => exact absurd hhead (by simp)
      | cons c s => exact ⟨s, by rw [Option.some.inj hhead]⟩
    obtain ⟨bytes, hbytes⟩ := D.encode_path_cons '/' path
    refine ⟨bytes ++ (O.encode (.fmt (OscPacket.fmt args)) ++ args.flatMap (OscArg.bytes O)), ?_⟩
    rw [OscPacket.encode, hbytes, List.append_assoc]
    rfl
  | bundle timetag elements =>
    refine ⟨[98, 117, 110, 100, 108, 101, 0] ++ Bytes.toBE 8 timetag.toNat ++
      OscPacket.encodeAll O elements, ?_⟩
    rw [OscPacket.encode, bundleHeader]
    rfl

mutual

/-- **A bundle.** Its header is 16 bytes, and the loop starts behind it. -/
theorem serializeBundle_append (p : OscPacket) (hp : WellFormed O p)
    (hbundle : ∃ timetag elements, p = .bundle timetag elements)
    {buf front rest : List UInt8} (hbuf : buf = front ++ p.encode O ++ rest) {rounds : ℕ}
    (hrounds : (p.encode O).length ≤ rounds) (indent : ℕ) :
    serializeBundle D F verbose buf rounds front.length (p.encode O).length indent =
      .ok (print (render O F verbose indent p)) := by
  match p, hp with
  | .message _ _, _ =>
    obtain ⟨_, _, h⟩ := hbundle
    exact absurd h (by simp)
  | .bundle timetag elements, hp =>
    have hlen : ((OscPacket.bundle timetag elements).encode O).length =
        16 + (OscPacket.encodeAll O elements).length := by
      rw [OscPacket.encode, List.length_append, length_bundleHeader]
    obtain ⟨rounds, rfl⟩ : ∃ n, rounds = n + 1 := ⟨rounds - 1, by omega⟩
    rw [OscPacket.encode] at hbuf
    -- the timetag is eight bytes behind the beginning
    have hname : buf = front ++ [35, 98, 117, 110, 100, 108, 101, 0] ++ Bytes.toBE 8 timetag.toNat ++
        (OscPacket.encodeAll O elements ++ rest) := by
      rw [hbuf, bundleHeader]
      simp only [List.append_assoc]
    have hlook := lookBE_append hname timetag.toNat_lt
    have hfront : ((front ++ [35, 98, 117, 110, 100, 108, 101, 0]).length : ℤ) =
        front.length + 8 := by
      rw [List.length_append]
      rfl
    rw [hfront] at hlook
    -- the elements are behind the header, and end where the bundle does
    have helements : buf = front ++ bundleHeader timetag ++ OscPacket.encodeAll O elements ++
        rest := by
      rw [hbuf]
      simp only [List.append_assoc]
    have hleft : (OscPacket.encodeAll O elements).length < rounds := by omega
    have hloop := serializeElements_append elements hp helements hleft indent
    have hptr : ((front ++ bundleHeader timetag).length : ℤ) = front.length + 16 := by
      rw [List.length_append, length_bundleHeader]
      rfl
    have hstop : ((front ++ bundleHeader timetag ++ OscPacket.encodeAll O elements).length : ℤ) =
        front.length + ((OscPacket.bundle timetag elements).encode O).length := by
      rw [List.length_append, Nat.cast_add, hptr, hlen]
      push_cast
      ring
    rw [hptr, hstop] at hloop
    unfold serializeBundle
    simp only [hlook, hloop, bind, Except.bind, pure, Except.pure, render, UInt64.ofNat_toNat,
      print_append_print, List.append_assoc]

/-- **The loop over the elements.** The pointer is behind the elements that have been printed, and
the end is behind the last one. -/
theorem serializeElements_append (ps : List OscPacket) (hps : WellFormedAll O ps)
    {buf front rest : List UInt8} (hbuf : buf = front ++ OscPacket.encodeAll O ps ++ rest)
    {rounds : ℕ} (hrounds : (OscPacket.encodeAll O ps).length < rounds) (indent : ℕ) :
    serializeElements D F verbose buf rounds front.length
        (front ++ OscPacket.encodeAll O ps).length indent =
      .ok (print (renderAll O F verbose (indent + 1) ps ++ closeText indent)) := by
  obtain ⟨rounds, rfl⟩ : ∃ n, rounds = n + 1 := ⟨rounds - 1, by omega⟩
  match ps, hps with
  | [], _ =>
    have hstop : ¬ ((front.length : ℤ) < (front ++ OscPacket.encodeAll O []).length) := by
      simp [OscPacket.encodeAll]
    unfold serializeElements
    rw [if_neg hstop]
    rfl
  | p :: ps, ⟨⟨hp, hsize⟩, hps⟩ =>
    obtain ⟨bytes, hhead⟩ := encode_head D hp
    have hlen : (OscPacket.encodeAll O (p :: ps)).length =
        4 + (p.encode O).length + (OscPacket.encodeAll O ps).length := by
      rw [OscPacket.encodeAll, List.length_append, List.length_append, length_itemSize]
    rw [OscPacket.encodeAll] at hbuf
    have hlt : (front.length : ℤ) < (front ++ OscPacket.encodeAll O (p :: ps)).length := by
      rw [List.length_append, hlen]
      omega
    -- the size, the element behind it, and the elements that follow
    have hbuf₁ : buf = front ++ Bytes.toBE 4 (p.encode O).length ++
        (p.encode O ++ (OscPacket.encodeAll O ps ++ rest)) := by
      rw [hbuf, itemSize]
      simp only [List.append_assoc]
    have hbuf₂ : buf = front ++ Bytes.toBE 4 (p.encode O).length ++ p.encode O ++
        (OscPacket.encodeAll O ps ++ rest) := by
      rw [hbuf₁]
      simp only [List.append_assoc]
    have hbuf₃ : buf = front ++ Bytes.toBE 4 (p.encode O).length ++ p.encode O ++
        OscPacket.encodeAll O ps ++ rest := by
      rw [hbuf₂]
      simp only [List.append_assoc]
    have hlook := lookBE_append hbuf₁ (hsize.trans (by decide))
    have hnext : ((front ++ Bytes.toBE 4 (p.encode O).length).length : ℤ) + (p.encode O).length =
        (front ++ Bytes.toBE 4 (p.encode O).length ++ p.encode O).length := by
      rw [@List.length_append _ (front ++ _), Nat.cast_add]
    have hstop : (front ++ OscPacket.encodeAll O (p :: ps)).length =
        (front ++ Bytes.toBE 4 (p.encode O).length ++ p.encode O ++
          OscPacket.encodeAll O ps).length := by
      rw [OscPacket.encodeAll, itemSize]
      simp only [List.append_assoc]
    -- every round has taken at least the size of an element
    have hleft : (OscPacket.encodeAll O ps).length < rounds := by omega
    have hloop := serializeElements_append ps hps hbuf₃ hleft indent
    unfold serializeElements
    rw [if_pos hlt, hstop]
    cases p with
    | message path args =>
      obtain ⟨_, hchar⟩ := lookBE_head hbuf₂ hhead
      have hmessage := serializeMessage_encode D F verbose hp hbuf₂ (indent + 1)
      simp only [hlook, hchar, headByte, bind, Except.bind, pure, Except.pure, toInt_size hsize, hnext]
      rw [if_neg (by decide), if_pos (by decide), hmessage, hloop]
      simp only [print_append_print, renderAll, List.append_assoc]
    | bundle timetag elements =>
      obtain ⟨_, hchar⟩ := lookBE_head hbuf₂ hhead
      have henough : ((OscPacket.bundle timetag elements).encode O).length ≤ rounds := by omega
      have hinner := serializeBundle_append (.bundle timetag elements) hp ⟨_, _, rfl⟩ hbuf₂ henough
        (indent + 1)
      simp only [hlook, hchar, headByte, bind, Except.bind, pure, Except.pure, toInt_size hsize, hnext]
      rw [if_pos (by decide), hinner, hloop]
      simp only [print_append_print, renderAll, List.append_assoc]

end

/-- **Dump walks the bundle tree.** For the encoding of a bundle, as many rounds as it has bytes are
enough, no other bytes are read, and what is printed is its text. -/
theorem serializeBundle_encode {timetag : UInt64} {elements : List OscPacket}
    (hp : WellFormed O (.bundle timetag elements)) {rounds : ℕ}
    (hrounds : ((OscPacket.bundle timetag elements).encode O).length ≤ rounds) (indent : ℕ) :
    serializeBundle D F verbose ((OscPacket.bundle timetag elements).encode O) rounds 0
        ((OscPacket.bundle timetag elements).encode O).length indent =
      .ok ⟨render O F verbose indent (.bundle timetag elements), []⟩ := by
  have hbuf : (OscPacket.bundle timetag elements).encode O =
      [] ++ (OscPacket.bundle timetag elements).encode O ++ [] := by
    rw [List.nil_append, List.append_nil]
  exact serializeBundle_append D F verbose _ hp ⟨_, _, rfl⟩ hbuf hrounds indent

/-- The number of a packet's bytes is enough for the rounds of a packet that libosc accepts, and its
text is behind its time and its size. -/
theorem serializePacket_encode {checkBundle checkMessage : List UInt8 → Bool} {p : OscPacket}
    (hp : WellFormed O p)
    (hbundle : checkBundle (p.encode O) = true) (hmessage : checkMessage (p.encode O) = true)
    (time : NFrames) :
    ∃ head, serializePacket D F verbose checkBundle checkMessage (p.encode O).length time
        (p.encode O) = .ok ⟨head ++ render O F verbose 0 p, []⟩ := by
  obtain ⟨bytes, hhead⟩ := encode_head D hp
  have hbuf : p.encode O = [] ++ p.encode O ++ [] := by rw [List.nil_append, List.append_nil]
  obtain ⟨_, hchar⟩ := lookBE_head hbuf hhead
  change lookBE _ 0 1 = _ at hchar
  unfold serializePacket
  rw [hchar]
  simp only [bind, Except.bind, hbundle, hmessage, if_true]
  cases p with
  | message path args =>
    rw [if_neg (by rw [headByte]; decide), if_pos (by rw [headByte]; decide)]
    have hprint := serializeMessage_encode D F verbose hp hbuf 0
    change serializeMessage D F verbose _ 0 = _ at hprint
    rw [hprint]
    exact ⟨_, rfl⟩
  | bundle timetag elements =>
    rw [if_pos (by rw [headByte]; decide), serializeBundle_encode D F verbose hp le_rfl 0]
    exact ⟨_, rfl⟩

/-! ### Plain getters -/

/-- A string, its end and its padding. -/
def paddedExtent (ptr : List UInt8) : ℕ :=
  let n := (ptr.takeWhile (· ≠ 0)).length
  n + (4 - n % 4)

theorem paddedExtent_oscPad {s : List Char} (hs : IsCString s) (rest : List UInt8) :
    paddedExtent (oscPad s ++ rest) = (oscPad s).length := by
  have hget := congrArg (fun r => r.1.length) (getPadded_oscPad hs rest)
  simp only [getPadded, List.length_map] at hget
  unfold paddedExtent
  dsimp only
  rw [hget]
  simp [oscPad]

/-- A format with its comma. -/
theorem isCString_comma {s : List Char} (hs : IsCString s) : IsCString (',' :: s) := by
  intro c hc
  obtain rfl | hc := List.mem_cons.mp hc
  · decide
  · exact hs c hc

/-- The bytes that the plain getter for a type looks at. -/
def plainExtent (type : Char) (ptr : List UInt8) : ℕ :=
  if type ∈ ['i', 'f', 'c', 'm'] then 4
  else if type ∈ ['h', 'd', 't'] then 8
  else if type ∈ ['s', 'S'] then paddedExtent ptr
  else if type = 'b' then 4 + (getBE 4 ptr).1 + (4 - (getBE 4 ptr).1 % 4) % 4
  else 0

/-- No getter looks behind what it reads. -/
theorem plainExtent_le {a : OscArg} (rest : List UInt8) (ha : ∀ item ∈ a.item, item.Valid) :
    plainExtent a.type (a.bytes LibOsc.plain ++ rest) ≤ (a.bytes LibOsc.plain).length := by
  cases a with
  | string s => exact (paddedExtent_oscPad (ha _ rfl) rest).le
  | symbol s => exact (paddedExtent_oscPad (ha _ rfl) rest).le
  | blob b =>
    have hb : b.length < 2 ^ 31 := ha _ rfl
    have hsize : (getBE 4 ((OscItem.blob b).plain ++ rest)).1 = b.length := by
      simp only [OscItem.plain, List.append_assoc]
      rw [getBE_toBE (n := 4) (x := b.length) (by omega)]
    change 4 + (getBE 4 ((OscItem.blob b).plain ++ rest)).1 +
      (4 - (getBE 4 ((OscItem.blob b).plain ++ rest)).1 % 4) % 4 ≤ (OscItem.blob b).plain.length
    rw [hsize]
    simp [OscItem.plain, Nat.add_assoc]
  | midi m => exact (ha _ rfl : m.length = 4).ge
  | _ => simp [plainExtent, OscArg.type, OscArg.bytes, OscArg.item, LibOsc.plain, OscItem.plain]

/-- A path begins with its first character. -/
theorem oscPad_cons (c : Char) (s : List Char) : oscPad (c :: s) = UInt8.ofNat c.toNat ::
    (s.map (fun c => UInt8.ofNat c.toNat) ++ List.replicate (4 - (c :: s).length % 4) 0) := rfl

/-- A format, without the comma that its encoding begins with. -/
def plainFmt (ptr : List UInt8) : List Char × List UInt8 :=
  ((getPadded ptr).1.tail, (getPadded ptr).2)

theorem plainFmt_oscPad {s : List Char} (hs : IsCString s) (rest : List UInt8) :
    plainFmt (oscPad (',' :: s) ++ rest) = (s, rest) := by
  unfold plainFmt
  rw [getPadded_oscPad (isCString_comma hs) rest]
  rfl

/-- The getters of the plain encodings. -/
def plainGetters : MessageGetters LibOsc.plain where
  toOscGetters := OscGetters.plain
  getPath := getPadded
  getFmt := plainFmt
  skip _ ptr := ptr
  pathExtent := paddedExtent
  fmtExtent := paddedExtent
  extent := plainExtent
  getPath_encode _ rest hs := getPadded_oscPad hs rest
  getFmt_encode _ rest hs := plainFmt_oscPad hs rest
  skip_empty _ _ _ := rfl
  pathExtent_encode _ rest hs := (paddedExtent_oscPad hs rest).le
  fmtExtent_encode _ rest hs := (paddedExtent_oscPad (isCString_comma hs) rest).le
  extent_encode _ rest ha := plainExtent_le rest ha
  encode_path_cons c s := ⟨_, oscPad_cons c s⟩
  encode_symbol _ := rfl

/-- A bundle with a message and a bundle in it. -/
def nested : List OscPacket :=
  [.message "/a".toList [.int32 5, .true],
    .bundle 2 [.message "/b".toList [.string "x".toList, .midi [0, 144, 60, 127]]]]

/-- The text of a bundle inside of another. -/
theorem serializeBundle_encode_nested :
    ((OscPacket.bundle 1 nested).encode LibOsc.plain).length = 72 ∧
      serializeBundle plainGetters ⟨fun _ => [], fun _ => []⟩ false
          ((OscPacket.bundle 1 nested).encode LibOsc.plain) 72 0
          ((OscPacket.bundle 1 nested).encode LibOsc.plain).length 0 =
        .ok ⟨" #bundle 00000000.00000001\n[\n".toList ++ "\t12: /a iT 5\n".toList ++
          "\t36: #bundle 00000000.00000002\n\t[\n".toList ++
          "\t\t16: /b sm 'x' [00,90,3C,7F]\n".toList ++ "\t]\n]\n".toList, []⟩ := by
  have hlen : ((OscPacket.bundle 1 nested).encode LibOsc.plain).length = 72 := by decide +kernel
  have hp : WellFormed LibOsc.plain (.bundle 1 nested) := by
    have hsize₁ : ((OscPacket.message "/a".toList [.int32 5, .true]).encode LibOsc.plain).length <
      2 ^ 31 := by decide +kernel
    have hsize₂ : ((OscPacket.message "/b".toList
        [.string "x".toList, .midi [0, 144, 60, 127]]).encode LibOsc.plain).length < 2 ^ 31 := by
      decide +kernel
    have hsize₃ : ((OscPacket.bundle 2 [.message "/b".toList
        [.string "x".toList, .midi [0, 144, 60, 127]]]).encode LibOsc.plain).length < 2 ^ 31 := by
      decide +kernel
    refine ⟨⟨⟨⟨by decide, rfl⟩, ?_⟩, hsize₁⟩, ⟨⟨⟨⟨⟨by decide, rfl⟩, ?_⟩, hsize₂⟩, trivial⟩, hsize₃⟩,
      trivial⟩
    · simp [OscArg.item, OscItem.Valid]
    · simp [OscArg.item, OscItem.Valid, IsCString]
  refine ⟨hlen, (serializeBundle_encode plainGetters ⟨fun _ => [], fun _ => []⟩ false hp
    hlen.le 0).trans ?_⟩
  rfl

end Dump

end Tjost
