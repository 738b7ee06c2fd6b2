import Mathlib.Data.List.TakeWhile
import Tjost.Library.CString
import Tjost.Lua.Serialize

/-!
# The console

`mod_send` reads lines from a terminal. `recv` is `_tty_recv_cb`, which makes a message of
a chunk: a path, a format and one token for each argument, with blanks in between. It works
on the memory from `dat->line` on, which `dat->buffer` follows. Each token is terminated
where it ends, and the message is written into `dat->buffer`.

The scan for the end of a token does not look at the end of the chunk. `parse` is what the
parser makes of a chunk if it does not need to: a function of the bytes of the chunk only.

`isolated_iff`: the outcome depends on the chunk only, and nothing behind it is
touched, if and only if every token that the parser reads ends in the chunk (`Ends`).
-/

open ByteMemory

namespace Tjost.Console

/-- `sizeof(dat->line)`. -/
def lineSize : ℕ := 1024

/-- `isprint`, in the C locale. -/
def isPrint (b : UInt8) : Bool := 0x20 ≤ b && b ≤ 0x7e

/-- `isspace`, in the C locale. -/
def isSpace (b : UInt8) : Bool := b == 0x20 || (0x09 ≤ b && b ≤ 0x0d)

/-- The bytes of a token. -/
def isToken (b : UInt8) : Bool := isPrint b && b != 0x20

def charOf (b : UInt8) : Char := Char.ofNat b.toNat

def chars (bs : List UInt8) : List Char := bs.map charOf

/-- What is printed to `stderr`. -/
def report (text : String) : String := "send: " ++ text ++ "\n"

/-! ### The parts from elsewhere -/

/-- `sscanf`, for each of the formats: its answer, and what is then in the variables, by the
string and what they held. -/
structure Sscanf where
  int32 : List UInt8 → Int32 → ℤ × Int32
  float : List UInt8 → UInt32 → ℤ × UInt32
  hex8 : List UInt8 → UInt8 → ℤ × UInt8
  int64 : List UInt8 → Int64 → ℤ × Int64
  double : List UInt8 → UInt64 → ℤ × UInt64
  hex32Pair : List UInt8 → UInt32 × UInt32 → ℤ × UInt32 × UInt32
  hex8Four : List UInt8 → List UInt8 → ℤ × List UInt8

/-- What the variables of the switch hold before they are assigned. -/
structure Locals where
  i : Int32
  f : UInt32
  h : Int64
  d : UInt64
  sec : UInt32
  frac : UInt32
  m : List UInt8

structure Environment where
  osc : LibOsc
  /-- `osc_check_message`. -/
  checkMessage : List UInt8 → Bool
  sscanf : Sscanf
  /-- By the position of the type. -/
  locals : ℕ → Locals
  /-- Where the memory ends that `dat->line` begins. -/
  mapped : ℕ
  lineSize_le : lineSize + bufSize ≤ mapped

/-! ### The arguments -/

/-- The types with a token. -/
def takesToken (type : Char) : Bool := type != 'T' && type != 'F' && type != 'N' && type != 'I'

/-- The types whose case reads `cur`. -/
def converts (type : Char) : Bool :=
  type ∈ ['i', 'f', 's', 'b', 'h', 'd', 't', 'S', 'c', 'm']

def mismatch (type : Char) : String := report ("type mismatch at '" ++ type.toString ++ "'")

/-- A value that `sscanf` has converted. Any answer but `0` counts, also `EOF`. -/
def converted {α : Type} (type : Char) (item : α → OscItem) (r : ℤ × α) :
    Option OscItem × List String :=
  if r.1 ≠ 0 then (some (item r.2), []) else (none, [mismatch type])

variable (S : Sscanf) (v : Locals)

/-- The payload of a blob, from two digits each. It is cleared before. -/
def convertBlob (cur : List UInt8) : Option OscItem × List String :=
  let payload := (List.range (cur.length / 2)).map fun i => S.hex8 (cur.drop (2 * i)) 0
  (some (.blob (payload.map Prod.snd)),
    (payload.filter fun r => r.1 = 0).map fun _ => mismatch 'b')

/-- The switch over the types: the setter that is called, and what is reported. -/
def convert (type : Char) (cur : List UInt8) : Option OscItem × List String :=
  match type with
  | 'i' => converted type .int32 (S.int32 cur v.i)
  | 'f' => converted type .float (S.float cur v.f)
  | 's' => (some (.string (chars cur)), [])
  | 'b' => convertBlob S cur
  | 'h' => converted type .int64 (S.int64 cur v.h)
  | 'd' => converted type .double (S.double cur v.d)
  | 't' =>
    converted type (fun x => .timetag (x.1.toUInt64 <<< (32 : UInt64) ||| x.2.toUInt64))
      (S.hex32Pair cur (v.sec, v.frac))
  | 'S' => (some (.symbol (chars cur)), [])
  | 'c' => (some (.char (cur.headD 0).toInt8), [])
  | 'm' => converted type .midi (S.hex8Four cur v.m)
  | _ => (none, [])

/-! ### The parser -/

/-- The variables of the parser. -/
structure Parser where
  /-- From `dat->line` on. -/
  mem : ByteMemory.Memory
  /-- In `dat->buffer`. -/
  ptr : Option ℕ
  cur : ℕ
  /-- `end`. -/
  stop : ℕ
  reports : List String
  /-- Ghost: where the scans for tokens have ended and put a terminator. -/
  scans : List ℕ

/-- What becomes of a chunk. -/
structure Decision where
  /-- What is passed to `tjost_pipe_produce`. -/
  message : Option (List UInt8)
  reports : List String
  deriving DecidableEq

variable (E : Environment) (nread : ℕ)

namespace Parser

/-- `dat->buffer`. -/
def buffer (s : Parser) : ByteMemory.Memory := fun i => s.mem (lineSize + i)

/-- A setter call. The string of an item is read before. -/
def set (item : OscItem) (s : Parser) : Parser :=
  let (buffer, ptr) := E.osc.set item s.buffer s.ptr
  { s with mem := fun a => if a < lineSize then s.mem a else buffer (a - lineSize), ptr }

/-- The string at `p`. -/
def string (s : Parser) (p : ℕ) : Option (List UInt8) := cString s.mem (E.mapped - p) p

/-- A token, with its terminator. -/
def token (s : Parser) : Option Parser :=
  (scanWhile isToken s.mem (E.mapped - s.stop) s.stop).map fun e =>
    { s with mem := write s.mem e [0], cur := s.stop, stop := e + 1, scans := s.scans ++ [e] }

/-- Skip whitespace. -/
def skip (s : Parser) : Parser :=
  { s with stop := skipWhile isSpace s.mem (nread - s.stop) s.stop }

def tell (reports : List String) (s : Parser) : Parser :=
  { s with reports := s.reports ++ reports }

/-- The token of an argument, or the report that it is missing. -/
def fetch (type : Char) (s : Parser) : Option Parser :=
  if takesToken type then
    (if s.stop < nread then s.token E
      else some (s.tell [report ("argument '" ++ type.toString ++ "' missing")])).map
        (skip nread)
  else some s

/-- The switch. -/
def argument (k : ℕ) (type : Char) (s : Parser) : Option Parser :=
  if converts type then
    -- `cur` is still that of the token before if there was none
    (s.string E s.cur).map fun cur =>
      let (item, reports) := convert E.sscanf (E.locals k) type cur
      ((match item with
        | some item => s.set E item
        | none => s).tell reports)
  else some s

/-- The loop over the types, which are at `p`. -/
def arguments : ℕ → ℕ → ℕ → Parser → Option Parser
  | 0, _, _, _ => none
  | fuel + 1, k, p, s =>
    if s.mem p = 0 then some s
    else
      -- the token goes first, then the type is looked at
      (s.fetch E nread (charOf (s.mem p))).bind fun t =>
        (t.argument E k (charOf (s.mem p))).bind fun u => arguments fuel (k + 1) (p + 1) u

/-- The end of the parser: the message is checked. -/
def finish (s : Parser) : Decision × List ℕ :=
  match s.ptr with
  | some len =>
    if E.checkMessage (read s.buffer 0 len) then
      (⟨some (read s.buffer 0 len), s.reports⟩, s.scans)
    else (⟨none, s.reports ++ [report "rx OSC message invalid"]⟩, s.scans)
  | none => (⟨none, s.reports ++ [report "rx OSC message invalid"]⟩, s.scans)

def refuse (text : String) (s : Parser) : Decision × List ℕ :=
  (⟨none, s.reports ++ [report text]⟩, s.scans)

/-- From the format on. `fmt` is where it is, or `none` for the literal `""`. -/
def body (fmt : Option ℕ) (s : Parser) : Option (Decision × List ℕ) :=
  ((fmt.map (s.string E)).getD (some [])).bind fun bs =>
    if E.osc.checkFmt (chars bs) = false then
      some (s.refuse ("invalid format: " ++ String.ofList (chars bs)))
    else
      let t := (s.set E (.fmt (chars bs))).skip nread
      (match fmt with
        | some p => t.arguments E nread (E.mapped - p) 0 p
        | none => some t).map (finish E)

/-- From the path on. -/
def rest (s : Parser) : Option (Decision × List ℕ) :=
  (s.string E s.cur).bind fun path =>
    if E.osc.checkPath (chars path) = false then
      some (s.refuse ("invalid path: " ++ String.ofList (chars path)))
    else
      let t := (s.set E (.path (chars path))).skip nread
      -- the end of the chunk is looked at here, but not in the scan for the token
      if t.stop < nread then (t.token E).bind fun u => u.body E nread (some t.stop)
      else t.body E nread none

end Parser

/-- `_tty_recv_cb` of a chunk of `nread` bytes: its decision, and where the scans for tokens
have ended. There is no result if the memory ends before. -/
def recv (mem : ByteMemory.Memory) : Option (Decision × List ℕ) :=
  (Parser.token E ⟨mem, some 0, 0, 0, [], []⟩).bind fun s => s.rest E nread

/-! ### What the chunk says -/

/-- The token that a list of bytes begins with. -/
def tokenOf (rest : List UInt8) : List UInt8 := rest.takeWhile isToken

/-- What is behind the token, the byte it ends at and whitespace. -/
def afterToken (rest : List UInt8) : List UInt8 := (rest.dropWhile isToken).tail.dropWhile isSpace

/-- `cur` at an argument: its token, or the one before if there is none. -/
def curAt (type : Char) (cur rest : List UInt8) : List UInt8 :=
  if takesToken type = true ∧ rest ≠ [] then tokenOf rest else cur

/-- What an argument leaves of the rest of the chunk. -/
def restAt (type : Char) (rest : List UInt8) : List UInt8 :=
  if takesToken type then afterToken rest else rest

/-- The report on an argument without a token. -/
def missingAt (type : Char) (rest : List UInt8) : List String :=
  if takesToken type = true ∧ rest = [] then
    [report ("argument '" ++ type.toString ++ "' missing")]
  else []

/-- **The walk over the types**, with the token before and the rest of the chunk: each type
with the item that the switch sets for it, if it sets one, and the reports. -/
def walk (scan : Sscanf) (locals : ℕ → Locals) :
    ℕ → List UInt8 → List UInt8 → List UInt8 → List (Char × Option OscItem × List String)
  | _, [], _, _ => []
  | k, b :: types, cur, rest =>
    let type := charOf b
    let r := convert scan (locals k) type (curAt type cur rest)
    (type, r.1, missingAt type rest ++ r.2) ::
      walk scan locals (k + 1) types (curAt type cur rest) (restAt type rest)

/-- The arguments of the types, and the reports on the way. -/
def parseArgs (k : ℕ) (types cur rest : List UInt8) : List OscItem × List String :=
  let l := walk E.sscanf E.locals k types cur rest
  (l.filterMap fun x => x.2.1, l.flatMap fun x => x.2.2)

theorem parseArgs_nil (k : ℕ) (cur rest : List UInt8) : parseArgs E k [] cur rest = ([], []) := rfl

theorem parseArgs_cons (k : ℕ) (b : UInt8) (types cur rest : List UInt8) :
    parseArgs E k (b :: types) cur rest =
      let type := charOf b
      let r := convert E.sscanf (E.locals k) type (curAt type cur rest)
      let following := parseArgs E (k + 1) types (curAt type cur rest) (restAt type rest)
      (r.1.toList ++ following.1, missingAt type rest ++ r.2 ++ following.2) := by
  unfold parseArgs
  dsimp only [walk, List.flatMap_cons]
  rw [List.filterMap_cons]
  cases (convert E.sscanf (E.locals k) (charOf b) (curAt (charOf b) cur rest)).1 <;> rfl

/-- The decision on a message of these items. -/
def conclude (items : List OscItem) (reports : List String) : Decision :=
  if (encodeItems E.osc items).length ≤ bufSize ∧
      E.checkMessage (encodeItems E.osc items) = true then
    ⟨some (encodeItems E.osc items), reports⟩
  else ⟨none, reports ++ [report "rx OSC message invalid"]⟩

/-- The format of a chunk without its path. -/
def formatOf (rest : List UInt8) : List UInt8 := if rest = [] then [] else tokenOf rest

/-- **The decision, by the bytes of the chunk.** -/
def parse (bs : List UInt8) : Decision :=
  let path := tokenOf bs
  let rest := afterToken bs
  let fmt := formatOf rest
  if E.osc.checkPath (chars path) = false then
    ⟨none, [report ("invalid path: " ++ String.ofList (chars path))]⟩
  else if E.osc.checkFmt (chars fmt) = false then
    ⟨none, [report ("invalid format: " ++ String.ofList (chars fmt))]⟩
  else
    let r := parseArgs E 0 fmt fmt (afterToken rest)
    conclude E (.path (chars path) :: .fmt (chars fmt) :: r.1) r.2

/-- The token ends in the chunk. -/
def TokenEnds (rest : List UInt8) : Prop := ∃ b ∈ rest, isToken b = false

/-- The first `n` tokens do, if there are so many. -/
def TokensEnd : ℕ → List UInt8 → Prop
  | 0, _ => True
  | n + 1, rest => rest = [] ∨ TokenEnds rest ∧ TokensEnd n (afterToken rest)

/-- The number of types with a token. -/
def countTokens (fmt : List UInt8) : ℕ := (fmt.filter fun b => takesToken (charOf b)).length

/-- How many tokens are read: a path, a format if the path is valid, and the arguments if
the format is. -/
def demand (bs : List UInt8) : ℕ :=
  let fmt := formatOf (afterToken bs)
  if E.osc.checkPath (chars (tokenOf bs)) = false then 1
  else if E.osc.checkFmt (chars fmt) = false then 2
  else 2 + countTokens fmt

/-- **The condition on a chunk.** Every token that is read ends in the chunk. -/
def Ends (bs : List UInt8) : Prop := TokensEnd (demand E bs) bs

/-- The chunk is in the memory. -/
def Holds (mem : ByteMemory.Memory) (bs : List UInt8) : Prop := read mem 0 bs.length = bs

/-- **The parser depends on the chunk only**, whatever is behind it, and leaves what is behind
it alone. -/
def Isolated (bs : List UInt8) : Prop :=
  ∃ decision, ∀ mem, Holds mem bs →
    ∃ scans, recv E bs.length mem = some (decision, scans) ∧
      ∀ e ∈ scans, e ≤ bs.length ∧ e < lineSize

/-- libosc answers `NULL` where an item does not fit, and hands it on. -/
structure Refuses (O : LibOsc) : Prop where
  set_null : ∀ item mem, (O.set item mem none).2 = none
  set_full : ∀ item mem p, bufSize < p + (O.encode item).length → (O.set item mem (some p)).2 = none

variable {E : Environment} {n : ℕ} {s u : Parser} {rest : List UInt8} {items : List OscItem}

theorem isToken_ne_zero {b : UInt8} (h : isToken b = true) : b ≠ 0 := by
  rintro rfl
  exact absurd h (by decide)

/-- A token and the byte it ends at. -/
theorem TokenEnds.split (h : TokenEnds rest) :
    ∃ b tail, rest = tokenOf rest ++ b :: tail ∧ (rest.dropWhile isToken).tail = tail := by
  -- there is a byte at which the token ends
  have hne : rest.dropWhile isToken ≠ [] := by
    intro hnil
    obtain ⟨b, hb, hstop⟩ := h
    have hall := List.dropWhile_eq_nil_iff.mp hnil b hb
    exact absurd (hall.symm.trans hstop) Bool.noConfusion
  obtain ⟨b, tail, hcons⟩ := List.exists_cons_of_ne_nil hne
  refine ⟨b, tail, ?_, by rw [hcons]; rfl⟩
  rw [← hcons]
  exact (List.takeWhile_append_dropWhile).symm

theorem tokensEnd_nil (k : ℕ) : TokensEnd k [] := by
  cases k with
  | zero => trivial
  | succ k => exact Or.inl rfl

/-- The tokens of a type and of those behind it. -/
theorem tokensEnd_cons {b : UInt8} {types : List UInt8}
    (h : TokensEnd (countTokens (b :: types)) rest) :
    (takesToken (charOf b) = true → rest = [] ∨ TokenEnds rest) ∧
      TokensEnd (countTokens types) (restAt (charOf b) rest) := by
  unfold restAt
  unfold countTokens at h
  cases htakes : takesToken (charOf b) with
  | false =>
    rw [List.filter_cons_of_neg (by simp [htakes])] at h
    exact ⟨fun hfalse => absurd hfalse Bool.false_ne_true, h⟩
  | true =>
    rw [List.filter_cons_of_pos (by simp [htakes]), List.length_cons] at h
    rcases h with rfl | ⟨hends, hmore⟩
    · exact ⟨fun _ => Or.inl rfl, tokensEnd_nil _⟩
    · exact ⟨fun _ => Or.inr hends, hmore⟩

theorem tokensEnd_of_cons {b : UInt8} {types : List UInt8}
    (hone : takesToken (charOf b) = true → rest = [] ∨ TokenEnds rest)
    (hmore : TokensEnd (countTokens types) (restAt (charOf b) rest)) :
    TokensEnd (countTokens (b :: types)) rest := by
  unfold restAt at hmore
  unfold countTokens
  cases htakes : takesToken (charOf b) with
  | false =>
    rw [htakes] at hmore
    rw [List.filter_cons_of_neg (by simp [htakes])]
    exact hmore
  | true =>
    rw [htakes] at hmore
    rw [List.filter_cons_of_pos (by simp [htakes]), List.length_cons]
    exact (hone htakes).imp_right fun hends => ⟨hends, hmore⟩

namespace Parser

/-! ### The rest of the chunk, and strings in front of it -/

/-- The rest of the chunk, from `stop` on. -/
structure Reads (s : Parser) (n : ℕ) (rest : List UInt8) : Prop where
  le : s.stop ≤ n
  bytes : read s.mem s.stop (n - s.stop) = rest

/-- There is a terminated string at `p`, in front of `stop`. -/
structure Text (s : Parser) (p : ℕ) (bs : List UInt8) : Prop where
  bytes : read s.mem p (bs.length + 1) = bs ++ [0]
  ne : ∀ b ∈ bs, b ≠ 0
  before : p + bs.length < s.stop

/-- Nothing in front of `stop` has changed. -/
structure Keeps (s u : Parser) : Prop where
  mem : Set.EqOn s.mem u.mem (Set.Iio s.stop)
  stop : s.stop ≤ u.stop

theorem Keeps.trans {v : Parser} (h : Keeps s u) (h' : Keeps u v) : Keeps s v where
  mem _ hi := (h.mem hi).trans (h'.mem (lt_of_lt_of_le hi h.stop))
  stop := h.stop.trans h'.stop

theorem Text.keep {p : ℕ} {bs : List UInt8} (h : s.Text p bs) (hk : Keeps s u) : u.Text p bs := by
  refine ⟨?_, h.ne, lt_of_lt_of_le h.before hk.stop⟩
  have hbefore := h.before
  -- the string and its terminator are in front of `stop`
  rw [← h.bytes]
  refine (read_congr (hk.mem.mono ?_)).symm
  intro i hi
  have hlt : i < p + (bs.length + 1) := hi.2
  show i < s.stop
  omega

/-- A string of a byte and a string. -/
theorem Text.tail {p : ℕ} {b : UInt8} {bs : List UInt8} (h : s.Text p (b :: bs)) :
    s.mem p = b ∧ b ≠ 0 ∧ s.Text (p + 1) bs := by
  obtain ⟨hbytes, hne, hbefore⟩ := h
  rw [List.length_cons, read_succ, List.cons_append] at hbytes
  obtain ⟨hb, hbs⟩ := List.cons.inj hbytes
  obtain ⟨hbne, hne⟩ := List.forall_mem_cons.mp hne
  rw [List.length_cons] at hbefore
  exact ⟨hb, hbne, hbs, hne, by omega⟩

theorem Text.terminator {p : ℕ} (h : s.Text p []) : s.mem p = 0 := by
  have hbytes := h.bytes
  rw [read_succ] at hbytes
  exact (List.cons.inj hbytes).1

theorem Text.string_eq {p : ℕ} {bs : List UInt8} (h : s.Text p bs) (hn : s.stop ≤ lineSize) :
    s.string E p = some bs := by
  have hbefore := h.before
  have hmapped := E.lineSize_le
  exact cString_eq h.bytes h.ne (by omega)

theorem Reads.length (h : s.Reads n rest) : rest.length = n - s.stop := by
  rw [← h.bytes, length_read]

/-- The chunk has an end, at the end of the rest. -/
theorem Reads.lt_iff (h : s.Reads n rest) : s.stop < n ↔ rest ≠ [] := by
  have hlen := h.length
  rw [← List.length_pos_iff]
  omega

/-- What a token leaves that ends after `m` bytes. -/
def cut (s : Parser) (m : ℕ) : Parser :=
  { s with
    mem := write s.mem (s.stop + m) [0]
    cur := s.stop
    stop := s.stop + m + 1
    scans := s.scans ++ [s.stop + m] }

theorem cut_keeps (s : Parser) (m : ℕ) : Keeps s (s.cut m) where
  mem i hi := by
    have hlt : i < s.stop := hi
    exact (write_of_lt (by omega)).symm
  stop := by
    show s.stop ≤ s.stop + m + 1
    omega

/-- **A token that ends in the chunk.** -/
theorem Reads.token (h : s.Reads n rest) (hends : TokenEnds rest) (hn : n ≤ lineSize) :
    s.token E = some (s.cut (tokenOf rest).length) ∧
      (s.cut (tokenOf rest).length).Reads n (rest.dropWhile isToken).tail ∧
      (s.cut (tokenOf rest).length).Text s.stop (tokenOf rest) ∧
      s.stop + (tokenOf rest).length < n := by
  obtain ⟨b, tail, hrest, htail⟩ := hends.split
  have hlen := h.length
  have hle := h.le
  have hmapped := E.lineSize_le
  have hlt : s.stop + (tokenOf rest).length < n := by
    have hsplit := congrArg List.length hrest
    rw [List.length_append, List.length_cons] at hsplit
    omega
  have hbytes : read s.mem s.stop rest.length = rest := by
    rw [hlen]
    exact h.bytes
  -- the mapped memory is long enough for the scan
  have hscan : scanWhile isToken s.mem (E.mapped - s.stop) s.stop =
      some (s.stop + (tokenOf rest).length) := scanWhile_eq hbytes hends (by omega)
  refine ⟨?_, ⟨hlt, ?_⟩, ⟨?_, ?_, ?_⟩, hlt⟩
  · unfold Parser.token
    rw [hscan]
    rfl
  · -- the rest is behind the terminator
    have hdrop : read s.mem (s.stop + (tokenOf rest ++ [b]).length)
        (rest.length - (tokenOf rest ++ [b]).length) = tail := by
      refine read_drop (hbytes.trans ?_)
      rw [List.append_assoc]
      exact hrest
    rw [List.length_append, List.length_singleton, hlen] at hdrop
    rw [htail, ← hdrop]
    have hcount : n - (s.cut (tokenOf rest).length).stop =
        n - s.stop - ((tokenOf rest).length + 1) := by
      show n - (s.stop + (tokenOf rest).length + 1) = _
      omega
    rw [hcount]
    refine read_congr fun i hi => write_of_ge ?_
    have hge : s.stop + (tokenOf rest).length + 1 ≤ i := hi.1
    exact hge
  · -- the token is in front of the terminator
    have hfront : read s.mem s.stop (tokenOf rest).length = tokenOf rest := by
      have happend := hbytes
      rw [hrest, List.length_append, read_add] at happend
      exact (List.append_inj happend (length_read _ _ _)).1
    rw [read_add]
    refine congrArg₂ _ (Eq.trans (read_congr fun i hi => write_of_lt hi.2) hfront) ?_
    exact read_write s.mem (s.stop + (tokenOf rest).length) [0]
  · exact fun c hc => isToken_ne_zero (List.mem_takeWhile_imp hc)
  · exact Nat.lt_succ_self _

theorem Reads.skip (h : s.Reads n rest) : (s.skip n).Reads n (rest.dropWhile isSpace) := by
  have hskip : (s.skip n).stop = s.stop + (rest.takeWhile isSpace).length := skipWhile_eq h.bytes
  have hlen := h.length
  have hle := h.le
  have hsplit := congrArg List.length (List.takeWhile_append_dropWhile (p := isSpace) (l := rest))
  rw [List.length_append] at hsplit
  refine ⟨by omega, ?_⟩
  rw [hskip, Nat.sub_add_eq]
  exact read_drop (h.bytes.trans List.takeWhile_append_dropWhile.symm)

theorem skip_keeps (h : s.Reads n rest) : Keeps s (s.skip n) where
  mem := Set.eqOn_refl _ _
  stop := by
    have hskip : (s.skip n).stop = s.stop + (rest.takeWhile isSpace).length := skipWhile_eq h.bytes
    omega

/-! ### The message so far -/

/-- The items have been written, as far as they fit. -/
structure Wrote (E : Environment) (s : Parser) (items : List OscItem) : Prop where
  bytes : ∀ len ∈ s.ptr, len = (encodeItems E.osc items).length ∧ len ≤ bufSize ∧
    read s.buffer 0 len = encodeItems E.osc items
  full : s.ptr = none → bufSize < (encodeItems E.osc items).length

theorem encodeItems_append (O : LibOsc) (items items' : List OscItem) :
    encodeItems O (items ++ items') = encodeItems O items ++ encodeItems O items' :=
  List.flatMap_append

theorem set_buffer (s : Parser) (item : OscItem) :
    (s.set E item).buffer = (E.osc.set item s.buffer s.ptr).1 := by
  funext i
  unfold Parser.set Parser.buffer
  simp only
  rw [if_neg (by omega), Nat.add_sub_cancel_left]

theorem set_keeps (s : Parser) (item : OscItem) (hs : s.stop ≤ lineSize) :
    Keeps s (s.set E item) where
  mem i hi := by
    have hlt : i < lineSize := lt_of_lt_of_le hi hs
    exact (if_pos hlt).symm
  stop := le_refl _

theorem Reads.set (h : s.Reads n rest) (hn : n ≤ lineSize) (item : OscItem) :
    (s.set E item).Reads n rest := by
  refine ⟨h.le, ?_⟩
  rw [← h.bytes]
  refine read_congr fun i hi => ?_
  have hlt : i < s.stop + (n - s.stop) := hi.2
  have hle := h.le
  exact if_pos (by omega)

/-- **One setter more.** -/
theorem Wrote.set (hO : Refuses E.osc) (h : Wrote E s items) (item : OscItem) :
    Wrote E (s.set E item) (items ++ [item]) := by
  have hlen : (encodeItems E.osc (items ++ [item])).length =
      (encodeItems E.osc items).length + (E.osc.encode item).length := by
    rw [encodeItems_append, encodeItems_cons, List.length_append, List.length_append]
    rfl
  cases hptr : s.ptr with
  | none =>
    -- what has not fitted does not fit with one item more
    have hfull := h.full hptr
    have hnull : (s.set E item).ptr = none := by
      show (E.osc.set item s.buffer s.ptr).2 = none
      rw [hptr]
      exact hO.set_null item s.buffer
    refine ⟨fun len hl => ?_, fun _ => by omega⟩
    rw [hnull] at hl
    cases hl
  | some p =>
    obtain ⟨hp, hle, hread⟩ := h.bytes p hptr
    rcases Nat.lt_or_ge bufSize (p + (E.osc.encode item).length) with hfull | hfit
    · have hnull : (s.set E item).ptr = none := by
        show (E.osc.set item s.buffer s.ptr).2 = none
        rw [hptr]
        exact hO.set_full item s.buffer p hfull
      refine ⟨fun len hl => ?_, fun _ => by omega⟩
      rw [hnull] at hl
      cases hl
    · have hset := E.osc.set_eq item s.buffer p hfit
      have hnew : (s.set E item).ptr = some (p + (E.osc.encode item).length) := by
        show (E.osc.set item s.buffer s.ptr).2 = _
        rw [hptr, hset]
      refine ⟨fun len hl => ?_, fun hnull => by rw [hnew] at hnull; cases hnull⟩
      rw [hnew] at hl
      obtain rfl := Option.mem_some.mp hl
      refine ⟨by omega, hfit, ?_⟩
      -- the item is behind what was there
      rw [set_buffer, hptr, hset, read_add, Nat.zero_add, read_write, encodeItems_append,
        encodeItems_cons, ← hread]
      refine congrArg₂ _ (read_congr fun i hi => write_of_lt ?_) (List.append_nil _).symm
      have hlt : i < 0 + p := hi.2
      omega

/-- What the parser has in hand: the rest of the chunk, the items so far, the reports, and
scans that have ended in the chunk. The line behind the chunk is as it was. -/
structure Ready (E : Environment) (old : ByteMemory.Memory) (s : Parser) (n : ℕ)
    (items : List OscItem) (reports : List String) (rest : List UInt8) : Prop where
  reads : s.Reads n rest
  wrote : Wrote E s items
  reports : s.reports = reports
  scans : ∀ e ∈ s.scans, e < n
  behind : ∀ i, n ≤ i → i < lineSize → s.mem i = old i

variable {old : ByteMemory.Memory} {reports : List String} {cur : List UInt8} {type : Char}

theorem Ready.skip (h : s.Ready E old n items reports rest) :
    (s.skip n).Ready E old n items reports (rest.dropWhile isSpace) :=
  ⟨h.reads.skip, ⟨h.wrote.bytes, h.wrote.full⟩, h.reports, h.scans, h.behind⟩

theorem Ready.tell (h : s.Ready E old n items reports rest) (reports' : List String) :
    (s.tell reports').Ready E old n items (reports ++ reports') rest := by
  refine ⟨⟨h.reads.le, h.reads.bytes⟩, ⟨h.wrote.bytes, h.wrote.full⟩, ?_, h.scans, h.behind⟩
  rw [← h.reports]
  rfl

theorem Ready.set (hO : Refuses E.osc) (h : s.Ready E old n items reports rest) (hn : n ≤ lineSize)
    (item : OscItem) : (s.set E item).Ready E old n (items ++ [item]) reports rest :=
  ⟨h.reads.set hn item, h.wrote.set hO item, h.reports, h.scans,
    fun i hi hline => (if_pos hline).trans (h.behind i hi hline)⟩

/-- **A token and the whitespace behind it.** -/
theorem Ready.token (h : s.Ready E old n items reports rest) (hends : TokenEnds rest)
    (hn : n ≤ lineSize) :
    ∃ u, s.token E = some u ∧ u.cur = s.stop ∧ u.Text s.stop (tokenOf rest) ∧ Keeps s u ∧
      u.Ready E old n items reports (rest.dropWhile isToken).tail := by
  obtain ⟨htoken, hreads, htext, hlt⟩ := h.reads.token (E := E) hends hn
  refine ⟨_, htoken, rfl, htext, cut_keeps s _, hreads, ⟨fun len hlen => ?_, h.wrote.full⟩,
    h.reports, ?_, fun i hi hline => ?_⟩
  · -- the terminator is not in the buffer
    obtain ⟨hlength, hle, hbytes⟩ := h.wrote.bytes len hlen
    refine ⟨hlength, hle, Eq.trans (read_congr fun i _ => ?_) hbytes⟩
    refine write_of_ge ?_
    show s.stop + (tokenOf rest).length + 1 ≤ lineSize + i
    omega
  · intro e he
    rcases List.mem_append.mp he with he | he
    · exact h.scans e he
    · rw [List.mem_singleton.mp he]
      exact hlt
  · refine Eq.trans (write_of_ge ?_) (h.behind i hi hline)
    show s.stop + (tokenOf rest).length + 1 ≤ i
    omega

/-- **The token of an argument**, if there is one. -/
theorem Ready.fetch (h : s.Ready E old n items reports rest) (hn : n ≤ lineSize)
    (hends : takesToken type = true → rest = [] ∨ TokenEnds rest) (hcur : s.Text s.cur cur) :
    ∃ u, s.fetch E n type = some u ∧ Keeps s u ∧ u.Text u.cur (curAt type cur rest) ∧
      u.Ready E old n items (reports ++ missingAt type rest) (restAt type rest) := by
  unfold Parser.fetch curAt missingAt restAt
  cases htakes : takesToken type with
  | false =>
    refine ⟨s, rfl, ⟨Set.eqOn_refl _ _, le_refl _⟩, ?_, ?_⟩
    · simpa using hcur
    · simpa using h
  | true =>
    by_cases hrest : rest = []
    · -- there is none, and `cur` stays
      have hstop : ¬ s.stop < n := fun hlt => h.reads.lt_iff.mp hlt hrest
      obtain rfl := hrest
      have htold := h.tell [report ("argument '" ++ type.toString ++ "' missing")]
      have hskip := skip_keeps htold.reads
      have hkeeps : Keeps s _ := ⟨hskip.mem, hskip.stop⟩
      refine ⟨_, by rw [if_pos rfl, if_neg hstop]; rfl, hkeeps, ?_, ?_⟩
      · simp only [ne_eq, not_true_eq_false, and_false, if_false]
        exact hcur.keep hkeeps
      · simpa [afterToken] using htold.skip
    · obtain ⟨u, htoken, hucur, htext, hkeeps, hready⟩ :=
        h.token ((hends htakes).resolve_left hrest) hn
      have hskip := skip_keeps hready.reads
      refine ⟨u.skip n, ?_, hkeeps.trans hskip, ?_, ?_⟩
      · rw [if_pos rfl, if_pos (h.reads.lt_iff.mpr hrest), htoken]
        rfl
      · rw [if_pos ⟨rfl, hrest⟩]
        have hcur' : (u.skip n).cur = s.stop := hucur
        rw [hcur']
        exact htext.keep hskip
      · simpa [hrest, afterToken] using hready.skip

theorem convert_of_not {S : Sscanf} {v : Locals} (h : converts type = false) (bs : List UInt8) :
    convert S v type bs = (none, []) := by
  unfold convert
  split <;> first
    | rfl
    | exact absurd h (by decide)

/-- **The switch.** -/
theorem Ready.argument (hO : Refuses E.osc) (h : s.Ready E old n items reports rest)
    (hn : n ≤ lineSize) (hcur : s.Text s.cur cur) (k : ℕ) (type : Char) :
    ∃ u, s.argument E k type = some u ∧ u.cur = s.cur ∧ Keeps s u ∧
      u.Ready E old n (items ++ (convert E.sscanf (E.locals k) type cur).1.toList)
        (reports ++ (convert E.sscanf (E.locals k) type cur).2) rest := by
  have hstop : s.stop ≤ lineSize := h.reads.le.trans hn
  unfold Parser.argument
  cases hconverts : converts type with
  | false =>
    rw [convert_of_not hconverts]
    refine ⟨s, rfl, rfl, ⟨Set.eqOn_refl _ _, le_refl _⟩, ?_⟩
    simpa using h
  | true =>
    rw [if_pos rfl, hcur.string_eq hstop, Option.map_some]
    generalize convert E.sscanf (E.locals k) type cur = r
    obtain ⟨item, reports'⟩ := r
    cases item with
    | none =>
      refine ⟨_, rfl, rfl, ⟨Set.eqOn_refl _ _, le_refl _⟩, ?_⟩
      simpa using h.tell reports'
    | some item =>
      have hkeeps := set_keeps (E := E) s item hstop
      exact ⟨_, rfl, rfl, ⟨hkeeps.mem, hkeeps.stop⟩, (h.set hO hn item).tell reports'⟩

/-- **The loop over the types**, where the tokens end in the chunk. -/
theorem Ready.arguments (hO : Refuses E.osc) (hn : n ≤ lineSize) {types : List UInt8}
    {fuel k p : ℕ} (h : s.Ready E old n items reports rest) (hfuel : types.length < fuel)
    (htypes : s.Text p types) (hcur : s.Text s.cur cur)
    (hends : TokensEnd (countTokens types) rest) :
    ∃ u rest', s.arguments E n fuel k p = some u ∧
      u.Ready E old n (items ++ (parseArgs E k types cur rest).1)
        (reports ++ (parseArgs E k types cur rest).2) rest' := by
  induction types generalizing fuel k p s items reports rest cur with
  | nil =>
    obtain ⟨fuel, rfl⟩ : ∃ j, fuel = j + 1 := ⟨fuel - 1, by omega⟩
    refine ⟨s, rest, ?_, by simpa [parseArgs_nil] using h⟩
    unfold Parser.arguments
    exact if_pos htypes.terminator
  | cons b types ih =>
    obtain ⟨fuel, rfl⟩ : ∃ j, fuel = j + 1 := ⟨fuel - 1, by omega⟩
    obtain ⟨hb, hne, htail⟩ := htypes.tail
    -- the format is in front of `stop`, where neither terminators nor items are written
    obtain ⟨hone, hmore⟩ := tokensEnd_cons hends
    obtain ⟨t, hfetch, hkeeps, hcur, ht⟩ := h.fetch hn hone hcur
    obtain ⟨u, hargument, hucur, hukeeps, hu⟩ := ht.argument hO hn hcur k (charOf b)
    obtain ⟨v, rest', hrun, hv⟩ := ih (k := k + 1) hu (Nat.lt_of_succ_lt_succ hfuel)
      (htail.keep (hkeeps.trans hukeeps)) (by rw [hucur]; exact hcur.keep hukeeps) hmore
    refine ⟨v, rest', ?_, ?_⟩
    · unfold Parser.arguments
      rw [hb, if_neg hne, hfetch, Option.bind_some, hargument, Option.bind_some, hrun]
    · simpa only [parseArgs_cons, List.append_assoc] using hv

theorem Ready.finish (h : s.Ready E old n items reports rest) :
    s.finish E = (conclude E items reports, s.scans) := by
  unfold Parser.finish conclude
  rw [h.reports]
  cases hptr : s.ptr with
  | none =>
    have hfull := h.wrote.full hptr
    rw [if_neg fun hfit => Nat.not_le.mpr hfull hfit.1]
  | some len =>
    obtain ⟨hlen, hle, hbytes⟩ := h.wrote.bytes len hptr
    simp only [hbytes]
    rw [hlen] at hle
    by_cases hcheck : E.checkMessage (encodeItems E.osc items) = true
    · rw [if_pos hcheck, if_pos ⟨hle, hcheck⟩]
    · rw [if_neg hcheck, if_neg fun h => hcheck h.2]

/-- Where the format is: behind the path, or nowhere. -/
def FormatAt (s : Parser) (fmt : List UInt8) : Option ℕ → Prop
  | some p => s.cur = p ∧ s.Text p fmt
  | none => fmt = []

theorem FormatAt.string_eq {fmt : List UInt8} {pos : Option ℕ} (h : s.FormatAt fmt pos)
    (hstop : s.stop ≤ lineSize) : (pos.map (s.string E)).getD (some []) = some fmt := by
  cases pos with
  | none =>
    obtain rfl : fmt = [] := h
    rfl
  | some p => exact h.2.string_eq hstop

/-- The format, when the loop over its types begins. -/
theorem Ready.format (hO : Refuses E.osc) (hn : n ≤ lineSize) {fmt : List UInt8} {p : ℕ}
    (h : s.Ready E old n items reports rest) (hat : s.FormatAt fmt (some p)) :
    let t := (s.set E (.fmt (chars fmt))).skip n
    t.Ready E old n (items ++ [.fmt (chars fmt)]) reports (rest.dropWhile isSpace) ∧
      t.Text p fmt ∧ t.Text t.cur fmt := by
  intro t
  have hset := h.set hO hn (.fmt (chars fmt))
  have hkeeps := (set_keeps (E := E) s (.fmt (chars fmt)) (h.reads.le.trans hn)).trans
    (skip_keeps hset.reads)
  obtain ⟨hcur, htext⟩ := hat
  have htext' : t.Text p fmt := htext.keep hkeeps
  refine ⟨hset.skip, htext', ?_⟩
  rw [← hcur] at htext'
  exact htext'

/-- **From the format on**, where the tokens end in the chunk. -/
theorem Ready.body (hO : Refuses E.osc) (hn : n ≤ lineSize) {fmt : List UInt8} {pos : Option ℕ}
    (h : s.Ready E old n items [] rest) (hpos : s.FormatAt fmt pos)
    (hends : E.osc.checkFmt (chars fmt) = true →
      TokensEnd (countTokens fmt) (rest.dropWhile isSpace)) :
    ∃ scans, (∀ e ∈ scans, e < n) ∧ s.body E n pos = some
      (if E.osc.checkFmt (chars fmt) = false then
        ⟨none, [report ("invalid format: " ++ String.ofList (chars fmt))]⟩
      else
        conclude E (items ++ .fmt (chars fmt) ::
          (parseArgs E 0 fmt fmt (rest.dropWhile isSpace)).1)
          (parseArgs E 0 fmt fmt (rest.dropWhile isSpace)).2, scans) := by
  have hstop : s.stop ≤ lineSize := h.reads.le.trans hn
  unfold Parser.body
  rw [hpos.string_eq hstop, Option.bind_some]
  cases hcheck : E.osc.checkFmt (chars fmt) with
  | false =>
    refine ⟨s.scans, h.scans, ?_⟩
    rw [if_pos rfl, if_pos rfl, Parser.refuse, h.reports, List.nil_append]
  | true =>
    rw [if_neg Bool.noConfusion, if_neg Bool.noConfusion]
    cases pos with
    | none =>
      -- the literal has no types
      obtain rfl : fmt = [] := hpos
      have hset := h.set hO hn (.fmt (chars []))
      refine ⟨s.scans, h.scans, ?_⟩
      simp only [Option.map_some, hset.skip.finish, parseArgs_nil]
      rfl
    | some p =>
      obtain ⟨hready, htypes, hcur⟩ := h.format hO hn hpos
      have hbefore := hpos.2.before
      have hmapped := E.lineSize_le
      have hfuel : fmt.length < E.mapped - p := by omega
      obtain ⟨u, rest', hrun, hu⟩ := hready.arguments (k := 0) hO hn hfuel htypes hcur
        (hends hcheck)
      refine ⟨u.scans, hu.scans, ?_⟩
      simp only [hrun, Option.map_some, hu.finish, List.append_assoc, List.singleton_append,
        List.nil_append]

end Parser

/-- The tokens that are read, one after the other. -/
theorem ends_iff {bs : List UInt8} (hne : bs ≠ []) : Ends E bs ↔
    TokenEnds bs ∧ (E.osc.checkPath (chars (tokenOf bs)) = true →
      (afterToken bs = [] ∨ TokenEnds (afterToken bs)) ∧
        (E.osc.checkFmt (chars (formatOf (afterToken bs))) = true →
          TokensEnd (countTokens (formatOf (afterToken bs))) (afterToken (afterToken bs)))) := by
  unfold Ends demand
  simp only
  cases hpath : E.osc.checkPath (chars (tokenOf bs)) with
  | false =>
    rw [if_pos rfl]
    simp [TokensEnd, hne]
  | true =>
    rw [if_neg Bool.noConfusion]
    cases hfmt : E.osc.checkFmt (chars (formatOf (afterToken bs))) with
    | false =>
      rw [if_pos rfl]
      simp [TokensEnd, hne]
    | true =>
      rw [if_neg Bool.noConfusion, Nat.add_comm]
      simp only [TokensEnd, hne, false_or, true_imp_iff]
      refine and_congr_right fun _ => ⟨?_, ?_⟩
      · rintro (hnil | ⟨hends, hmore⟩)
        · exact ⟨Or.inl hnil, by rw [hnil]; exact tokensEnd_nil _⟩
        · exact ⟨Or.inr hends, hmore⟩
      · rintro ⟨hends, hmore⟩
        exact hends.imp_right fun hends => ⟨hends, hmore⟩

/-- The parser at the beginning of the chunk. -/
theorem ready_start {mem : ByteMemory.Memory} {bs : List UInt8} (h : Holds mem bs) :
    Parser.Ready E mem ⟨mem, some 0, 0, 0, [], []⟩ bs.length [] [] bs := by
  refine ⟨⟨Nat.zero_le _, h⟩, ⟨fun len hlen => ?_, fun hnull => by cases hnull⟩, rfl, ?_,
    fun _ _ _ => rfl⟩
  · obtain rfl := Option.mem_some.mp hlen
    exact ⟨rfl, Nat.zero_le _, rfl⟩
  · exact fun e he => absurd he List.not_mem_nil

/-- **A chunk whose tokens end in it** is parsed by its bytes, and no scan leaves it. -/
theorem recv_eq (hO : Refuses E.osc) {bs : List UInt8} (hne : bs ≠ [])
    (hn : bs.length ≤ lineSize) (hends : Ends E bs) {mem : ByteMemory.Memory}
    (hmem : Holds mem bs) :
    ∃ scans, recv E bs.length mem = some (parse E bs, scans) ∧ ∀ e ∈ scans, e < bs.length := by
  obtain ⟨hpath, hmore⟩ := (ends_iff hne).mp hends
  obtain ⟨s, htoken, hcur, htext, -, hs⟩ := (ready_start (E := E) hmem).token hpath hn
  have hstop : s.stop ≤ lineSize := hs.reads.le.trans hn
  unfold recv
  rw [htoken, Option.bind_some]
  unfold Parser.rest parse
  rw [hcur, htext.string_eq hstop, Option.bind_some]
  simp only
  cases hcheck : E.osc.checkPath (chars (tokenOf bs)) with
  | false =>
    refine ⟨s.scans, ?_, hs.scans⟩
    rw [if_pos rfl, if_pos rfl, Parser.refuse, hs.reports, List.nil_append]
  | true =>
    have htrue : ¬ (true = false) := Bool.noConfusion
    rw [if_neg htrue, if_neg htrue]
    obtain ⟨hformat, hargs⟩ := hmore hcheck
    have ht := (hs.set hO hn (.path (chars (tokenOf bs)))).skip
    -- from here on only what is in hand matters
    generalize (s.set E (.path (chars (tokenOf bs)))).skip bs.length = t at ht ⊢
    change t.Ready E mem bs.length _ _ (afterToken bs) at ht
    by_cases hrest : afterToken bs = []
    · -- there is no format
      have hlt : ¬ t.stop < bs.length := fun h => ht.reads.lt_iff.mp h hrest
      rw [if_neg hlt]
      rw [hrest] at ht hargs ⊢
      have hat : t.FormatAt [] none := rfl
      obtain ⟨scans, hscans, hbody⟩ := ht.body hO hn hat hargs
      refine ⟨scans, ?_, hscans⟩
      rw [hbody]
      rfl
    · obtain ⟨u, hutoken, hucur, hutext, -, hu⟩ :=
        ht.token (E := E) (hformat.resolve_left hrest) hn
      rw [if_pos (ht.reads.lt_iff.mpr hrest), hutoken, Option.bind_some]
      have hfmt : formatOf (afterToken bs) = tokenOf (afterToken bs) := if_neg hrest
      rw [hfmt] at hargs ⊢
      have hat : u.FormatAt (tokenOf (afterToken bs)) (some t.stop) := ⟨hucur, hutext⟩
      obtain ⟨scans, hscans, hbody⟩ := hu.body hO hn hat hargs
      refine ⟨scans, ?_, hscans⟩
      rw [hbody]
      rfl

/-! ### Tokens that do not end in the chunk -/

/-- The end of a scan, behind the chunk or the line. -/
def Past (n e : ℕ) : Prop := n < e ∨ lineSize ≤ e

namespace Parser

variable {old : ByteMemory.Memory} {reports : List String} {cur : List UInt8} {type : Char}

/-- The byte behind the chunk could belong to a token. -/
def Stale (old : ByteMemory.Memory) (n : ℕ) : Prop := n < lineSize → isToken (old n) = true

/-- **The scan for a token that does not end in the chunk** goes past its end. -/
theorem Ready.token_past (h : s.Ready E old n items reports rest) (hold : Stale old n)
    (hends : ¬ TokenEnds rest) (hu : s.token E = some u) : ∃ e ∈ u.scans, Past n e := by
  unfold Parser.token at hu
  obtain ⟨e, he, rfl⟩ := Option.map_eq_some_iff.mp hu
  refine ⟨e, List.mem_append_right _ List.mem_cons_self, ?_⟩
  have hall : ∀ b ∈ read s.mem s.stop (n - s.stop), isToken b = true := by
    rw [h.reads.bytes]
    intro b hb
    by_contra hstop
    exact hends ⟨b, hb, by simpa using hstop⟩
  have hle := le_of_scanWhile hall he
  have hstop := h.reads.le
  rcases Nat.lt_or_ge n e with hlt | hge
  · exact Or.inl hlt
  · -- the byte behind the chunk belongs to a token, so this is the end of the line
    have hen : e = n := by omega
    refine Or.inr (Nat.le_of_not_lt fun hline => ?_)
    rw [hen] at he hline
    have htoken := hold hline
    rw [← h.behind n (le_refl n) hline, of_scanWhile he] at htoken
    exact Bool.false_ne_true htoken

/-! A scan stays on record. -/

theorem token_scans (hu : s.token E = some u) : s.scans ⊆ u.scans := by
  unfold Parser.token at hu
  obtain ⟨e, -, rfl⟩ := Option.map_eq_some_iff.mp hu
  exact List.subset_append_left _ _

theorem fetch_scans (hu : s.fetch E n type = some u) : s.scans ⊆ u.scans := by
  unfold Parser.fetch at hu
  split at hu
  · obtain ⟨t, ht, rfl⟩ := Option.map_eq_some_iff.mp hu
    have hscans : s.scans ⊆ t.scans := by
      split at ht
      · exact token_scans ht
      · obtain rfl := Option.some.inj ht
        exact List.Subset.refl _
    exact hscans
  · obtain rfl := Option.some.inj hu
    exact List.Subset.refl _

theorem argument_scans {k : ℕ} (hu : s.argument E k type = some u) : u.scans = s.scans := by
  unfold Parser.argument at hu
  split at hu
  · obtain ⟨cur, -, rfl⟩ := Option.map_eq_some_iff.mp hu
    generalize convert E.sscanf (E.locals k) type cur = r
    obtain ⟨item, reports⟩ := r
    cases item <;> rfl
  · obtain rfl := Option.some.inj hu
    rfl

theorem arguments_scans {fuel k p : ℕ} (hu : s.arguments E n fuel k p = some u) :
    s.scans ⊆ u.scans := by
  induction fuel generalizing s k p with
  | zero => cases hu
  | succ fuel ih =>
    unfold Parser.arguments at hu
    split at hu
    · obtain rfl := Option.some.inj hu
      exact List.Subset.refl _
    · obtain ⟨t, ht, hu⟩ := Option.bind_eq_some_iff.mp hu
      obtain ⟨v, hv, hu⟩ := Option.bind_eq_some_iff.mp hu
      have hmore := ih hu
      rw [argument_scans hv] at hmore
      exact List.Subset.trans (fetch_scans ht) hmore

theorem finish_scans (s : Parser) : (s.finish E).2 = s.scans := by
  unfold Parser.finish
  split
  · split
    · rfl
    · rfl
  · rfl

theorem body_scans {pos : Option ℕ} {r : Decision × List ℕ} (hr : s.body E n pos = some r) :
    s.scans ⊆ r.2 := by
  unfold Parser.body at hr
  obtain ⟨bs, -, hr⟩ := Option.bind_eq_some_iff.mp hr
  split at hr
  · obtain rfl := Option.some.inj hr
    exact List.Subset.refl _
  · obtain ⟨u, hu, rfl⟩ := Option.map_eq_some_iff.mp hr
    rw [finish_scans]
    have hset : ((s.set E (.fmt (chars bs))).skip n).scans = s.scans := rfl
    rw [← hset]
    split at hu
    · exact arguments_scans hu
    · obtain rfl := Option.some.inj hu
      exact List.Subset.refl _

theorem rest_scans {r : Decision × List ℕ} (hr : s.rest E n = some r) : s.scans ⊆ r.2 := by
  unfold Parser.rest at hr
  obtain ⟨bs, -, hr⟩ := Option.bind_eq_some_iff.mp hr
  split at hr
  · obtain rfl := Option.some.inj hr
    exact List.Subset.refl _
  · have hset : ((s.set E (.path (chars bs))).skip n).scans = s.scans := rfl
    rw [← hset]
    simp only at hr
    split at hr
    · obtain ⟨u, hu, hr⟩ := Option.bind_eq_some_iff.mp hr
      exact List.Subset.trans (token_scans hu) (body_scans hr)
    · exact body_scans hr

/-- **The loop over the types**, where one of the tokens does not end in the chunk. -/
theorem Ready.arguments_past (hO : Refuses E.osc) (hn : n ≤ lineSize) (hold : Stale old n)
    {types : List UInt8} {fuel k p : ℕ} (h : s.Ready E old n items reports rest)
    (htypes : s.Text p types) (hcur : s.Text s.cur cur)
    (hends : ¬ TokensEnd (countTokens types) rest) (hu : s.arguments E n fuel k p = some u) :
    ∃ e ∈ u.scans, Past n e := by
  induction types generalizing fuel k p s items reports rest cur with
  | nil => exact absurd trivial hends
  | cons b types ih =>
    cases fuel with
    | zero => cases hu
    | succ fuel =>
      obtain ⟨hb, hne, htail⟩ := htypes.tail
      unfold Parser.arguments at hu
      rw [hb, if_neg hne] at hu
      obtain ⟨t, ht, hafter⟩ := Option.bind_eq_some_iff.mp hu
      obtain ⟨v, hv, hrun⟩ := Option.bind_eq_some_iff.mp hafter
      by_cases hone : takesToken (charOf b) = true → rest = [] ∨ TokenEnds rest
      · -- this token ends, so it is one of those behind it
        have hmore : ¬ TokensEnd (countTokens types) (restAt (charOf b) rest) :=
          fun hmore => hends (tokensEnd_of_cons hone hmore)
        obtain ⟨t', ht', hkeeps, hcur', hready⟩ := h.fetch hn hone hcur
        obtain rfl := Option.some.inj (ht.symm.trans ht')
        obtain ⟨v', hv', hvcur, hvkeeps, hvready⟩ := hready.argument hO hn hcur' k (charOf b)
        obtain rfl := Option.some.inj (hv.symm.trans hv')
        exact ih hvready (htail.keep (hkeeps.trans hvkeeps))
          (by rw [hvcur]; exact hcur'.keep hvkeeps) hmore hrun
      · -- it is this one
        push Not at hone
        obtain ⟨htakes, hrest, htoken⟩ := hone
        unfold Parser.fetch at ht
        rw [if_pos htakes, if_pos (h.reads.lt_iff.mpr hrest)] at ht
        obtain ⟨w, hw, rfl⟩ := Option.map_eq_some_iff.mp ht
        obtain ⟨e, he, hpast⟩ := h.token_past hold htoken hw
        refine ⟨e, arguments_scans hrun ?_, hpast⟩
        rw [argument_scans hv]
        exact he

/-- **From the format on**, where a token of an argument does not end in the chunk. -/
theorem Ready.body_past (hO : Refuses E.osc) (hn : n ≤ lineSize) (hold : Stale old n)
    {fmt : List UInt8} {p : ℕ} (h : s.Ready E old n items [] rest) (hat : s.FormatAt fmt (some p))
    (hcheck : E.osc.checkFmt (chars fmt) = true)
    (hends : ¬ TokensEnd (countTokens fmt) (rest.dropWhile isSpace)) {r : Decision × List ℕ}
    (hr : s.body E n (some p) = some r) : ∃ e ∈ r.2, Past n e := by
  have hstop : s.stop ≤ lineSize := h.reads.le.trans hn
  unfold Parser.body at hr
  rw [hat.string_eq hstop, Option.bind_some, hcheck, if_neg Bool.noConfusion] at hr
  obtain ⟨u, hu, rfl⟩ := Option.map_eq_some_iff.mp hr
  rw [finish_scans]
  obtain ⟨hready, htypes, hcur⟩ := h.format hO hn hat
  exact hready.arguments_past hO hn hold htypes hcur hends hu

end Parser

/-- **A chunk with a token that does not end in it**: a scan goes past its end, if the byte
behind it could belong to a token. -/
theorem recv_past (hO : Refuses E.osc) {bs : List UInt8} (hne : bs ≠ [])
    (hn : bs.length ≤ lineSize) (hends : ¬ Ends E bs) {mem : ByteMemory.Memory}
    (hmem : Holds mem bs) (hold : Parser.Stale mem bs.length) {r : Decision × List ℕ}
    (hr : recv E bs.length mem = some r) : ∃ e ∈ r.2, Past bs.length e := by
  rw [ends_iff hne] at hends
  have hstart := ready_start (E := E) hmem
  unfold recv at hr
  obtain ⟨s, hs, hr⟩ := Option.bind_eq_some_iff.mp hr
  -- the first token that does not end is the path, the format or an argument
  by_cases hpath : TokenEnds bs
  · obtain ⟨s', hs', hcur, htext, -, hready⟩ := hstart.token (E := E) hpath hn
    obtain rfl := Option.some.inj (hs.symm.trans hs')
    have hstop : s.stop ≤ lineSize := hready.reads.le.trans hn
    have hmore := Classical.not_imp.mp fun h => hends ⟨hpath, h⟩
    obtain ⟨hcheck, hmore⟩ := hmore
    unfold Parser.rest at hr
    rw [hcur, htext.string_eq hstop, Option.bind_some, hcheck, if_neg Bool.noConfusion] at hr
    have ht := (hready.set hO hn (.path (chars (tokenOf bs)))).skip
    simp only at hr
    generalize (s.set E (.path (chars (tokenOf bs)))).skip bs.length = t at ht hr
    change t.Ready E mem bs.length _ _ (afterToken bs) at ht
    by_cases hrest : afterToken bs = []
    · -- without a format there are no more tokens
      refine absurd ⟨Or.inl hrest, fun _ => ?_⟩ hmore
      rw [hrest]
      exact tokensEnd_nil _
    · rw [if_pos (ht.reads.lt_iff.mpr hrest)] at hr
      obtain ⟨u, hu, hr⟩ := Option.bind_eq_some_iff.mp hr
      by_cases hformat : TokenEnds (afterToken bs)
      · obtain ⟨u', hu', hucur, hutext, -, huready⟩ := ht.token (E := E) hformat hn
        obtain rfl := Option.some.inj (hu.symm.trans hu')
        have hfmt : formatOf (afterToken bs) = tokenOf (afterToken bs) := if_neg hrest
        rw [hfmt] at hmore
        have hargs := Classical.not_imp.mp fun h => hmore ⟨Or.inr hformat, h⟩
        exact huready.body_past hO hn hold ⟨hucur, hutext⟩ hargs.1 hargs.2 hr
      · obtain ⟨e, he, hpast⟩ := ht.token_past hold hformat hu
        exact ⟨e, Parser.body_scans hr he, hpast⟩
  · obtain ⟨e, he, hpast⟩ := hstart.token_past hold hpath hs
    exact ⟨e, Parser.rest_scans hr he, hpast⟩

/-- A line that begins with these bytes, with one byte all over behind them. -/
def lineOf (stale : UInt8) (bs : List UInt8) : ByteMemory.Memory := fun i => (bs[i]?).getD stale

theorem holds_lineOf (stale : UInt8) (bs : List UInt8) : Holds (lineOf stale bs) bs := by
  refine List.ext_getElem? fun i => ?_
  by_cases hi : i < bs.length
  · rw [getElem?_read hi, Nat.zero_add]
    unfold lineOf
    rw [List.getElem?_eq_getElem hi]
    rfl
  · rw [List.getElem?_eq_none (by rw [length_read]; omega), List.getElem?_eq_none (by omega)]

/-- **When the parser depends on the chunk only.** -/
theorem isolated_iff (hO : Refuses E.osc) {bs : List UInt8} (hne : bs ≠ [])
    (hn : bs.length ≤ lineSize) : Isolated E bs ↔ Ends E bs := by
  constructor
  · rintro ⟨decision, h⟩
    by_contra hends
    -- the line may be full of letters
    have hold : Parser.Stale (lineOf 0x61 bs) bs.length := by
      intro _
      unfold lineOf
      rw [List.getElem?_eq_none (le_refl _)]
      decide
    obtain ⟨scans, hrecv, hscans⟩ := h _ (holds_lineOf 0x61 bs)
    obtain ⟨e, he, hpast⟩ := recv_past hO hne hn hends (holds_lineOf 0x61 bs) hold hrecv
    obtain ⟨hle, hline⟩ := hscans e he
    rcases hpast with hpast | hpast
    · omega
    · omega
  · intro hends
    refine ⟨parse E bs, fun mem hmem => ?_⟩
    obtain ⟨scans, hrecv, hscans⟩ := recv_eq hO hne hn hends hmem
    refine ⟨scans, hrecv, fun e he => ?_⟩
    have hlt := hscans e he
    omega

instance TokenEnds.decidable (rest : List UInt8) : Decidable (TokenEnds rest) :=
  inferInstanceAs (Decidable (∃ b ∈ rest, isToken b = false))

instance TokensEnd.decidable : ∀ n rest, Decidable (TokensEnd n rest)
  | 0, _ => isTrue trivial
  | n + 1, rest =>
    have := TokensEnd.decidable n (afterToken rest)
    inferInstanceAs (Decidable (_ ∨ _ ∧ _))

instance Ends.decidable (bs : List UInt8) : Decidable (Ends E bs) :=
  TokensEnd.decidable _ _

/-- Decimal integers only. -/
def Sscanf.plain : Sscanf where
  int32 bs i :=
    let digits := bs.takeWhile fun b => 0x30 ≤ b && b ≤ 0x39
    if digits = [] then (if bs = [] then -1 else 0, i)
    else (1, Int32.ofNat (digits.foldl (fun n b => 10 * n + (b - 0x30).toNat) 0))
  float _ f := (0, f)
  hex8 _ b := (0, b)
  int64 _ h := (0, h)
  double _ d := (0, d)
  hex32Pair _ r := (0, r)
  hex8Four _ m := (0, m)

def Environment.plain : Environment where
  osc := LibOsc.plain
  checkMessage bs := bs.head? = some 0x2f && bs.length % 4 == 0
  sscanf := Sscanf.plain
  locals _ := ⟨0, 0, 0, 0, 0, 0, [0, 0, 0, 0]⟩
  mapped := lineSize + bufSize
  lineSize_le := le_refl _

theorem plain_refuses : Refuses Environment.plain.osc where
  set_null _ _ := rfl
  set_full item mem p h := by
    have hfull : ¬ p + item.plain.length ≤ bufSize := Nat.not_le.mpr h
    show (if p + item.plain.length ≤ bufSize then _ else _ : ByteMemory.Memory × Option ℕ).2 = none
    rw [if_neg hfull]

/-- `"/a i 7\n"`. -/
def sevenLine : List UInt8 := [0x2f, 0x61, 0x20, 0x69, 0x20, 0x37, 0x0a]

theorem isolated_iff_seven :
    parse Environment.plain sevenLine =
        ⟨some [0x2f, 0x61, 0, 0, 0x2c, 0x69, 0, 0, 0, 0, 0, 7], []⟩ ∧
      Isolated Environment.plain sevenLine :=
  ⟨by decide +kernel,
    (isolated_iff plain_refuses (by decide) (by decide)).mpr (by decide +kernel)⟩

/-- **The chunk `"/a"`**, in a line that has held nothing or `"/abc"` before. -/
theorem runs_on :
    (recv Environment.plain 2 (lineOf 0 [0x2f, 0x61])).map Prod.fst =
        some ⟨some [0x2f, 0x61, 0, 0, 0x2c, 0, 0, 0], []⟩ ∧
      (recv Environment.plain 2 (lineOf 0 [0x2f, 0x61, 0x62, 0x63])).map Prod.fst =
        some ⟨some [0x2f, 0x61, 0x62, 0x63, 0, 0, 0, 0, 0x2c, 0, 0, 0], []⟩ ∧
      ¬ Isolated Environment.plain [0x2f, 0x61] := by
  have hshort : (recv Environment.plain 2 (lineOf 0 [0x2f, 0x61])).map Prod.fst =
      some ⟨some [0x2f, 0x61, 0, 0, 0x2c, 0, 0, 0], []⟩ := by
    decide +kernel
  have hlong : (recv Environment.plain 2 (lineOf 0 [0x2f, 0x61, 0x62, 0x63])).map Prod.fst =
      some ⟨some [0x2f, 0x61, 0x62, 0x63, 0, 0, 0, 0, 0x2c, 0, 0, 0], []⟩ := by
    decide +kernel
  refine ⟨hshort, hlong, ?_⟩
  rintro ⟨decision, h⟩
  obtain ⟨scans, hrecv, -⟩ := h (lineOf 0 [0x2f, 0x61]) rfl
  obtain ⟨scans', hrecv', -⟩ := h (lineOf 0 [0x2f, 0x61, 0x62, 0x63]) rfl
  have hfirst := (congrArg (Option.map Prod.fst) hrecv).symm.trans hshort
  have hsecond := (congrArg (Option.map Prod.fst) hrecv').symm.trans hlong
  have hsame := hfirst.symm.trans hsecond
  revert hsame
  decide

end Tjost.Console
