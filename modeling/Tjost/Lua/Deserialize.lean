import Tjost.Lua.Interface

/-!
# The deserialiser

`pushArg` is `_push`, which reads an argument off a message and pushes it as a Lua
value, and `deserialize` is `_deserialize`: what the responder of a module is called
with for a message. Integers become doubles; the types without a payload still push
a value.

The getters of libosc are those of the setters: a value that has been encoded is read
again (`OscGetters`). This is so for what an encoding can hold (`OscItem.Valid`).
-/

open BinaryFloat

namespace Tjost

/-- A C string: no character is `0`, and each is a byte. -/
def IsCString (s : List Char) : Prop := ∀ c ∈ s, c.toNat ≠ 0 ∧ c.toNat < 256

instance (s : List Char) : Decidable (IsCString s) := List.decidableBAll _ _

/-- The values that an encoding holds. -/
def OscItem.Valid : OscItem → Prop
  | .path s | .fmt s | .string s | .symbol s => IsCString s
  | .blob b => b.length < 2 ^ 31
  | .midi m => m.length = 4
  | _ => True

/-- The getters. Each answers a value and the bytes behind it. -/
structure OscGetters (O : LibOsc) where
  getInt32 : List UInt8 → Int32 × List UInt8
  getFloat : List UInt8 → UInt32 × List UInt8
  getString : List UInt8 → List Char × List UInt8
  getBlob : List UInt8 → List UInt8 × List UInt8
  getInt64 : List UInt8 → Int64 × List UInt8
  getDouble : List UInt8 → UInt64 × List UInt8
  getTimetag : List UInt8 → UInt64 × List UInt8
  getSymbol : List UInt8 → List Char × List UInt8
  getChar : List UInt8 → Int8 × List UInt8
  getMidi : List UInt8 → List UInt8 × List UInt8
  getInt32_encode : ∀ i rest, getInt32 (O.encode (.int32 i) ++ rest) = (i, rest)
  getFloat_encode : ∀ f rest, getFloat (O.encode (.float f) ++ rest) = (f, rest)
  getString_encode : ∀ s rest, IsCString s → getString (O.encode (.string s) ++ rest) = (s, rest)
  getBlob_encode : ∀ b rest, b.length < 2 ^ 31 → getBlob (O.encode (.blob b) ++ rest) = (b, rest)
  getInt64_encode : ∀ h rest, getInt64 (O.encode (.int64 h) ++ rest) = (h, rest)
  getDouble_encode : ∀ d rest, getDouble (O.encode (.double d) ++ rest) = (d, rest)
  getTimetag_encode : ∀ t rest, getTimetag (O.encode (.timetag t) ++ rest) = (t, rest)
  getSymbol_encode : ∀ s rest, IsCString s → getSymbol (O.encode (.symbol s) ++ rest) = (s, rest)
  getChar_encode : ∀ c rest, getChar (O.encode (.char c) ++ rest) = (c, rest)
  getMidi_encode : ∀ m rest, m.length = 4 → getMidi (O.encode (.midi m) ++ rest) = (m, rest)

/-- `INT32_MAX`, which is pushed for a bang. -/
def int32Max : ℤ := 2 ^ 31 - 1

variable {O : LibOsc} (G : OscGetters O)

/-- `_push`: the value that is pushed, the bytes behind the argument, and the report
of an invalid type, for which nothing is pushed. -/
def pushArg (type : Char) (ptr : List UInt8) : Option LuaValue × List UInt8 × List String :=
  match type with
  | 'i' =>
    let (i, ptr) := G.getInt32 ptr
    (some (.number (binary64.ofInt i.toInt)), ptr, [])
  | 'f' =>
    let (f, ptr) := G.getFloat ptr
    (some (.number ((binary32.decode f.toNat).convert binary64)), ptr, [])
  | 's' =>
    let (s, ptr) := G.getString ptr
    (some (.string s), ptr, [])
  | 'b' =>
    let (b, ptr) := G.getBlob ptr
    (some (.blob b), ptr, [])
  | 'h' =>
    let (h, ptr) := G.getInt64 ptr
    (some (.number (binary64.ofInt h.toInt)), ptr, [])
  | 'd' =>
    let (d, ptr) := G.getDouble ptr
    (some (.number (binary64.decode d.toNat)), ptr, [])
  | 't' =>
    let (t, ptr) := G.getTimetag ptr
    (some (.number (binary64.ofInt t.toNat)), ptr, [])
  | 'T' => (some (.boolean true), ptr, [])
  | 'F' => (some (.boolean false), ptr, [])
  | 'I' => (some (.number (binary64.ofInt int32Max)), ptr, [])
  | 'N' => (some .nil, ptr, [])
  | 'S' =>
    let (s, ptr) := G.getSymbol ptr
    (some (.string s), ptr, [])
  | 'c' =>
    let (c, ptr) := G.getChar ptr
    (some (.number (binary64.ofInt c.toInt)), ptr, [])
  | 'm' =>
    let (m, ptr) := G.getMidi ptr
    (some (.midi (m.take 4)), ptr, [])
  | _ => (none, ptr, ["Lua: invalid argument type '" ++ type.toString ++ "'"])

/-- The loop over the types. -/
def pushArgs : List Char → List UInt8 → List LuaValue × List String
  | [], _ => ([], [])
  | type :: fmt, ptr =>
    let (v, ptr, messages) := pushArg G type ptr
    let rest := pushArgs fmt ptr
    (v.toList ++ rest.1, messages ++ rest.2)

/-- `_deserialize`: what the responder is called with, and the reports. -/
def deserialize (time : NFrames) (path fmt : List Char) (buf : List UInt8) :
    List LuaValue × List String :=
  let args := pushArgs G fmt buf
  (.number (binary64.ofInt time.toNat) :: .string path :: .string fmt :: args.1, args.2)

/-! ### Plain getters -/

/-- A big-endian number of `n` bytes. -/
def getBE (n : ℕ) (ptr : List UInt8) : ℕ × List UInt8 := (Bytes.ofBE (ptr.take n), ptr.drop n)

theorem getBE_toBE {n x : ℕ} (hx : x < 256 ^ n) (rest : List UInt8) :
    getBE n (Bytes.toBE n x ++ rest) = (x, rest) := by
  have hlen := Bytes.length_toBE n x
  unfold getBE
  rw [List.take_left' hlen, List.drop_left' hlen, Bytes.ofBE_toBE, Nat.mod_eq_of_lt hx]

/-- A string and its padding. -/
def getPadded (ptr : List UInt8) : List Char × List UInt8 :=
  let bytes := ptr.takeWhile (· ≠ 0)
  (bytes.map fun b => Char.ofNat b.toNat, ptr.drop (bytes.length + (4 - bytes.length % 4)))

theorem getPadded_oscPad {s : List Char} (hs : IsCString s) (rest : List UInt8) :
    getPadded (oscPad s ++ rest) = (s, rest) := by
  have hpos : 0 < 4 - s.length % 4 := by omega
  obtain ⟨k, hk⟩ := Nat.exists_eq_succ_of_ne_zero hpos.ne'
  have hne : ∀ b ∈ s.map (fun c => UInt8.ofNat c.toNat), decide (b ≠ 0) = true := by
    intro b hb
    obtain ⟨c, hc, rfl⟩ := List.mem_map.mp hb
    obtain ⟨h0, h256⟩ := hs c hc
    refine decide_eq_true ?_
    intro hzero
    have htoNat := congrArg UInt8.toNat hzero
    rw [UInt8.toNat_ofNat', Nat.mod_eq_of_lt h256] at htoNat
    exact h0 htoNat
  have hsplit : oscPad s ++ rest =
      s.map (fun c => UInt8.ofNat c.toNat) ++ (0 :: (List.replicate k 0 ++ rest)) := by
    unfold oscPad
    rw [hk, List.replicate_succ, List.append_assoc, List.cons_append]
  have htake : (oscPad s ++ rest).takeWhile (· ≠ 0) = s.map fun c => UInt8.ofNat c.toNat := by
    rw [hsplit, List.takeWhile_append_of_pos hne, List.takeWhile_cons_of_neg (by decide),
      List.append_nil]
  have hpad : (oscPad s).length = s.length + (4 - s.length % 4) := by simp [oscPad]
  unfold getPadded
  simp only [htake, List.length_map, List.map_map]
  rw [← hpad, List.drop_left]
  congr 1
  refine (List.map_congr_left ?_).trans (List.map_id s)
  intro c hc
  have h256 := (hs c hc).2
  have hbyte : (UInt8.ofNat c.toNat).toNat = c.toNat := by
    rw [UInt8.toNat_ofNat', Nat.mod_eq_of_lt h256]
  change Char.ofNat (UInt8.ofNat c.toNat).toNat = c
  rw [hbyte, Char.ofNat_toNat]

/-- A blob and its padding. -/
def getPlainBlob (ptr : List UInt8) : List UInt8 × List UInt8 :=
  let (size, ptr) := getBE 4 ptr
  (ptr.take size, ptr.drop (size + (4 - size % 4) % 4))

theorem getPlainBlob_plain {b : List UInt8} (hb : b.length < 2 ^ 31) (rest : List UInt8) :
    getPlainBlob ((OscItem.blob b).plain ++ rest) = (b, rest) := by
  have hsize := getBE_toBE (n := 4) (x := b.length) (by omega)
    (b ++ (List.replicate ((4 - b.length % 4) % 4) 0 ++ rest))
  have hassoc : (OscItem.blob b).plain ++ rest = Bytes.toBE 4 b.length ++
      (b ++ (List.replicate ((4 - b.length % 4) % 4) 0 ++ rest)) := by
    simp only [OscItem.plain, List.append_assoc]
  unfold getPlainBlob
  rw [hassoc, hsize]
  refine Prod.ext List.take_left ?_
  change List.drop (b.length + (4 - b.length % 4) % 4)
    (b ++ (List.replicate ((4 - b.length % 4) % 4) 0 ++ rest)) = rest
  rw [← List.append_assoc]
  exact List.drop_left' (by simp)

/-- The getters of the plain encodings. -/
def OscGetters.plain : OscGetters LibOsc.plain where
  getInt32 ptr := let (x, ptr) := getBE 4 ptr; ((UInt32.ofNat x).toInt32, ptr)
  getFloat ptr := let (x, ptr) := getBE 4 ptr; (UInt32.ofNat x, ptr)
  getString := getPadded
  getBlob := getPlainBlob
  getInt64 ptr := let (x, ptr) := getBE 8 ptr; ((UInt64.ofNat x).toInt64, ptr)
  getDouble ptr := let (x, ptr) := getBE 8 ptr; (UInt64.ofNat x, ptr)
  getTimetag ptr := let (x, ptr) := getBE 8 ptr; (UInt64.ofNat x, ptr)
  getSymbol := getPadded
  getChar ptr := let (x, ptr) := getBE 4 ptr; ((UInt8.ofNat x).toInt8, ptr)
  getMidi ptr := (ptr.take 4, ptr.drop 4)
  getInt32_encode i rest := by
    simp only [LibOsc.plain, OscItem.plain, getBE_toBE (n := 4) i.toUInt32.toNat_lt,
      UInt32.ofNat_toNat, Int32.toInt32_toUInt32]
  getFloat_encode f rest := by
    simp only [LibOsc.plain, OscItem.plain, getBE_toBE (n := 4) f.toNat_lt, UInt32.ofNat_toNat]
  getString_encode s rest hs := getPadded_oscPad hs rest
  getBlob_encode b rest hb := getPlainBlob_plain hb rest
  getInt64_encode h rest := by
    simp only [LibOsc.plain, OscItem.plain, getBE_toBE (n := 8) h.toUInt64.toNat_lt,
      UInt64.ofNat_toNat, Int64.toInt64_toUInt64]
  getDouble_encode d rest := by
    simp only [LibOsc.plain, OscItem.plain, getBE_toBE (n := 8) d.toNat_lt, UInt64.ofNat_toNat]
  getTimetag_encode t rest := by
    simp only [LibOsc.plain, OscItem.plain, getBE_toBE (n := 8) t.toNat_lt, UInt64.ofNat_toNat]
  getSymbol_encode s rest hs := getPadded_oscPad hs rest
  getChar_encode c rest := by
    have hlt : c.toUInt8.toNat < 256 ^ 4 := c.toUInt8.toNat_lt.trans (by decide)
    simp only [LibOsc.plain, OscItem.plain, getBE_toBE hlt, UInt8.ofNat_toNat, Int8.toInt8_toUInt8]
  getMidi_encode m rest hm := by
    simp only [LibOsc.plain, OscItem.plain, List.take_left' hm, List.drop_left' hm]

end Tjost
