import Tjost.Uplink.Replies

/-!
# Lists of ports

What `_ports` and `_connections` of `tjost_uplink.c` push for a list of names of any length. The
setters of libosc look at the end of `buf_rx`; the loop that writes the format between them does
not. So a message that is too long is not pushed, but the format has been written by then.

`Uplink.listed_iff`: what is pushed is the message with all names, or nothing if that does not
fit, and no byte behind `buf_rx` is written, if and only if the path and the format fit into
`buf_rx`, or JACK has no list at all.
-/

open ByteMemory

namespace Tjost

/-- The setters of the strings that a reply is made of write padded strings, and write nothing
for `NULL` and where their string does not fit. -/
structure LibOsc.Padded (O : LibOsc) : Prop where
  path : ∀ s, O.encode (.path s) = oscPad s
  fmt : ∀ s, O.encode (.fmt s) = oscPad (',' :: s)
  string : ∀ s, O.encode (.string s) = oscPad s
  set_null : ∀ item mem, O.set item mem none = (mem, none)
  set_full : ∀ item mem p, bufSize < p + (O.encode item).length →
    O.set item mem (some p) = (mem, none)

namespace Uplink

/-- The length of a string with its padding. -/
theorem length_oscPad (s : List Char) : (oscPad s).length = oscPadded s.length := by
  unfold oscPad oscPadded
  simp only [List.length_append, List.length_map, List.length_replicate]
  omega

variable (O : LibOsc)

/-- The path of a reply, and the strings in front of JACK's list. -/
def Query.path : Query → List Char
  | .ports => "/jack/ports".toList
  | .connections _ => "/jack/connections".toList

def Query.front : Query → List (List Char)
  | .ports => []
  | .connections portName => [portName]

/-- The message that a query is to be answered with. -/
def Query.message (q : Query) (answer : Option (List (List Char))) : List UInt8 :=
  let names := strings q.front answer
  oscPad q.path ++ oscPad (',' :: names.map fun _ => 's') ++ names.flatMap oscPad

variable (uplink : ModulePtr)

/-- The memory behind a callback, and what it has pushed to the uplink. -/
def Query.push (q : Query) (answer : Option (List (List Char))) (bufRx : ByteMemory.Memory) :
    ByteMemory.Memory × Option (List UInt8) :=
  let out := (Packet.reply uplink q answer).build O bufRx
  (out.1, out.2.map (read out.1 0))

/-- **The message with all names, or nothing**, and no byte behind `buf_rx`. -/
def Query.Listed (q : Query) (answer : Option (List (List Char))) : Prop :=
  ∀ bufRx : ByteMemory.Memory,
    (q.push O uplink answer bufRx).2 =
        (if (q.message answer).length ≤ bufSize then some (q.message answer) else none) ∧
      ∀ i, bufSize ≤ i → (q.push O uplink answer bufRx).1 i = bufRx i

/-- The path and the format of JACK's list fit. -/
def Query.FormatFits (q : Query) (answer : Option (List (List Char))) : Prop :=
  ∀ names ∈ answer,
    oscPadded q.path.length + oscPadded ((q.front ++ names).length + 1) ≤ bufSize

instance (q : Query) (answer : Option (List (List Char))) : Decidable (q.FormatFits answer) :=
  match answer with
  | none => isTrue fun _ h => nomatch h
  | some names =>
    decidable_of_iff
      (oscPadded q.path.length + oscPadded ((q.front ++ names).length + 1) ≤ bufSize)
      ⟨fun h _ hn => Option.some.inj hn ▸ h, fun h => h names rfl⟩

section PortLists

variable {O} {uplink} {q : Query} {answer : Option (List (List Char))} {mem : ByteMemory.Memory}

/-- The format that the loops write is the one `osc_set_fmt` would write. -/
theorem formatBytes_eq (names : List (List Char)) :
    formatBytes names.length = oscPad (',' :: names.map fun _ => 's') := by
  have hletters : (',' :: names.map fun _ => 's').map (fun c => UInt8.ofNat c.toNat) =
      44 :: List.replicate names.length 115 := by
    rw [List.map_cons, List.map_map]
    refine congrArg (44 :: ·) (List.eq_replicate_iff.mpr ⟨List.length_map _, ?_⟩)
    intro b hb
    obtain ⟨_, -, rfl⟩ := List.mem_map.mp hb
    rfl
  -- the terminator is the first of the zeros
  have hzeros : 4 - (names.length + 1) % 4 = 1 + (4 - (names.length + 2) % 4) % 4 := by omega
  have hlen : (44 :: (List.replicate names.length 115 ++ [0]) : List UInt8).length =
      names.length + 2 := by
    rw [List.length_cons, List.length_append, List.length_replicate]
    rfl
  unfold formatBytes oscPad
  simp only
  rw [hletters, hlen, List.length_cons, List.length_map, hzeros, List.replicate_add]
  simp only [List.cons_append, List.append_assoc, List.replicate_one]

theorem build_reply (bufRx : ByteMemory.Memory) :
    (Packet.reply uplink q answer).build O bufRx = answerReply O q.path q.front answer bufRx := by
  cases q <;> rfl

/-- The lengths of the three parts of a message. -/
theorem length_message (names : List (List Char)) :
    (q.message (some names)).length =
      oscPadded q.path.length + oscPadded ((q.front ++ names).length + 1) +
        ((q.front ++ names).flatMap oscPad).length := by
  unfold Query.message strings
  simp only [Option.getD_some, List.length_append, length_oscPad, List.length_cons,
    List.length_map]

variable (hO : O.Padded)
include hO

theorem strings_flatMap (names : List (List Char)) :
    (names.map OscItem.string).flatMap O.encode = names.flatMap oscPad := by
  rw [List.flatMap_map]
  exact List.flatMap_congr fun s _ => hO.string s

theorem setAll_null (items : List OscItem) : setAll O items mem none = (mem, none) := by
  induction items with
  | nil => rfl
  | cons item items ih =>
    unfold setAll
    rw [hO.set_null]
    exact ih

/-- **What does not fit**: the setters in front are within the buffer, and the answer is
`NULL`. -/
theorem setAll_of_not_fits {items : List OscItem} {p : ℕ} (hp : p ≤ bufSize ∨ items ≠ [])
    (hfull : bufSize < p + (items.flatMap O.encode).length) :
    (setAll O items mem (some p)).2 = none ∧
      ∀ i, bufSize ≤ i → (setAll O items mem (some p)).1 i = mem i := by
  induction items generalizing mem p with
  | nil =>
    rw [List.flatMap_nil, List.length_nil, Nat.add_zero] at hfull
    rcases hp with hle | hne
    · omega
    · exact absurd rfl hne
  | cons item items ih =>
    rw [List.flatMap_cons, List.length_append] at hfull
    unfold setAll
    by_cases hitem : p + (O.encode item).length ≤ bufSize
    · -- this setter stays in the buffer, and one behind it does not fit
      rw [O.set_eq item mem p hitem]
      obtain ⟨hnull, hframe⟩ := @ih (write mem p (O.encode item)) (p + (O.encode item).length)
        (Or.inl hitem) (by omega)
      refine ⟨hnull, fun i hi => (hframe i hi).trans ?_⟩
      exact write_of_ge (hitem.trans hi)
    · -- the first one that does not fit, behind which all are given `NULL`
      rw [hO.set_full item mem p (Nat.not_le.mp hitem)]
      simp only
      rw [setAll_null hO]
      exact ⟨rfl, fun _ _ => rfl⟩

theorem replyBytes_eq : Packet.replyBytes O q.path q.front answer = q.message answer := by
  unfold Packet.replyBytes Query.message
  simp only
  rw [strings_flatMap hO, hO.path]
  congr 2
  cases answer with
  | none =>
    show O.encode (.fmt (q.front.map fun _ => 's')) = _
    unfold strings
    rw [hO.fmt, Option.getD_none, List.append_nil]
  | some names =>
    -- the format of the loop
    exact formatBytes_eq (q.front ++ names)

/-- **The path fits**, so the format of JACK's list is written behind it. -/
theorem build_some (names : List (List Char)) (bufRx : ByteMemory.Memory) :
    (Packet.reply uplink q (some names)).build O bufRx =
      let fmt := oscPad (',' :: (q.front ++ names).map fun _ => 's')
      setAll O ((q.front ++ names).map .string) (write bufRx 0 (oscPad q.path ++ fmt))
        (some ((oscPad q.path).length + fmt.length)) := by
  have hpath : 0 + (O.encode (.path q.path)).length ≤ bufSize := by
    rw [hO.path, length_oscPad, Nat.zero_add]
    cases q with
    | ports => decide
    | connections portName => exact (by decide : oscPadded 17 ≤ bufSize)
  rw [build_reply]
  unfold answerReply
  simp only
  rw [O.set_eq (.path q.path) bufRx 0 hpath, hO.path, formatBytes_eq (q.front ++ names)]
  simp only [Nat.zero_add]
  rw [write_append, Nat.zero_add]

/-- A message that fits is pushed. -/
theorem push_of_fits {bufRx : ByteMemory.Memory} (hfit : (q.message answer).length ≤ bufSize) :
    (q.push O uplink answer bufRx).2 = some (q.message answer) ∧
      ∀ i, bufSize ≤ i → (q.push O uplink answer bufRx).1 i = bufRx i := by
  have hreply := @Packet.answerReply_of_fits O q.path q.front answer bufRx
    (by rwa [replyBytes_eq hO])
  unfold Query.push
  rw [build_reply, hreply, replyBytes_eq hO]
  simp only
  refine ⟨congrArg some (read_write bufRx 0 _), fun i hi => ?_⟩
  exact write_of_ge ((Nat.zero_add _).trans_le (hfit.trans hi))

/-- One that does not fit is not pushed, with the format in the buffer. -/
theorem push_of_not_fits {bufRx : ByteMemory.Memory} {names : List (List Char)}
    (hfull : bufSize < (q.message (some names)).length)
    (hfmt : oscPadded q.path.length + oscPadded ((q.front ++ names).length + 1) ≤ bufSize) :
    (q.push O uplink (some names) bufRx).2 = none ∧
      ∀ i, bufSize ≤ i → (q.push O uplink (some names) bufRx).1 i = bufRx i := by
  rw [length_message] at hfull
  have hlen : (oscPad q.path).length + (oscPad (',' :: (q.front ++ names).map fun _ => 's')).length
      = oscPadded q.path.length + oscPadded ((q.front ++ names).length + 1) := by
    rw [length_oscPad, length_oscPad, List.length_cons, List.length_map]
  have hitems := strings_flatMap hO (q.front ++ names)
  unfold Query.push
  rw [build_some hO names bufRx]
  simp only
  obtain ⟨hnull, hframe⟩ := @setAll_of_not_fits O
    (write bufRx 0 (oscPad q.path ++ oscPad (',' :: (q.front ++ names).map fun _ => 's'))) hO
    ((q.front ++ names).map .string) _ (Or.inl (hlen.trans_le hfmt))
    (by rw [hlen, hitems]; exact hfull)
  rw [hnull]
  refine ⟨rfl, fun i hi => (hframe i hi).trans ?_⟩
  refine write_of_ge ?_
  rw [Nat.zero_add, List.length_append, hlen]
  exact hfmt.trans hi

/-- **Where the format is too long**, the byte behind the buffer is one of the format. -/
theorem push_overruns {names : List (List Char)}
    (hlong : bufSize < oscPadded q.path.length + oscPadded ((q.front ++ names).length + 1)) :
    ∃ b, ∀ bufRx, (q.push O uplink (some names) bufRx).1 bufSize = b := by
  set bytes := oscPad q.path ++ oscPad (',' :: (q.front ++ names).map fun _ => 's') with hbytes
  have hlen : bytes.length =
      oscPadded q.path.length + oscPadded ((q.front ++ names).length + 1) := by
    rw [hbytes, List.length_append, length_oscPad, length_oscPad, List.length_cons,
      List.length_map]
  have hlt : bufSize < bytes.length := hlong.trans_eq hlen.symm
  refine ⟨bytes[bufSize], fun bufRx => ?_⟩
  have hwrite : write bufRx 0 bytes bufSize = bytes[bufSize] := by
    unfold write
    rw [if_pos (Nat.zero_le _), Nat.sub_zero, List.getElem?_eq_getElem hlt]
    rfl
  -- the names come behind the end of the buffer, where nothing is written
  have hrest : ∀ items : List OscItem, ∀ mem : ByteMemory.Memory,
      (setAll O items mem (some bytes.length)).1 = mem := by
    rintro (_ | ⟨item, items⟩) mem
    · rfl
    · unfold setAll
      rw [hO.set_full item mem _ (hlt.trans_le (Nat.le_add_right _ _))]
      simp only
      rw [setAll_null hO]
  unfold Query.push
  rw [build_some hO names bufRx]
  simp only
  rw [← hbytes, ← List.length_append, ← hbytes, hrest, hwrite]

/-- The same byte is what is there before only by chance. -/
theorem not_listed {names : List (List Char)}
    (hlong : bufSize < oscPadded q.path.length + oscPadded ((q.front ++ names).length + 1)) :
    ¬ q.Listed O uplink (some names) := by
  intro h
  obtain ⟨b, hb⟩ := @push_overruns O uplink q hO names hlong
  -- memory in which that byte is another one
  have hsame := (h fun _ => b + 1).2 bufSize (le_refl _)
  rw [hb] at hsame
  exact absurd (UInt8.add_eq_left.mp hsame.symm) (by decide)

variable (uplink q answer) in
/-- **When a list of ports is pushed as it should be.** -/
theorem listed_iff : q.Listed O uplink answer ↔ q.FormatFits answer := by
  constructor
  · intro h names hnames
    obtain rfl : answer = some names := hnames
    by_contra hlong
    exact not_listed hO (Nat.not_le.mp hlong) h
  · intro h bufRx
    by_cases hfit : (q.message answer).length ≤ bufSize
    · rw [if_pos hfit]
      exact push_of_fits hO hfit
    · rw [if_neg hfit]
      cases answer with
      | some names => exact push_of_not_fits hO (Nat.not_le.mp hfit) (h names rfl)
      | none =>
        -- the setters look at the end for all parts
        set items := OscItem.path q.path :: OscItem.fmt (q.front.map fun _ => 's') ::
          q.front.map OscItem.string with hitems
        have hbytes : items.flatMap O.encode = q.message none := by
          unfold Query.message strings
          rw [hitems, List.flatMap_cons, List.flatMap_cons, strings_flatMap hO, hO.path, hO.fmt,
            Option.getD_none, List.append_nil, List.append_assoc]
        obtain ⟨hnull, hframe⟩ := @setAll_of_not_fits O bufRx hO items 0 (Or.inl (Nat.zero_le _))
          (by rw [hbytes, Nat.zero_add]; exact Nat.not_le.mp hfit)
        unfold Query.push
        rw [build_reply]
        show (setAll O items bufRx (some 0)).2.map _ = none ∧ _
        rw [hnull]
        exact ⟨rfl, hframe⟩

end PortLists

theorem plain_padded : LibOsc.plain.Padded where
  path _ := rfl
  fmt _ := rfl
  string _ := rfl
  set_null _ _ := rfl
  set_full _ _ _ h := if_neg (Nat.not_le.mpr h)

/-- The connections of a port. -/
theorem listed_iff_connections :
    (Query.connections "a:out".toList).Listed LibOsc.plain 7
      (some ["b:in".toList, "c:in".toList]) :=
  (listed_iff 7 (.connections "a:out".toList) (some ["b:in".toList, "c:in".toList])
    plain_padded).mpr (by decide)

/-- **A server with 16371 ports.** The format ends four bytes behind the buffer. -/
theorem ports_overrun :
    ¬ Query.ports.Listed LibOsc.plain 7 (some (List.replicate 16371 "a:b".toList)) := by
  have hlen : ∀ names : List (List Char), (Query.ports.front ++ names).length = names.length :=
    fun _ => rfl
  have hpath : oscPadded Query.ports.path.length = 12 := rfl
  refine not_listed plain_padded ?_
  rw [hlen, List.length_replicate, hpath]
  decide

end Uplink

end Tjost
