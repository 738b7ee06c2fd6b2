import Tjost.Lua.Deserialize
import Tjost.Platform

/-!
# Replies and notifications

The packets of `tjost_uplink.c`. The uv loop runs the callbacks of the table
`methods` on the messages that left through an uplink; `_ports` and `_connections`
answer with a message, whose strings come from JACK. JACK's own thread announces a
change of the graph with a message of its own, which `osc_set_vararg` writes.

Both are built at the start of `buf_rx` and end at a pointer, which is `NULL` where
the packet does not fit. `_ports` and `_connections` write the format of their reply
themselves, one character for each string, and without a look at the end of the
buffer; the setters that follow find it exceeded. `Packet.build_of_fits`: a packet
that fits is built, byte by byte.
-/

open ByteMemory

namespace Tjost

variable (O : LibOsc)

/-- Setters one after the other, each at the pointer of the one before it. -/
def setAll : List OscItem → ByteMemory.Memory → Option ℕ → ByteMemory.Memory × Option ℕ
  | [], mem, ptr => (mem, ptr)
  | item :: items, mem, ptr =>
    let (mem, ptr) := O.set item mem ptr
    setAll items mem ptr

variable {O} in
/-- What fits is written. -/
theorem setAll_of_fits {items : List OscItem} {mem : ByteMemory.Memory} {p : ℕ}
    (hfit : p + (items.flatMap O.encode).length ≤ bufSize) :
    setAll O items mem (some p) =
      (write mem p (items.flatMap O.encode), some (p + (items.flatMap O.encode).length)) := by
  induction items generalizing mem p with
  | nil => exact Prod.ext (write_nil mem p).symm rfl
  | cons item items ih =>
    rw [List.flatMap_cons, List.length_append] at hfit
    have hitem : p + (O.encode item).length ≤ bufSize := by omega
    have hrest : p + (O.encode item).length + (items.flatMap O.encode).length ≤ bufSize := by
      omega
    unfold setAll
    rw [O.set_eq item mem p hitem]
    show setAll O items (write mem p (O.encode item)) (some (p + (O.encode item).length)) = _
    rw [ih hrest, List.flatMap_cons, write_append, List.length_append, Nat.add_assoc]

/-! ### Replies -/

namespace Uplink

/-- What the loops of `_ports` and `_connections` write for a format of `n` strings: a
comma, an `s` for each, and one to four zeros up to a multiple of four. -/
def formatBytes (n : ℕ) : List UInt8 :=
  let fmt : List UInt8 := 44 :: (List.replicate n 115 ++ [0])
  fmt ++ List.replicate ((4 - fmt.length % 4) % 4) 0

/-- The strings of a reply: those that are always there, and those of JACK's answer,
which is `none` for `NULL`. -/
def strings (front : List (List Char)) (answer : Option (List (List Char))) :
    List (List Char) :=
  front ++ answer.getD []

/-- The two branches of `_ports` and `_connections`. The strings `front` are in the reply
whether or not JACK has an answer. -/
def answerReply (path : List Char) (front : List (List Char))
    (answer : Option (List (List Char))) (bufRx : ByteMemory.Memory) :
    ByteMemory.Memory × Option ℕ :=
  match answer with
  | some names =>
    match O.set (.path path) bufRx (some 0) with
    -- the code goes on to write the format at `NULL`
    | (bufRx, none) => (bufRx, none)
    | (bufRx, some ptr) =>
      let fmt := formatBytes (front ++ names).length
      setAll O ((front ++ names).map .string) (write bufRx ptr fmt) (some (ptr + fmt.length))
  | none =>
    setAll O (.path path :: .fmt (front.map fun _ => 's') :: front.map .string) bufRx (some 0)

/-- `_ports`, up to the push. -/
def ports (ports : Option (List (List Char))) (bufRx : ByteMemory.Memory) :
    ByteMemory.Memory × Option ℕ :=
  answerReply O "/jack/ports".toList [] ports bufRx

/-- `_connections`, up to the push. -/
def connections (portName : List Char) (connections : Option (List (List Char)))
    (bufRx : ByteMemory.Memory) : ByteMemory.Memory × Option ℕ :=
  answerReply O "/jack/connections".toList [portName] connections bufRx

/-- A query to JACK that is answered. -/
inductive Query
  | ports
  | connections (portName : List Char)
  deriving DecidableEq, Repr

/-- What a callback of the table asks JACK for. -/
inductive Request
  | connect (portA portB : List Char)
  | disconnect (portA portB : List Char)
  | query (q : Query)
  deriving DecidableEq, Repr

/-- The query, if that is the request. -/
def Request.query? : Request → Option Query
  | .query q => some q
  | _ => none

variable {O} in
/-- `methods`: the path, the format and the callback, which reads its arguments. -/
def methods (G : OscGetters O) : List (List Char × List Char × (List UInt8 → Request)) :=
  [("/jack/connect".toList, "ss".toList, fun buf =>
      let (portA, ptr) := G.getString buf
      .connect portA (G.getString ptr).1),
    ("/jack/disconnect".toList, "ss".toList, fun buf =>
      let (portA, ptr) := G.getString buf
      .disconnect portA (G.getString ptr).1),
    ("/jack/ports".toList, [], fun _ => .query .ports),
    ("/jack/connections".toList, "s".toList, fun buf =>
      .query (.connections (G.getString buf).1))]

variable {O} in
/-- The callback that `osc_dispatch_method` runs for a message: the first one with its
path and format. It returns `1`, which ends the search. -/
def request (G : OscGetters O) (msg : OscMessage) : Option Request :=
  ((methods G).find? fun m => m.1 == msg.path && m.2.1 == msg.fmt).map fun m => m.2.2 msg.args

variable {O} in
/-- The query that a message is. -/
def query (G : OscGetters O) (msg : OscMessage) : Option Query :=
  (request G msg).bind Request.query?

/-! ### Notifications -/

/-- A change that JACK announces through one of the callbacks that `_tjost_init` sets. -/
inductive Notification
  | clientRegistration (name : List Char) (state : Bool)
  | portRegistration (name : List Char) (state : Bool)
  | portConnect (nameA nameB : List Char) (state : Bool)
  | graphOrder
  deriving DecidableEq, Repr

/-- The arguments of `osc_set_vararg` in `tjost_client_registration`,
`tjost_port_registration`, `tjost_port_connect` and `tjost_graph_order`. -/
def Notification.items : Notification → List OscItem
  | .clientRegistration name state =>
    [.path "/jack/client/registration".toList, .fmt (if state then "sT" else "sF").toList,
      .string name]
  | .portRegistration name state =>
    [.path "/jack/port/registration".toList, .fmt (if state then "sT" else "sF").toList,
      .string name]
  | .portConnect nameA nameB state =>
    [.path "/jack/port/connect".toList, .fmt (if state then "ssT" else "ssF").toList,
      .string nameA, .string nameB]
  | .graphOrder => [.path "/jack/graph/order".toList, .fmt []]

/-! ### Packets -/

/-- What a packet for `tjost_uplink_rx_push` is: the reply to a query that left through
an uplink, with JACK's answer, or a notification. -/
inductive Packet
  | reply (uplink : ModulePtr) (q : Query) (answer : Option (List (List Char)))
  | notification (n : Notification)
  deriving DecidableEq, Repr

namespace Packet

/-- The `module` that it is pushed with: a reply goes back as unicast. -/
def module : Packet → ModulePtr
  | .reply uplink _ _ => uplink
  | .notification _ => moduleBroadcast

/-- The query that it answers, and the uplink through which that left. -/
def query? : Packet → Option (ModulePtr × Query)
  | .reply uplink q _ => some (uplink, q)
  | .notification _ => none

/-- Build the packet at the start of `buf_rx`. -/
def build : Packet → ByteMemory.Memory → ByteMemory.Memory × Option ℕ
  | .reply _ .ports answer, bufRx => ports O answer bufRx
  | .reply _ (.connections portName) answer, bufRx => connections O portName answer bufRx
  | .notification n, bufRx => setAll O n.items bufRx (some 0)

/-- The bytes of a reply. -/
def replyBytes (path : List Char) (front : List (List Char))
    (answer : Option (List (List Char))) : List UInt8 :=
  O.encode (.path path) ++
    (match answer with
      | some names => formatBytes (front ++ names).length
      | none => O.encode (.fmt (front.map fun _ => 's'))) ++
    ((strings front answer).map OscItem.string).flatMap O.encode

/-- The bytes of the whole packet. -/
def bytes : Packet → List UInt8
  | .reply _ .ports answer => replyBytes O "/jack/ports".toList [] answer
  | .reply _ (.connections portName) answer =>
    replyBytes O "/jack/connections".toList [portName] answer
  | .notification n => n.items.flatMap O.encode

variable {O}

theorem answerReply_of_fits {path : List Char} {front : List (List Char)}
    {answer : Option (List (List Char))} {bufRx : ByteMemory.Memory}
    (hfit : (replyBytes O path front answer).length ≤ bufSize) :
    answerReply O path front answer bufRx =
      (write bufRx 0 (replyBytes O path front answer),
        some (replyBytes O path front answer).length) := by
  cases answer with
  | none =>
    have hitems : replyBytes O path front none =
        (OscItem.path path :: OscItem.fmt (front.map fun _ => 's') ::
          front.map OscItem.string).flatMap O.encode := by
      simp only [replyBytes, strings, Option.getD_none, List.append_nil, List.flatMap_cons,
        List.append_assoc]
    rw [hitems] at hfit ⊢
    unfold answerReply
    simp only
    rw [setAll_of_fits (by rwa [Nat.zero_add]), Nat.zero_add]
  | some names =>
    set fmt := formatBytes (front ++ names).length with hfmt
    set rest := ((front ++ names).map OscItem.string).flatMap O.encode with hrest
    have hbytes : replyBytes O path front (some names) = O.encode (.path path) ++ fmt ++ rest := by
      rfl
    rw [hbytes] at hfit ⊢
    rw [List.length_append, List.length_append] at hfit
    have hpath : 0 + (O.encode (.path path)).length ≤ bufSize := by omega
    unfold answerReply
    simp only
    rw [O.set_eq (.path path) bufRx 0 hpath]
    simp only [Nat.zero_add]
    rw [← hfmt, setAll_of_fits hfit, ← hrest]
    refine Prod.ext ?_ ?_
    · -- three writes in a row are one
      rw [List.append_assoc, write_append, write_append, Nat.zero_add]
    · simp only [List.length_append]

/-- **A packet that fits is built.** -/
theorem build_of_fits {p : Packet} {bufRx : ByteMemory.Memory}
    (hfit : (p.bytes O).length ≤ bufSize) :
    p.build O bufRx = (write bufRx 0 (p.bytes O), some (p.bytes O).length) := by
  cases p with
  | notification n =>
    have hfrom : 0 + (n.items.flatMap O.encode).length ≤ bufSize := by rwa [Nat.zero_add]
    show setAll O n.items bufRx (some 0) = _
    rw [setAll_of_fits hfrom, Nat.zero_add]
    rfl
  | reply uplink q answer =>
    cases q with
    | ports => exact answerReply_of_fits hfit
    | connections portName => exact answerReply_of_fits hfit

end Packet

end Uplink

end Tjost
