import Tjost.Library.Transition
import Tjost.Lua.Packets
import Tjost.Host.Queues

/-!
# The stack of the Lua interpreter

`tjost_lua_deserialize` runs the responder of a module for every message of a packet, and at the
beginning and the end of every bundle in it. Each time it pushes the responder and its arguments,
one for every letter of the format, and calls `lua_pcall`, which takes them off again.

A responder that raises an error leaves its value on the stack, where nobody takes it off
(`LuaStack.pcallReport_ran`). `LuaStack.balanced_iff`: along a run of the host, every dispatch of
a packet leaves the stack as high as it has found it, and so does every cycle, if and only if no
callback fails.
-/

open BinaryFloat Transition

namespace Tjost

namespace LuaStack

/-- What a slot of the stack holds. -/
inductive Slot
  /-- A light userdata, which is the key of a module in the registry. -/
  | lightuserdata (module : ModulePtr)
  /-- What the registry has for a module. -/
  | responder (module : ModulePtr)
  | value (v : LuaValue)
  /-- An error value. -/
  | error (text : String)
  deriving DecidableEq

end LuaStack

/-- The Lua interpreter, between two callbacks: its stack, with the top in front, and the state
of the script. -/
structure LuaStack (σ : Type) where
  stack : List LuaStack.Slot
  script : σ

namespace LuaStack

/-- What a call of a responder does: the state of the script behind it, the calls of output
modules, and the error that it has ended with. -/
structure Called (σ : Type) where
  state : σ
  calls : List LuaCall
  error : Option String

/-- The code around the callbacks. -/
structure Script (σ : Type) where
  /-- Call what the registry has for a module. -/
  call : σ → ModulePtr → List Slot → Called σ
  /-- `lua_checkstack`. -/
  checkStack : List Slot → ℕ → Bool
  /-- The packet that `osc_dispatch_method` finds in a buffer. -/
  parse : List UInt8 → OscPacket

variable {σ : Type} (S : Script σ) {O : LibOsc} (G : OscGetters O)

/-- What a piece of code has made of the interpreter, with the calls of output modules and the
reports so far. -/
abbrev Result (σ : Type) := LuaResult (LuaStack σ)

namespace Result

/-- `lua_push*`. -/
def push (r : Result σ) (slot : Slot) : Result σ :=
  { r with state := { r.state with stack := slot :: r.state.stack } }

/-- `tjost_host_message_push`. -/
def report (r : Result σ) (texts : List String) : Result σ := { r with errors := r.errors ++ texts }

/-- `lua_rawget(L, LUA_REGISTRYINDEX)`. -/
def rawget (r : Result σ) : Result σ :=
  match r.state.stack with
  | .lightuserdata module :: rest =>
    { r with state := { r.state with stack := .responder module :: rest } }
  | _ => r

/-- `lua_pcall(L, argc, 0, 0)`. What is not a function cannot be called. -/
def pcall (r : Result σ) (argc : ℕ) : Result σ × Option String :=
  let args := (r.state.stack.take argc).reverse
  match r.state.stack.drop argc with
  | .responder module :: below =>
    let c := S.call r.state.script module args
    let stack := match c.error with
      | none => below
      | some text => .error text :: below
    (⟨⟨stack, c.state⟩, r.calls ++ c.calls, r.errors⟩, c.error)
  | _ :: below =>
    let text := "attempt to call a value"
    ({ r with state := { r.state with stack := .error text :: below } }, some text)
  | [] => (r, none)

/-- The call with its report. -/
def pcallReport (r : Result σ) (argc : ℕ) : Result σ :=
  match r.pcall S argc with
  | (r, none) => r
  | (r, some text) => r.report ["Lua: callback error '" ++ text ++ "'"]

/-- `_push`: nothing is pushed for a type that there is not. -/
def pushArg (r : Result σ) (type : Char) (ptr : List UInt8) : Result σ × List UInt8 :=
  let (v, ptr, messages) := Tjost.pushArg G type ptr
  let r := match v with
    | some v => r.push (.value v)
    | none => r
  (r.report messages, ptr)

/-- The loop over the types. -/
def pushArgs : List Char → List UInt8 → Result σ → Result σ
  | [], _, r => r
  | type :: fmt, ptr, r =>
    let (r, ptr) := r.pushArg G type ptr
    pushArgs fmt ptr r

/-- The responder of a module, and the first three arguments. -/
def pushCall (r : Result σ) (m : ModulePtr) (time : NFrames) (path fmt : List Char) : Result σ :=
  let r := r.push (.lightuserdata m)
  let r := r.rawget
  let r := r.push (.value (.number (binary64.ofInt time.toNat)))
  let r := r.push (.value (.string path))
  r.push (.value (.string fmt))

end Result

/-- `_deserialize`. -/
def deserialize (m : ModulePtr) (time : NFrames) (path fmt : List Char) (buf : List UInt8)
    (r : Result σ) : Result σ :=
  let argc := 3 + fmt.length
  let r := if S.checkStack r.state.stack (argc + 32) then r else r.report ["Lua: stack overflow"]
  let r := r.pushCall m time path fmt
  let r := r.pushArgs G fmt buf
  r.pcallReport S argc

/-- What `_bundle_in` and `_bundle_out` do, with the path of a message of their own. -/
def bundleCall (path : List Char) (m : ModulePtr) (time : NFrames) (r : Result σ) : Result σ :=
  (r.pushCall m time path []).pcallReport S 3

/-- `_bundle_in`. -/
def bundleIn : ModulePtr → NFrames → Result σ → Result σ := bundleCall S "/bundle/push".toList

/-- `_bundle_out`. -/
def bundleOut : ModulePtr → NFrames → Result σ → Result σ := bundleCall S "/bundle/pop".toList

mutual

/-- `osc_dispatch_method` on a packet. -/
def dispatch (m : ModulePtr) (time : NFrames) : OscPacket → Result σ → Result σ
  | .message path args, r =>
    deserialize S G m time path (OscPacket.fmt args) (args.flatMap (OscArg.bytes O)) r
  | .bundle _ elements, r =>
    bundleOut S m time (dispatchAll m time elements (bundleIn S m time r))

def dispatchAll (m : ModulePtr) (time : NFrames) : List OscPacket → Result σ → Result σ
  | [], r => r
  | p :: ps, r => dispatchAll m time ps (dispatch m time p r)

end

/-- `tjost_lua_deserialize`. -/
def luaDeserialize (L : LuaStack σ) (m : ModulePtr) (time : NFrames) (buf : List UInt8) :
    Result σ :=
  dispatch S G m time (S.parse buf) ⟨L, [], []⟩

/-- The script as the host sees it. -/
def luaScript : LuaScript (LuaStack σ) where
  respond := luaDeserialize S G

/-! ### What fails -/

/-- A callback: the module and the arguments. -/
structure Callback where
  module : ModulePtr
  args : List LuaValue
  deriving DecidableEq

mutual

/-- The callbacks of a packet, in order. -/
def callbacks (m : ModulePtr) (time : NFrames) : OscPacket → List Callback
  | .message path args =>
    [⟨m, (Tjost.deserialize G time path (OscPacket.fmt args)
      (args.flatMap (OscArg.bytes O))).1⟩]
  | .bundle _ elements =>
    ⟨m, [.number (binary64.ofInt time.toNat), .string "/bundle/push".toList, .string []]⟩ ::
      (callbacksAll m time elements ++
        [⟨m, [.number (binary64.ofInt time.toNat), .string "/bundle/pop".toList, .string []]⟩])

def callbacksAll (m : ModulePtr) (time : NFrames) : List OscPacket → List Callback
  | [] => []
  | p :: ps => callbacks m time p ++ callbacksAll m time ps

end

/-- A callback, for a script in that state. -/
def Callback.run (c : Callback) (st : σ) : Called σ := S.call st c.module (c.args.map .value)

/-- The state of a script behind callbacks. -/
def scriptAfter (cs : List Callback) (st : σ) : σ :=
  cs.foldl (fun st c => (c.run S st).state) st

/-- **No callback fails.** -/
def Quiet : List Callback → σ → Prop
  | [], _ => True
  | c :: cs, st => (c.run S st).error = none ∧ Quiet cs (c.run S st).state

/-- The number of those that fail. -/
def failures : List Callback → σ → ℕ
  | [], _ => 0
  | c :: cs, st => (if (c.run S st).error.isSome then 1 else 0) + failures cs (c.run S st).state

section Balance

variable {S G} {r : Result σ} {m : ModulePtr} {time : NFrames}

theorem quiet_iff {cs : List Callback} {st : σ} : Quiet S cs st ↔ failures S cs st = 0 := by
  induction cs generalizing st with
  | nil => exact iff_of_true trivial rfl
  | cons c cs ih =>
    unfold Quiet failures
    rw [ih]
    cases (c.run S st).error <;> simp

theorem scriptAfter_append (cs cs' : List Callback) (st : σ) :
    scriptAfter S (cs ++ cs') st = scriptAfter S cs' (scriptAfter S cs st) := List.foldl_append

theorem failures_append (cs cs' : List Callback) (st : σ) :
    failures S (cs ++ cs') st = failures S cs st + failures S cs' (scriptAfter S cs st) := by
  induction cs generalizing st with
  | nil => exact (Nat.zero_add _).symm
  | cons c cs ih =>
    rw [List.cons_append, failures, ih, failures, Nat.add_assoc]
    rfl

/-! ### One callback -/

/-- **One value for every letter.** -/
theorem pushArgs_cons (a : OscArg) (args : List OscArg) (ptr : List UInt8) :
    ∃ v, (Tjost.pushArg G a.type ptr).1 = some v ∧
      (Tjost.pushArgs G (OscPacket.fmt (a :: args)) ptr).1 =
        v :: (Tjost.pushArgs G (OscPacket.fmt args) (Tjost.pushArg G a.type ptr).2.1).1 := by
  obtain ⟨v, hv⟩ : ∃ v, (Tjost.pushArg G a.type ptr).1 = some v := by
    cases a <;> exact ⟨_, rfl⟩
  refine ⟨v, hv, ?_⟩
  show (Tjost.pushArg G a.type ptr).1.toList ++ _ = _
  rw [hv]
  rfl

theorem pushArgs_state (args : List OscArg) (ptr : List UInt8) (r : Result σ) :
    (r.pushArgs G (OscPacket.fmt args) ptr).state =
      ⟨((Tjost.pushArgs G (OscPacket.fmt args) ptr).1.map Slot.value).reverse ++ r.state.stack,
        r.state.script⟩ := by
  induction args generalizing ptr r with
  | nil => rfl
  | cons a args ih =>
    obtain ⟨v, hv, hargs⟩ := pushArgs_cons (G := G) a args ptr
    have hpush : (r.pushArg G a.type ptr).1.state =
        ⟨.value v :: r.state.stack, r.state.script⟩ := by
      unfold Result.pushArg
      simp only [hv]
      rfl
    -- the first argument lies below the others
    show ((r.pushArg G a.type ptr).1.pushArgs G (OscPacket.fmt args) _).state = _
    rw [ih, hpush, hargs, List.map_cons, List.reverse_cons, List.append_assoc]
    rfl

theorem length_pushArgs (args : List OscArg) (ptr : List UInt8) :
    (Tjost.pushArgs G (OscPacket.fmt args) ptr).1.length = args.length := by
  induction args generalizing ptr with
  | nil => rfl
  | cons a args ih =>
    obtain ⟨v, -, hargs⟩ := pushArgs_cons (G := G) a args ptr
    rw [hargs, List.length_cons, ih, List.length_cons]

variable (S) in
/-- The interpreter behind callbacks: on top of the stack are the errors of those that have
failed. -/
structure Ran (cs : List Callback) (L L' : LuaStack σ) : Prop where
  script : L'.script = scriptAfter S cs L.script
  stack : ∃ errors : List String, errors.length = failures S cs L.script ∧
    L'.stack = errors.map Slot.error ++ L.stack

theorem Ran.trans {cs cs' : List Callback} {L L' L'' : LuaStack σ} (h : Ran S cs L L')
    (h' : Ran S cs' L' L'') : Ran S (cs ++ cs') L L'' where
  script := by rw [h'.script, h.script, scriptAfter_append]
  stack := by
    obtain ⟨errors, hlen, hstack⟩ := h.stack
    obtain ⟨errors', hlen', hstack'⟩ := h'.stack
    -- the later errors are on top
    refine ⟨errors' ++ errors, ?_, ?_⟩
    · rw [List.length_append, hlen, hlen', failures_append, h.script]
      exact Nat.add_comm _ _
    · rw [hstack', hstack, List.map_append, List.append_assoc]

theorem Ran.height {cs : List Callback} {L L' : LuaStack σ} (h : Ran S cs L L') :
    L'.stack.length = L.stack.length + failures S cs L.script := by
  obtain ⟨errors, hlen, hstack⟩ := h.stack
  rw [hstack, List.length_append, List.length_map, hlen, Nat.add_comm]

/-- **`lua_pcall`** takes the function and its arguments off, and leaves the error of a call that
fails. -/
theorem pcallReport_ran {c : Callback} {L : LuaStack σ}
    (hscript : r.state.script = L.script)
    (hstack : r.state.stack =
      (c.args.map Slot.value).reverse ++ .responder c.module :: L.stack) :
    Ran S [c] L (r.pcallReport S c.args.length).state := by
  have hlen : (c.args.map Slot.value).reverse.length = c.args.length := by
    rw [List.length_reverse, List.length_map]
  have htake : (r.state.stack.take c.args.length).reverse = c.args.map Slot.value := by
    rw [hstack, List.take_left' hlen, List.reverse_reverse]
  have hdrop : r.state.stack.drop c.args.length = .responder c.module :: L.stack := by
    rw [hstack, List.drop_left' hlen]
  have hpcall : r.pcall S c.args.length =
      (⟨⟨(match (c.run S L.script).error with
          | none => L.stack
          | some text => .error text :: L.stack), (c.run S L.script).state⟩,
        r.calls ++ (c.run S L.script).calls, r.errors⟩, (c.run S L.script).error) := by
    unfold Result.pcall
    simp only [htake, hdrop, hscript]
    rfl
  unfold Result.pcallReport
  rw [hpcall]
  cases herror : (c.run S L.script).error with
  | none => exact ⟨rfl, [], by simp [failures, herror], rfl⟩
  | some text =>
    -- the report reads the error with `lua_tostring` and does not pop it
    exact ⟨rfl, [text], by simp [failures, herror], rfl⟩

/-- The function and the first three arguments. -/
theorem pushCall_state (path fmt : List Char) :
    (r.pushCall m time path fmt).state =
      ⟨[.value (.string fmt), .value (.string path),
          .value (.number (binary64.ofInt time.toNat)), .responder m] ++ r.state.stack,
        r.state.script⟩ := rfl

theorem bundleCall_ran (path : List Char) (r : Result σ) :
    Ran S [⟨m, [.number (binary64.ofInt time.toNat), .string path, .string []]⟩] r.state
      (bundleCall S path m time r).state :=
  pcallReport_ran (r := r.pushCall m time path []) rfl rfl

/-- **A message.** The arguments are as many as the letters of its format, so the call takes
off what has been pushed for it. -/
theorem deserialize_ran (path : List Char) (args : List OscArg) (r : Result σ) :
    Ran S (callbacks G m time (.message path args)) r.state
      (dispatch S G m time (.message path args) r).state := by
  set buf := args.flatMap (OscArg.bytes O) with hbuf
  set c : Callback := ⟨m, (Tjost.deserialize G time path (OscPacket.fmt args) buf).1⟩ with hc
  set r₀ : Result σ := if S.checkStack r.state.stack (3 + (OscPacket.fmt args).length + 32) then r
    else r.report ["Lua: stack overflow"] with hr₀
  -- a stack that cannot grow is reported, and the code goes on
  have hr : r₀.state = r.state := by
    rw [hr₀]
    split <;> rfl
  have hargc : c.args.length = 3 + (OscPacket.fmt args).length := by
    have hlen := @length_pushArgs O G args buf
    have hfmt : (OscPacket.fmt args).length = args.length := List.length_map _
    show (Tjost.pushArgs G (OscPacket.fmt args) buf).1.length + 1 + 1 + 1 = _
    omega
  have hpushed : ((r₀.pushCall m time path (OscPacket.fmt args)).pushArgs G
      (OscPacket.fmt args) buf).state =
        ⟨(c.args.map Slot.value).reverse ++ .responder m :: r.state.stack, r.state.script⟩ := by
    rw [pushArgs_state, pushCall_state, hr]
    simp [hc, Tjost.deserialize]
  have hran := @pcallReport_ran σ S ((r₀.pushCall m time path (OscPacket.fmt args)).pushArgs G
    (OscPacket.fmt args) buf) c r.state (by rw [hpushed]) (by rw [hpushed])
  rw [hargc] at hran
  unfold dispatch deserialize callbacks
  exact hran

/-! ### Packets -/

mutual

/-- **A packet of any depth** leaves one slot for every callback that fails. -/
theorem dispatch_ran (p : OscPacket) (r : Result σ) :
    Ran S (callbacks G m time p) r.state (dispatch S G m time p r).state := by
  match p with
  | .message path args => exact deserialize_ran path args r
  | .bundle timetag elements =>
    set r₁ := bundleIn S m time r with hr₁
    set r₂ := dispatchAll S G m time elements r₁ with hr₂
    have hin : Ran S _ r.state r₁.state := bundleCall_ran "/bundle/push".toList r
    have hall : Ran S _ r₁.state r₂.state := dispatchAll_ran elements r₁
    have hout : Ran S _ r₂.state (bundleOut S m time r₂).state :=
      bundleCall_ran "/bundle/pop".toList r₂
    unfold callbacks dispatch
    exact hin.trans (hall.trans hout)

theorem dispatchAll_ran (ps : List OscPacket) (r : Result σ) :
    Ran S (callbacksAll G m time ps) r.state (dispatchAll S G m time ps r).state := by
  match ps with
  | [] => exact ⟨rfl, [], rfl, rfl⟩
  | p :: ps =>
    have hp := dispatch_ran p r
    have hps := dispatchAll_ran ps (dispatch S G m time p r)
    unfold callbacksAll dispatchAll
    exact hp.trans hps

end

variable (S G m time) in
/-- What `tjost_lua_deserialize` does to the stack. -/
theorem luaDeserialize_ran (L : LuaStack σ) (buf : List UInt8) :
    Ran S (callbacks G m time (S.parse buf)) L (luaDeserialize S G L m time buf).state :=
  dispatch_ran (S.parse buf) ⟨L, [], []⟩

end Balance

/-! ### Cycles -/

section Cycles

variable {ρ τ : Type} (P : Platform ρ τ)

/-- A call of `tjost_lua_deserialize`. -/
structure Respond where
  module : ModulePtr
  time : NFrames
  buf : List UInt8

/-- The calls for an event: its receivers that have a responder. -/
def respondsOf (h : Host ρ τ) (time : NFrames) (tev : Event) : List Respond :=
  ((h.receivers tev.module).filter fun m => (h.module m).hasLuaCallback).map
    fun m => ⟨m, time, tev.buf⟩

/-- The calls in the main loop of a cycle. -/
def responds (last nframes : NFrames) (h : Host ρ τ) : List Respond :=
  (h.queue.takeWhile (due last nframes)).flatMap fun tev =>
    respondsOf h (clamp last last tev.time) tev

/-- The interpreter behind calls. -/
def respondAll (l : List Respond) (st : τ) : τ :=
  l.foldl (fun st x => (P.lua.respond st x.module x.time x.buf).state) st

variable {P} {h : Host ρ τ} {last nframes : NFrames}

theorem forwardAll_lua (tev : Event) (l : List ModulePtr) (h : Host ρ τ) :
    (forwardAll P tev l h).lua = h.lua := by
  induction l generalizing h with
  | nil => rfl
  | cons child l ih => exact ih (forward P tev child h)

theorem runCalls_lua (l : List LuaCall) (h : Host ρ τ) : (runCalls P l h).lua = h.lua := by
  induction l generalizing h with
  | nil => rfl
  | cons c l ih => exact ih (moduleSchedule P c.module c.time c.buf h)

theorem luaDeserialize_lua (tev : Event) (h : Host ρ τ) :
    (Tjost.luaDeserialize P tev h).lua =
      (P.lua.respond h.lua tev.module tev.time tev.buf).state :=
  runCalls_lua _ _

/-- The branch for an event without a module. The event is given to every uplink in turn. -/
theorem broadcast_lua (l : List ModulePtr) (tev : Event) (h : Host ρ τ) :
    (broadcast P l tev h).lua =
      respondAll P ((l.filter fun m => (h.module m).hasLuaCallback).map
        fun m => ⟨m, tev.time, tev.buf⟩) h.lua := by
  induction l generalizing tev h with
  | nil => rfl
  | cons u l ih =>
    have g : SameGraph h (forwardAll P tev (h.module u).children h) :=
      (forwardAll_dispatches P tev (h.module u).children h).graph
    unfold broadcast
    simp only [g.hasLuaCallback]
    cases hlua : (h.module u).hasLuaCallback with
    | true =>
      -- the callback may schedule events, but the tests for the other uplinks stay as they are
      have g' : SameGraph h (Tjost.luaDeserialize P { tev with module := u }
          (forwardAll P tev (h.module u).children h)) :=
        g.trans (luaDeserialize_dispatches P _ _).graph
      have hfilter : (u :: l).filter (fun m => (h.module m).hasLuaCallback) =
          u :: l.filter fun m => (h.module m).hasLuaCallback := List.filter_cons_of_pos hlua
      rw [if_pos rfl, ih, hfilter, luaDeserialize_lua, forwardAll_lua]
      simp only [g'.hasLuaCallback]
      rfl
    | false =>
      have hfilter : (u :: l).filter (fun m => (h.module m).hasLuaCallback) =
          l.filter fun m => (h.module m).hasLuaCallback :=
        List.filter_cons_of_neg (Bool.not_eq_true _ ▸ hlua)
      rw [if_neg Bool.false_ne_true, ih, hfilter, forwardAll_lua]
      simp only [g.hasLuaCallback]

theorem mainBody_lua (tev : Event) (h : Host ρ τ) :
    (mainBody P last tev h).lua = respondAll P (respondsOf h (clamp last last tev.time) tev) h.lua := by
  show (dispatchEvent P { tev with time := clamp last last tev.time } _).lua = _
  unfold dispatchEvent respondsOf Host.receivers
  by_cases hb : tev.module = moduleBroadcast
  · rw [if_pos hb, if_pos hb]
    exact broadcast_lua h.uplinks _ _
  · -- the children come first, and none of them calls a responder
    rw [if_neg hb, if_neg hb]
    set h₀ := h.messagePush (lateReport "main loop" last tev.time) with hh₀
    have g := (forwardAll_dispatches P { tev with time := clamp last last tev.time }
      (h.module tev.module).children h₀).graph
    have hcallback : ((forwardAll P { tev with time := clamp last last tev.time }
        (h.module tev.module).children h₀).module tev.module).hasLuaCallback =
          (h.module tev.module).hasLuaCallback := g.hasLuaCallback tev.module
    show (unicast P { tev with time := clamp last last tev.time } h₀).lua = _
    unfold unicast
    simp only
    rw [show (h₀.module tev.module).children = (h.module tev.module).children from rfl, hcallback]
    cases hlua : (h.module tev.module).hasLuaCallback with
    | true =>
      have hfilter : [tev.module].filter (fun m => (h.module m).hasLuaCallback) = [tev.module] :=
        List.filter_cons_of_pos hlua
      rw [if_pos rfl, hfilter, luaDeserialize_lua, forwardAll_lua]
      rfl
    | false =>
      have hfilter : [tev.module].filter (fun m => (h.module m).hasLuaCallback) = [] :=
        List.filter_cons_of_neg (Bool.not_eq_true _ ▸ hlua)
      rw [if_neg Bool.false_ne_true, hfilter, forwardAll_lua]
      rfl

/-- The calls of an event depend on the graph only. -/
theorem respondsOf_eq {h' : Host ρ τ} (g : SameGraph h h') (time : NFrames) (tev : Event) :
    respondsOf h' time tev = respondsOf h time tev := by
  unfold respondsOf Host.receivers
  simp only [g.uplinks, g.hasLuaCallback]

/-- **The main loop** calls the responders one after the other. -/
theorem mainLoop_lua (h : Host ρ τ) :
    (mainLoop P last nframes h).lua = respondAll P (responds last nframes h) h.lua := by
  -- the calls of the later events are those of the host in front of the loop
  have hfold : ∀ (l : List Event) (h : Host ρ τ),
      (l.foldl (fun h tev => mainBody P last tev h) h).lua =
        respondAll P (l.flatMap fun tev => respondsOf h (clamp last last tev.time) tev) h.lua := by
    intro l
    induction l with
    | nil => exact fun h => rfl
    | cons tev l ih =>
      intro h
      have g := (mainBody_spec P last tev h).1
      rw [List.foldl_cons, ih, mainBody_lua, List.flatMap_cons]
      simp only [respondsOf_eq g]
      exact (List.foldl_append ..).symm
  unfold mainLoop
  rw [dueLoop_eq_foldl_takeWhile]
  exact hfold _ h

theorem receive_lua (arrivals : List SchedCall) (h : Host ρ τ) :
    (receive P arrivals h).lua = h.lua := by
  induction arrivals generalizing h with
  | nil => rfl
  | cons c l ih =>
    refine (ih _).trans ?_
    unfold SchedCall.run
    split <;> rfl

theorem sendOut_lua (h : Host ρ τ) : (sendOut P last nframes h).lua = h.lua := by
  -- no function that sends has anything to do with the interpreter
  have hall : ∀ (test : Module ρ → Bool) (l : List ModulePtr) (h : Host ρ τ),
      (sendAll P last nframes test l h).lua = h.lua := by
    intro test l
    induction l with
    | nil => exact fun h => rfl
    | cons m l ih =>
      intro h
      unfold sendAll
      rw [ih]
      split
      · exact processOut_invariant P last nframes (I := fun h' => h'.lua = h.lua)
          (fun _ _ _ _ hd => hd) (fun _ _ _ hd => hd) (fun _ _ _ _ hd => hd) rfl m
      · rfl
  unfold sendOut
  simp only
  split
  · exact (hall _ _ _).trans (hall _ _ _)
  · exact (hall _ _ _).trans (hall _ _ _)

/-- **The interpreter behind a cycle.** -/
theorem process_lua (arrivals : List SchedCall) (h : Host ρ τ) :
    (process P last nframes arrivals h).lua =
      respondAll P (responds last nframes (receiveIn P arrivals h)) h.lua := by
  unfold process
  rw [sendOut_lua, mainLoop_lua]
  exact congrArg (respondAll P _) (receive_lua arrivals h)

end Cycles

/-! ### Runs -/

section Runs

variable {ρ τ : Type} (P : Platform ρ τ)

/-- The platform with this interpreter. -/
def onStack : Platform ρ (LuaStack σ) := { P with lua := luaScript S G }

/-- A cycle: its frames, and what the inputs schedule. -/
structure Cycle where
  last : NFrames
  nframes : NFrames
  arrivals : List SchedCall

/-- The runs of a host, from any state. -/
def machine : Machine (Host ρ (LuaStack σ)) Cycle where
  init _ := True
  step h c := some (process (onStack S G P) c.last c.nframes c.arrivals h)

/-- The callbacks of a cycle. -/
def cycleCallbacks (h : Host ρ (LuaStack σ)) (c : Cycle) : List Callback :=
  (responds c.last c.nframes (receiveIn (onStack S G P) c.arrivals h)).flatMap
    fun x => callbacks G x.module x.time (S.parse x.buf)

/-- No callback of the cycle fails. -/
def QuietCycle (h : Host ρ (LuaStack σ)) (c : Cycle) : Prop :=
  Quiet S (cycleCallbacks S G P h c) h.lua.script

variable {S G P}

theorem respondAll_ran (l : List Respond) (L : LuaStack σ) :
    Ran S (l.flatMap fun x => callbacks G x.module x.time (S.parse x.buf)) L
      (respondAll (onStack S G P) l L) := by
  induction l generalizing L with
  | nil => exact ⟨rfl, [], rfl, rfl⟩
  | cons x l ih =>
    have hx := luaDeserialize_ran S G x.module x.time L x.buf
    rw [List.flatMap_cons]
    exact hx.trans (ih _)

/-- **A cycle** leaves a slot for every callback that fails. -/
theorem process_ran (h : Host ρ (LuaStack σ)) (c : Cycle) :
    Ran S (cycleCallbacks S G P h c) h.lua
      (process (onStack S G P) c.last c.nframes c.arrivals h).lua := by
  rw [process_lua]
  exact respondAll_ran _ h.lua

theorem Ran.height_eq_iff {cs : List Callback} {L L' : LuaStack σ} (h : Ran S cs L L') :
    L'.stack.length = L.stack.length ↔ Quiet S cs L.script := by
  rw [h.height, quiet_iff]
  exact Nat.add_eq_left

variable (S G P) in
/-- **When the stack is balanced.** -/
theorem balanced_iff {h h' : Host ρ (LuaStack σ)} {cycles : List Cycle}
    (hrun : (machine S G P).exec h cycles = some h') :
    (∀ L m time buf, (luaDeserialize S G L m time buf).state.stack.length = L.stack.length ↔
        Quiet S (callbacks G m time (S.parse buf)) L.script) ∧
      ((∀ cycles' t, cycles' <+: cycles → (machine S G P).exec h cycles' = some t →
          t.lua.stack.length = h.lua.stack.length) ↔
        (machine S G P).Meets (QuietCycle S G P) h cycles) := by
  refine ⟨fun L m time buf => (luaDeserialize_ran S G m time L buf).height_eq_iff, ?_⟩
  refine (machine S G P).meets_iff (S := fun _ => True)
    (I := fun t => t.lua.stack.length = h.lua.stack.length) (fun _ _ _ _ _ => trivial) ?_ trivial
    rfl hrun
  -- the height at the start of the run is that in front of the cycle
  intro t c t' _ ht hstep
  obtain rfl := Option.some.inj hstep
  rw [← ht]
  exact (process_ran t c).height_eq_iff

end Runs

instance Quiet.decidable : ∀ (cs : List Callback) (st : σ), Decidable (Quiet S cs st)
  | [], _ => isTrue trivial
  | c :: cs, st =>
    have := Quiet.decidable cs (c.run S st).state
    inferInstanceAs (Decidable (_ ∧ _))

/-- A script that counts its callbacks and fails from the one with that number on, on buffers that
hold a bundle with a message. -/
def failsFrom (n : ℕ) : Script ℕ where
  call st _ _ := ⟨st + 1, [], if n ≤ st then some "no" else none⟩
  checkStack stack n := stack.length + n ≤ 8000
  parse _ := .bundle 1 [.message "/a".toList [.int32 5, .true]]

/-- A host with a module that has a responder, and one event for it. -/
def startHost : Host (ByteRing.Fifo ringbufSize) (LuaStack ℕ) :=
  { Host.start ⟨[], 0⟩ [1] [] (fun _ => Module.start moduleInput [] true .input)
      (ByteRing.Fifo.empty ringbufSize ringbufSize_pos) with queue := [⟨0, 1, 3, []⟩] }

instance (P : Platform (ByteRing.Fifo ringbufSize) Unit) (S : Script σ)
    (h : Host (ByteRing.Fifo ringbufSize) (LuaStack σ)) (c : Cycle) :
    Decidable (QuietCycle S G P h c) :=
  inferInstanceAs (Decidable (Quiet S _ _))

/-- A cycle in which the bundle is dispatched, with three callbacks that return. -/
theorem balanced_iff_quiet :
    ∃ t, (machine (failsFrom 3) OscGetters.plain
        (Platform.plain 64 (LuaScript.pass 0))).exec startHost [⟨0, 8, []⟩] = some t ∧
      t.lua.script = 3 ∧ t.lua.stack.length = 0 := by
  refine ⟨_, rfl, by decide +kernel, ?_⟩
  exact (balanced_iff (failsFrom 3) OscGetters.plain (Platform.plain 64 (LuaScript.pass 0))
    (h := startHost) rfl).2.mpr (by decide +kernel) [⟨0, 8, []⟩] _ (List.prefix_refl _) rfl

/-- **The errors stay on the stack.** The callbacks for the message and for the end of the bundle
fail. -/
theorem errors_stay :
    ∃ t, (machine (failsFrom 1) OscGetters.plain
        (Platform.plain 64 (LuaScript.pass 0))).exec startHost [⟨0, 8, []⟩] = some t ∧
      startHost.lua.stack = [] ∧ t.lua.stack = [.error "no", .error "no"] := by
  refine ⟨_, rfl, rfl, ?_⟩
  decide +kernel

end LuaStack

end Tjost
