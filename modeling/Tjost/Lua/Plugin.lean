import Tjost.Lua.Teardown

/-!
# Failed plugins

`Plugin.plugin` is `_plugin` with the `add` of every module, as far as it can fail. An `add` is the
list of its calls (`Plugin.AddStep`): it reads options, allocates its private data, makes calls
whose failure it reports and returns, and sets the type of the module. Which calls fail is up to
the environment. What the module owns by then is that of `Owners`, and what `_plugin` allocates on
behalf of it is that of `Owners.plugin`.

A call that fails should return `nil` and leave the host as it was (`Plugin.Restored`). `_plugin`
has registered the responder and linked a child by the time `add` fails, takes neither back, and
goes on with the switch over the type. Most modules allocate their data before the first call that
can fail, and do not free it when it does. A module that is not found has no `add`, and is called
nevertheless.

`Plugin.restored_iff`: a failed call leaves the host as it was if and only if the module is one of
the four without private data (`midi_in`, `midi_out`, `osc_in`, `osc_out`), and the second argument
is neither a responder nor an output. `Plugin.entry_stays` is a `net_in` whose thread cannot be
created.
-/

namespace Tjost

namespace Plugin

/-! ### The modules -/

/-- What a module reports. -/
inductive AddError
  | text (msg : String)
  /-- `uv_err_name(err)`. -/
  | uv
  deriving DecidableEq, Repr

/-- A call of an `add`. -/
inductive AddStep
  /-- A field of the first argument is read. A value of another type raises an error in Lua. -/
  | option (field : String)
  /-- `tjost_alloc` of the private data, which is cleared or not. -/
  | alloc (cleared : Bool)
  /-- A call with a result, behind which stands `MOD_ADD_ERR`. -/
  | check (error : AddError)
  /-- `module->type` is set. -/
  | type (type : ModuleType)
  deriving DecidableEq, Repr

/-- The modules that `eina_module_find` knows. -/
inductive ModuleName
  | cvIn | cvOut | dump | loopback | midiIn | midiOut | netIn | netOut | oscIn | oscOut | read
  | rtmidiIn | rtmidiOut | send | seqIn | seqOut | serial | timer | transport | uplink | write
  deriving DecidableEq, Repr

/-- `MOD_NAME`. Two modules have that of another. -/
def modName : ModuleName → String
  | .cvIn => "cv_in"
  | .cvOut => "cv_out"
  | .dump => "dump"
  | .loopback => "loopback"
  | .midiIn => "midi_in"
  | .midiOut => "midi_out"
  | .netIn => "net_in"
  | .netOut => "net_in"
  | .oscIn => "osc_in"
  | .oscOut => "osc_out"
  | .read => "read"
  | .rtmidiIn => "seq_in"
  | .rtmidiOut => "rtmidi_out"
  | .send => "send"
  | .seqIn => "seq_in"
  | .seqOut => "seq_out"
  | .serial => "serial"
  | .timer => "timer"
  | .transport => "transport"
  | .uplink => "uplink"
  | .write => "write"

/-- What else decides about the calls of an `add`. -/
structure Config where
  /-- `HAS_METADATA_API`. -/
  metadata : Bool
  /-- The option `path` is given. -/
  path : Bool
  /-- The stream of `net_in` is of the type `OSC_STREAM_TYPE_UDP`. -/
  udp : Bool
  deriving DecidableEq, Repr

/-- A call that is reported with a text. -/
def check (msg : String) : AddStep := .check (.text msg)

/-- A JACK port with its properties. -/
def jackPort (cfg : Config) (properties : List String) : List AddStep :=
  [.option "port", check "could not register jack port"] ++
    if cfg.metadata then
      [.option "pretty", check "could not set prettyname"] ++ properties.map check
    else []

/-- What the two modules with a thread of their own do. -/
def net (options : List String) (type : ModuleType) : List AddStep :=
  options.map .option ++
    [.alloc true, check "could not initialize ringbuffer", check "could not initialize pipe_rx",
      check "uv_loop_init failed", .check .uv, .check .uv, .check .uv, .check .uv,
      check "could not initialize socket", .type type,
      -- the thread is created when the type has been set
      .check .uv]

/-- An ALSA sequencer, the text for the first call and the rest of the calls. -/
def sequencer (opening : String) (rest : List AddStep) : List AddStep :=
  [.alloc true, .option "device", check opening, check "could not set name",
    check "could not create port", check "could not allocate queue",
    check "could not create event"] ++ rest

/-- `add`. -/
def add (cfg : Config) : ModuleName → List AddStep
  | .cvIn => .alloc true :: jackPort cfg ["could not set CV event type"] ++ [.type moduleInput]
  | .cvOut => .alloc true :: jackPort cfg ["could not set CV event type"] ++ [.type moduleOutput]
  | .dump => [.alloc true, .option "verbose", check "could not initialize tjost pipe",
      check "could not start listening in tjost pipe", .type moduleOutput]
  | .loopback => [.type moduleOutput]
  | .midiIn => jackPort cfg [] ++ [.type moduleInput]
  | .midiOut => jackPort cfg [] ++ [.type moduleOutput]
  | .netIn => net ["uri", "rtprio", "unroll"] (if cfg.udp then moduleInput else moduleInOut)
  | .netOut => net ["uri", "rtprio", "unroll", "offset"] moduleInOut
  | .oscIn => jackPort cfg ["could not set OSC event type"] ++ [.type moduleInput]
  | .oscOut => jackPort cfg ["could not set OSC event type"] ++ [.type moduleOutput]
  | .read => [.alloc true, .option "path"] ++
      (if cfg.path then [check "could not open file handle"] else []) ++
      [check "not an OSC binary file", .check .uv, check "could not initialize tjost pipe",
        .type moduleInput]
  | .rtmidiIn => [.alloc true, .option "device", .option "api", check "could not create device",
      check "could not open virtual port", check "could not set callback",
      check "could not initialize tjost pipe", .type moduleInput]
  | .rtmidiOut => [.alloc true, .option "device", .option "api", check "could not create device",
      check "could not open virtual port", check "could not initialize tjost pipe",
      .type moduleOutput]
  | .send => [.alloc true, check "could not initialize tjost pipe", .check .uv, .check .uv,
      .type moduleInput]
  | .seqIn => sequencer "could not open sequencer" [check "could not get poll descriptors",
      check "could not initialize tjost pipe", .check .uv, .check .uv, .type moduleInput]
  | .seqOut => sequencer "could not create sequencer" [check "could not initialize tjost pipe",
      .type moduleOutput]
  | .serial => [.alloc true, .option "uri", .option "unroll", check "could not initialize pipe_tx",
      check "could not initialize pipe_tx", check "could not initialize pipe_rx",
      check "could not initialize pipe", .type moduleInOut]
  | .timer => [.alloc true, .option "delay", check "could not initialize tjost pipe", .check .uv,
      .check .uv, .type moduleInput]
  -- here the result of the allocation is not looked at
  | .transport => [.alloc false, .type moduleInput]
  | .uplink => [.type moduleUplink]
  | .write => [.alloc true, .option "path"] ++
      (if cfg.path then [check "could not open file handle"] else []) ++
      [check "could not initialize tjost pipe", .type moduleOutput]

/-! ### Running an add -/

/-- How an `add` ends. -/
inductive AddResult
  /-- It returns `0`. -/
  | added
  /-- It returns `-1`, with a message to the host. -/
  | failed (message : String)
  /-- Lua leaves it with an error. -/
  | raised
  /-- It follows a null pointer. -/
  | crashed
  deriving DecidableEq, Repr

/-- A module behind its `add`. -/
structure Added where
  /-- `module->type`. -/
  type : ModuleType
  /-- The private data has been allocated. -/
  dat : Bool
  result : AddResult
  deriving DecidableEq, Repr

/-- What the environment decides: which calls of `add` fail, by their number, and the name of an
error of libuv. -/
structure Env where
  fails : ℕ → Bool
  uvErrName : String

/-- The text of `MOD_ADD_ERR`. -/
def errorText (env : Env) (name : String) : AddError → String
  | .text msg => name ++ ": " ++ msg
  | .uv => name ++ ": " ++ env.uvErrName

/-- `module->add(module)`, from the call with the number `i` on. -/
def runAdd (env : Env) (name : String) : ℕ → List AddStep → Added → Added
  | _, [], a => a
  | i, .option _ :: steps, a =>
    if env.fails i then { a with result := .raised } else runAdd env name (i + 1) steps a
  | i, .alloc cleared :: steps, a =>
    if env.fails i then
      if cleared then { a with result := .crashed } else runAdd env name (i + 1) steps a
    else runAdd env name (i + 1) steps { a with dat := true }
  | i, .check error :: steps, a =>
    if env.fails i then { a with result := .failed (errorText env name error) }
    else runAdd env name (i + 1) steps a
  | i, .type type :: steps, a => runAdd env name (i + 1) steps { a with type := type }

/-- A module before its `add`. -/
def Added.new : Added := ⟨0, false, .added⟩

end Plugin

/-! ### The call -/

/-- The host, reduced to what `_plugin` changes. -/
structure PluginHost where
  owners : Owners
  /-- The modules with an entry in the registry of Lua. -/
  registry : List ModulePtr
  /-- `tjost_host_message_push`. -/
  messages : List String
  /-- The metatable of `nil`. -/
  nilMetatable : Option String

namespace Plugin

/-- A call of `tjost.plugin`. -/
structure PluginCall where
  /-- The option `name`. -/
  name : String
  /-- The module of that name, if there is one. -/
  module : Option ModuleName
  cfg : Config
  /-- The second argument. -/
  responder : Responder
  /-- There is no memory for the child record. -/
  childNull : Bool
  env : Env

/-- How a call ends. -/
inductive Outcome
  /-- It returns the module, or `nil`. -/
  | returned (value : Option ModulePtr) (s : PluginHost)
  | raised
  /-- It follows a null pointer, with these lines on the standard error. -/
  | crashed (stderr : List String)

namespace PluginCall

variable (c : PluginCall)

/-- The `add` of a module. -/
def added (name : ModuleName) : Added := runAdd c.env (modName name) 0 (add c.cfg name) Added.new

/-- The second argument is an output, so the new module `m` gets a child record. -/
def hasChild (m : ModulePtr) (s : PluginHost) : Bool :=
  match c.responder with
  | .userdata modOut => isOutput ((s.owners.create m).module modOut).type
  | .none | .function => false

/-- The metatable of a type. -/
def metatable (type : ModuleType) : Option String :=
  if type = moduleInput then some "Tjost_Input"
  else if type = moduleOutput then some "Tjost_Output"
  else if type = moduleInOut then some "Tjost_In_Out"
  else if type = moduleUplink then some "Tjost_Uplink"
  else none

/-- The rest of `_plugin` behind `add`: its result is looked at, and the switch over the type
follows in either case. -/
def finish (m : ModulePtr) (name : ModuleName) (s : PluginHost) : Outcome :=
  let a := c.added name
  let registry := if c.responder = .function then m :: s.registry else s.registry
  match a.result with
  | .added => .returned (some m) { s with
      owners := s.owners.plugin m c.responder a.type a.dat false
      registry := registry }
  | .failed message => .returned none { s with
      owners := s.owners.plugin m c.responder a.type a.dat true
      registry := registry
      messages := s.messages ++ [message]
      -- the value on the top of the stack is `nil`, which gets the metatable
      nilMetatable := (metatable a.type).or s.nilMetatable }
  | .raised => .raised
  | .crashed => .crashed []

/-- `_plugin`, with the new userdatum `m`. The symbols of a module that has not been found are
`NULL`. -/
def plugin (m : ModulePtr) (s : PluginHost) : Outcome :=
  match c.module with
  | none => .crashed ["could not find module '" ++ c.name ++ "'", "could not get 'add' symbol",
      "could not get 'del' symbol"]
  | some name => if c.hasChild m s && c.childNull then .crashed [] else c.finish m name s

/-- **The call fails**: there is no module, or its `add` returns something else than `0`. -/
def Fails : Prop :=
  match c.module with
  | none => True
  | some name => ∃ message, (c.added name).result = .failed message

end PluginCall

/-! ### What a failed add leaves -/

/-- The type is set at the end, if it is. -/
def TypeLast : List AddStep → Bool
  | [] => true
  | .type _ :: steps => steps.isEmpty
  | .option _ :: steps | .alloc _ :: steps | .check _ :: steps => TypeLast steps

/-- There is private data. -/
def HasDat (steps : List AddStep) : Prop := ∃ cleared, .alloc cleared ∈ steps

section RunAdd

variable {env : Env} {name : String}

/-- What has been allocated stays so. -/
theorem runAdd_dat (steps : List AddStep) (i : ℕ) {a : Added} (ha : a.dat = true) :
    (runAdd env name i steps a).dat = true := by
  induction steps generalizing i a with
  | nil => exact ha
  | cons step steps ih =>
    cases step with
    | option field =>
      unfold runAdd
      split
      · exact ha
      · exact ih (i + 1) ha
    | alloc cleared =>
      unfold runAdd
      split
      · split
        · exact ha
        · exact ih (i + 1) ha
      · exact ih (i + 1) rfl
    | check error =>
      unfold runAdd
      split
      · exact ha
      · exact ih (i + 1) ha
    | type type => exact ih (i + 1) ha

/-- **An `add` that allocates in front of its first check** has allocated when it fails. -/
theorem dat_of_failed {options : List String} {rest : List AddStep} {i : ℕ} {a : Added}
    {message : String}
    (h : (runAdd env name i (options.map .option ++ .alloc true :: rest) a).result =
      .failed message) :
    (runAdd env name i (options.map .option ++ .alloc true :: rest) a).dat = true := by
  induction options generalizing i with
  | nil =>
    rw [List.map_nil, List.nil_append] at h ⊢
    unfold runAdd at h ⊢
    split at h
    · -- without memory there is no result
      cases h
    · next hfails =>
      rw [if_neg hfails]
      exact runAdd_dat rest (i + 1) rfl
  | cons field options ih =>
    rw [List.map_cons, List.cons_append] at h ⊢
    unfold runAdd at h ⊢
    split at h
    · cases h
    · next hfails =>
      rw [if_neg hfails]
      exact ih h

/-- **An `add` without private data.** -/
theorem dat_of_not_hasDat {steps : List AddStep} (hsteps : ¬ HasDat steps) (i : ℕ) (a : Added) :
    (runAdd env name i steps a).dat = a.dat := by
  induction steps generalizing i a with
  | nil => rfl
  | cons step steps ih =>
    have hrest : ¬ HasDat steps :=
      fun ⟨cleared, h⟩ => hsteps ⟨cleared, List.mem_cons_of_mem step h⟩
    cases step with
    | option field =>
      unfold runAdd
      split
      · rfl
      · exact ih hrest (i + 1) a
    | alloc cleared =>
      -- there is no such call
      exact absurd ⟨cleared, List.mem_cons_self⟩ hsteps
    | check error =>
      unfold runAdd
      split
      · rfl
      · exact ih hrest (i + 1) a
    | type type => exact ih hrest (i + 1) { a with type := type }

/-- **An `add` that sets the type at its end** has not set it when it fails. -/
theorem type_of_failed {steps : List AddStep} (hsteps : TypeLast steps = true) {i : ℕ} {a : Added}
    {message : String} (ha : a.result = .added)
    (h : (runAdd env name i steps a).result = .failed message) :
    (runAdd env name i steps a).type = a.type := by
  induction steps generalizing i a with
  | nil => rfl
  | cons step steps ih =>
    cases step with
    | option field =>
      unfold runAdd at h ⊢
      split at h
      · cases h
      · next hfails =>
        rw [if_neg hfails]
        exact ih hsteps ha h
    | alloc cleared =>
      unfold runAdd at h ⊢
      split at h
      · next hfails =>
        -- only a result that is not looked at is survived
        rw [if_pos hfails]
        split at h
        · cases h
        · next hcleared =>
          rw [if_neg hcleared]
          exact ih hsteps ha h
      · next hfails =>
        rw [if_neg hfails]
        exact ih hsteps (a := { a with dat := true }) ha h
    | check error =>
      unfold runAdd at h ⊢
      split at h
      · next hfails =>
        -- it fails here, with the type as it is
        rw [if_pos hfails]
      · next hfails =>
        rw [if_neg hfails]
        exact ih hsteps ha h
    | type type =>
      -- nothing can fail any more
      obtain rfl := List.isEmpty_iff.mp hsteps
      exact absurd (ha.symm.trans h) (by simp)

end RunAdd

/-- The modules without private data whose `add` can fail. -/
def plain : List ModuleName := [.midiIn, .midiOut, .oscIn, .oscOut]

/-- The four have no private data. -/
theorem add_plain (cfg : Config) {name : ModuleName} (h : name ∈ plain) :
    ¬ HasDat (add cfg name) := by
  obtain ⟨metadata, path, udp⟩ := cfg
  simp only [plain, List.mem_cons, List.not_mem_nil, or_false] at h
  obtain rfl | rfl | rfl | rfl := h <;> cases metadata <;> simp [HasDat, add, jackPort, check]

/-- All but the two with a thread set the type at the end. -/
theorem typeLast_add (cfg : Config) {name : ModuleName} (hin : name ≠ .netIn)
    (hout : name ≠ .netOut) : TypeLast (add cfg name) = true := by
  obtain ⟨metadata, path, udp⟩ := cfg
  cases name with
  | netIn => exact absurd rfl hin
  | netOut => exact absurd rfl hout
  | cvIn | cvOut | midiIn | midiOut | oscIn | oscOut => cases metadata <;> rfl
  | read | write => cases path <;> rfl
  | _ => rfl

/-- The other modules allocate in front of the first check, or do not check. -/
theorem add_other (cfg : Config) {name : ModuleName} (h : name ∉ plain) :
    (∃ (options : List String) (rest : List AddStep), add cfg name =
        options.map .option ++ .alloc true :: rest) ∨
      ∀ env i, (runAdd env (modName name) i (add cfg name) Added.new).result = .added := by
  cases name with
  | midiIn | midiOut | oscIn | oscOut => exact absurd h (by decide)
  | loopback | uplink => exact Or.inr fun _ _ => rfl
  | transport =>
    -- it goes on without its data
    right
    intro env i
    unfold add runAdd
    cases env.fails i <;> rfl
  | netIn => exact Or.inl ⟨["uri", "rtprio", "unroll"], _, rfl⟩
  | netOut => exact Or.inl ⟨["uri", "rtprio", "unroll", "offset"], _, rfl⟩
  | _ => exact Or.inl ⟨[], _, rfl⟩

namespace PluginCall

variable {c : PluginCall} {m : ModulePtr} {s s' : PluginHost}

/-- **Which modules lose a block** when they fail. -/
theorem dat_iff {name : ModuleName} {message : String}
    (h : (c.added name).result = .failed message) : (c.added name).dat = false ↔ name ∈ plain := by
  constructor
  · intro hdat
    by_contra hother
    obtain ⟨options, rest, hadd⟩ | hadded := add_other c.cfg hother
    · unfold added at h hdat
      rw [hadd] at h hdat
      rw [dat_of_failed h] at hdat
      exact Bool.noConfusion hdat
    · exact absurd ((hadded c.env 0).symm.trans h) (by simp)
  · intro hplain
    exact dat_of_not_hasDat (add_plain c.cfg hplain) 0 Added.new

/-- **Only the modules with a thread have a type when they fail.** -/
theorem type_eq_zero {name : ModuleName} {message : String}
    (h : (c.added name).result = .failed message) (hin : name ≠ .netIn) (hout : name ≠ .netOut) :
    (c.added name).type = 0 :=
  type_of_failed (typeLast_add c.cfg hin hout) rfl h

end PluginCall

end Plugin

/-! ### What a call does -/

namespace Owners

/-- **The blocks that are allocated.** -/
def Allocated (s : Owners) (b : ℕ) : Prop := b < s.allocated.length ∧ b ∉ s.freed

variable {s : Owners} (m : ModulePtr) (responder : Responder) (type : ModuleType)
  (hasDat addFails : Bool)

/-- The child record and the private data are no entries of the lists, and nothing is freed. -/
theorem respond_add_tables (s : Owners) :
    ((s.respond m responder).add m type hasDat addFails).modules = s.modules ∧
      ((s.respond m responder).add m type hasDat addFails).uplinks = s.uplinks ∧
      ((s.respond m responder).add m type hasDat addFails).freed = s.freed := by
  have hadd : ∀ t : Owners, (t.add m type hasDat addFails).modules = t.modules ∧
      (t.add m type hasDat addFails).uplinks = t.uplinks ∧
      (t.add m type hasDat addFails).freed = t.freed := by
    intro t
    cases hasDat <;> exact ⟨rfl, rfl, rfl⟩
  have hrespond : (s.respond m responder).modules = s.modules ∧
      (s.respond m responder).uplinks = s.uplinks ∧ (s.respond m responder).freed = s.freed := by
    unfold respond
    split
    · split <;> exact ⟨rfl, rfl, rfl⟩
    · exact ⟨rfl, rfl, rfl⟩
  obtain ⟨hmodules, huplinks, hfreed⟩ := hadd (s.respond m responder)
  exact ⟨hmodules.trans hrespond.1, huplinks.trans hrespond.2.1, hfreed.trans hrespond.2.2⟩

/-- The type that `add` has set. -/
theorem add_type (s : Owners) : ((s.add m type hasDat addFails).module m).type = type := by
  cases hasDat <;> exact congrArg OwnedModule.type (setModule_self m _ s)

/-- **What `_plugin` allocates**: the child record and the private data. -/
theorem plugin_allocated (s : Owners) : (s.plugin m responder type hasDat addFails).allocated =
    ((s.create m).respond m responder).allocated ++ (if hasDat then [m] else []) := by
  cases hasDat with
  | true => rfl
  | false => exact (List.append_nil _).symm

variable {m responder type hasDat addFails}

/-- **A module without a type and without blocks leaves no trace.** -/
theorem plugin_tables (h : type = 0) :
    (s.plugin m responder type hasDat addFails).modules = s.modules ∧
      (s.plugin m responder type hasDat addFails).uplinks = s.uplinks := by
  obtain ⟨hmodules, huplinks, -⟩ :=
    respond_add_tables m responder type hasDat addFails (s.create m)
  subst h
  unfold plugin register
  simp only [add_type]
  exact ⟨hmodules, huplinks⟩

theorem plugin_freed : (s.plugin m responder type hasDat addFails).freed = s.freed :=
  (respond_add_tables m responder type hasDat addFails (s.create m)).2.2

/-- The set of blocks is the same only if none has been allocated. -/
theorem allocated_iff {s' : Owners} {blocks : List ModulePtr} (hlt : ∀ b ∈ s.freed, b < s.allocated.length)
    (hallocated : s'.allocated = s.allocated ++ blocks) (hfreed : s'.freed = s.freed) :
    (∀ b, s'.Allocated b ↔ s.Allocated b) ↔ blocks = [] := by
  unfold Allocated
  rw [hallocated, hfreed, List.length_append]
  constructor
  · intro h
    by_contra hblocks
    have hpos := List.length_pos_iff.mpr hblocks
    -- the first new block has a number that no block had, and has not been freed
    have hnew := (h s.allocated.length).mp
      ⟨Nat.lt_add_of_pos_right hpos, fun hfreed => (hlt _ hfreed).false⟩
    exact hnew.1.false
  · rintro rfl b
    rfl

end Owners

namespace Plugin

open PluginCall

/-- **The host is as it was**: nothing has been added to the lists and to the registry, and the same
blocks are allocated. -/
structure Restored (s s' : PluginHost) : Prop where
  modules : s'.owners.modules = s.owners.modules
  uplinks : s'.owners.uplinks = s.owners.uplinks
  registry : s'.registry = s.registry
  blocks : ∀ b, s'.owners.Allocated b ↔ s.owners.Allocated b

variable {c : PluginCall} {m : ModulePtr} {s : PluginHost}

/-- The child record, as a list of blocks. -/
theorem respond_allocated : ((s.owners.create m).respond m c.responder).allocated =
    s.owners.allocated ++ (if c.hasChild m s then [m] else []) := by
  unfold Owners.respond hasChild
  cases c.responder with
  | userdata modOut =>
    dsimp only
    split
    · rfl
    · exact (List.append_nil _).symm
  | none => exact (List.append_nil _).symm
  | function => exact (List.append_nil _).symm

/-- **The blocks behind a failed call** are those in front of it, if there is neither a child record
nor private data. -/
theorem blocks_iff (hs : Owners.machine.Reachable s.owners) {type : ModuleType} {dat fails : Bool} :
    (∀ b, (s.owners.plugin m c.responder type dat fails).Allocated b ↔ s.owners.Allocated b) ↔
      c.hasChild m s = false ∧ dat = false := by
  have hallocated := (Owners.plugin_allocated m c.responder type dat fails s.owners).trans
    (congrArg (· ++ _) respond_allocated)
  rw [List.append_assoc] at hallocated
  rw [Owners.allocated_iff (Owners.inv_of_reachable hs).freed_lt hallocated Owners.plugin_freed]
  cases c.hasChild m s <;> cases dat <;> simp

/-- **A failed call** returns `nil`, and what is left of it are its blocks, its responder and, where
`add` has set the type, its entry in a list. -/
theorem finish_of_failed {name : ModuleName} {message : String}
    (h : (c.added name).result = .failed message) :
    ∃ s', c.finish m name s = .returned none s' ∧
      s'.owners = s.owners.plugin m c.responder (c.added name).type (c.added name).dat true ∧
      s'.registry = if c.responder = .function then m :: s.registry else s.registry := by
  unfold finish
  dsimp only
  rw [h]
  exact ⟨_, rfl, rfl, rfl⟩

/-- No entry is left in the lists, unless the thread of a module cannot be created. -/
theorem tables_of_failed {name : ModuleName} {message : String}
    (h : (c.added name).result = .failed message) (hin : name ≠ .netIn) (hout : name ≠ .netOut) :
    (s.owners.plugin m c.responder (c.added name).type (c.added name).dat true).modules =
        s.owners.modules ∧
      (s.owners.plugin m c.responder (c.added name).type (c.added name).dat true).uplinks =
        s.owners.uplinks :=
  Owners.plugin_tables (type_eq_zero h hin hout)

/-- What is left of a call whose `add` has failed. -/
theorem finish_restored_iff (hs : Owners.machine.Reachable s.owners) {name : ModuleName}
    {message : String} (h : (c.added name).result = .failed message) :
    (∃ s', c.finish m name s = .returned none s' ∧ Restored s s') ↔
      name ∈ plain ∧ c.responder ≠ .function ∧ c.hasChild m s = false := by
  obtain ⟨s', hreturned, howners, hregistry⟩ := finish_of_failed (m := m) (s := s) h
  constructor
  · rintro ⟨t, ht, hrestored⟩
    rw [hreturned] at ht
    obtain rfl := (Outcome.returned.inj ht).2
    have hblocks := hrestored.blocks
    rw [howners] at hblocks
    obtain ⟨hchild, hdat⟩ := (blocks_iff hs).mp hblocks
    refine ⟨(dat_iff h).mp hdat, ?_, hchild⟩
    -- a responder stays in the registry
    intro hfunction
    have hkeys := hrestored.registry
    rw [hregistry, if_pos hfunction] at hkeys
    exact List.cons_ne_self m _ hkeys
  · rintro ⟨hplain, hfunction, hchild⟩
    -- none of the four has a thread, so none has a type by now
    have hin : name ≠ .netIn := fun h => absurd (h ▸ hplain) (by decide)
    have hout : name ≠ .netOut := fun h => absurd (h ▸ hplain) (by decide)
    obtain ⟨hmodules, huplinks⟩ := tables_of_failed (m := m) (s := s) h hin hout
    refine ⟨s', hreturned, ?_, ?_, ?_, ?_⟩
    · rw [howners, hmodules]
    · rw [howners, huplinks]
    · rw [hregistry, if_neg hfunction]
    · rw [howners]
      exact (blocks_iff hs).mpr ⟨hchild, (dat_iff h).mpr hplain⟩

/-- **When a failed call leaves the host as it was.** -/
theorem restored_iff (hs : Owners.machine.Reachable s.owners) (hfails : c.Fails) :
    (∃ s', c.plugin m s = .returned none s' ∧ Restored s s') ↔
      (∃ name ∈ plain, c.module = some name) ∧ c.responder ≠ .function ∧
        c.hasChild m s = false := by
  unfold Fails at hfails
  unfold plugin
  cases hmodule : c.module with
  | none =>
    -- there is nothing to call
    constructor
    · rintro ⟨_, h, -⟩
      cases h
    · rintro ⟨⟨_, _, h⟩, -⟩
      cases h
  | some name =>
    rw [hmodule] at hfails
    obtain ⟨message, hfailed⟩ := hfails
    have hname : (∃ name' ∈ plain, some name = some name') ↔ name ∈ plain := by simp
    have hfinish := finish_restored_iff (m := m) (s := s) hs hfailed
    rw [hname, ← hfinish]
    dsimp only
    cases hchild : c.hasChild m s with
    | false => rfl
    | true =>
      -- the child record is lost, if there has been memory for it
      rw [hchild] at hfinish
      have hlost : ¬ ∃ s', c.finish m name s = .returned none s' ∧ Restored s s' :=
        fun h => Bool.noConfusion (hfinish.mp h).2.2
      refine iff_of_false ?_ hlost
      rintro ⟨s', h, hrestored⟩
      split at h
      · cases h
      · exact hlost ⟨s', h, hrestored⟩

/-- Nothing has been created. -/
def startHost : PluginHost := ⟨Owners.start, [], [], none⟩

theorem startHost_reachable : Owners.machine.Reachable startHost.owners :=
  ⟨Owners.start, [], Owners.start_init, rfl⟩

/-- A call for a module without further arguments, one of whose calls fails. -/
def failing (name : ModuleName) (responder : Responder) (i : ℕ) : PluginCall :=
  ⟨modName name, some name, ⟨true, true, false⟩, responder, false, ⟨fun j => j == i, "EAGAIN"⟩⟩

/-- A port of `midi_in` that cannot be registered. -/
theorem restored_iff_midiIn :
    ∃ s', (failing .midiIn .none 1).plugin 1 startHost = .returned none s' ∧
      Restored startHost s' := by
  have hfails : (failing .midiIn .none 1).Fails :=
    Exists.intro "midi_in: could not register jack port" rfl
  exact (restored_iff startHost_reachable hfails).mpr
    ⟨⟨.midiIn, by decide, rfl⟩, by decide, rfl⟩

/-- **An entry stays.** The thread of `net_in` cannot be created. -/
theorem entry_stays :
    (failing .netIn .none 13).Fails ∧
      ∃ s', (failing .netIn .none 13).plugin 1 startHost = .returned none s' ∧
        1 ∈ s'.owners.modules ∧ s'.owners.Allocated 0 ∧ ¬ startHost.owners.Allocated 0 := by
  have hfails : (failing .netIn .none 13).Fails := Exists.intro "net_in: EAGAIN" rfl
  refine ⟨hfails, _, rfl, by decide, ⟨by decide, by decide⟩, ?_⟩
  exact fun h => absurd h.1 (by decide)

end Plugin

end Tjost
