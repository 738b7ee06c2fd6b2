import Mathlib.Data.List.Nodup
import Mathlib.Data.List.InsertIdx
import Mathlib.Logic.Function.Basic
import Tjost.Library.Transition
import Tjost.Types

/-!
# The lifetime of the modules

A module is a Lua userdatum. The host refers to modules from its lists, from the
child records of other modules, from the events on its queue and from the
broadcast loop, and Lua knows of none of these references: it collects a module
as soon as the script has dropped it. The `__gc` handlers take a module off the
host's lists and free its own child records. They leave the child records of
other modules and the events on the host queue alone.

`Runtime.machine` is the host reduced to its module pointers, under a script that
may call `plugin` and `chain` and drop any module whenever Lua runs. What the
queues, the times and the payloads are does not matter here; an event is the
module it names, and `NULL` is the broadcast.

`Runtime.noDangling_iff`: no reference dangles at any time of a run if and only if
every step of the run meets `Runtime.Keeps`. A handler may run only on a module
that no other live module has as a child, that no event on the host queue names,
and that the broadcast loop is not at (`Runtime.collected_child` is a run in which
it does not wait for that). A module whose `add` has failed after it set the type
has no handler and stays on the host's list. A reply of an uplink that has been
collected may not be taken over from the receive pipe.
-/

open Transition

namespace Tjost

/-- `Tjost_Module`, as far as it matters here. The events on `module->queue` name
no module. -/
structure LuaModule where
  type : ModuleType
  hasLuaCallback : Bool
  /-- The userdatum has got the metatable of its type, with the handler. -/
  hasGc : Bool
  children : List ModulePtr
  deriving DecidableEq, Repr

/-- The second argument of `plugin`. -/
inductive Responder
  | none
  /-- A table or a function. -/
  | function
  | userdata (modOut : ModulePtr)
  deriving DecidableEq, Repr

/-- Where `_process` is. -/
inductive ProcessPc
  /-- Between two cycles. -/
  | idle
  /-- Lua runs outside the cycles: the script is loaded, or Lua is closed. -/
  | script
  /-- The receive pipe and the inputs. -/
  | receive
  /-- At the head of the loop over the queue. -/
  | events
  /-- In the callback for the first event. -/
  | callback
  /-- In the broadcast loop, at this uplink or at its end. -/
  | broadcast (uplink : Option ModulePtr)
  /-- In the callback of this uplink. -/
  | uplinkCallback (uplink : ModulePtr)
  /-- The outputs and the uplinks. -/
  | outputs
  /-- In the collection step. -/
  | collect
  deriving DecidableEq, Repr

/-- Lua runs, so the script may call the host and modules may be collected. -/
def ProcessPc.lua : ProcessPc → Bool
  | .script | .callback | .uplinkCallback _ | .collect => true
  | _ => false

/-- The uplink the broadcast loop is visiting. -/
def ProcessPc.visiting : ProcessPc → Option ModulePtr
  | .broadcast uplink => uplink
  | .uplinkCallback uplink => some uplink
  | _ => none

/-- The module pointers of the host. -/
structure Runtime where
  /-- Every userdatum so far. A new one is none of them. -/
  created : List ModulePtr
  collected : List ModulePtr
  /-- What is behind a pointer. -/
  module : ModulePtr → LuaModule
  modules : List ModulePtr
  uplinks : List ModulePtr
  /-- `tev->module` of the events on the host queue. -/
  queue : List ModulePtr
  pipeTx : List ModulePtr
  pipeRx : List ModulePtr
  pc : ProcessPc

namespace Runtime

/-- A module that has not been collected. -/
def Live (s : Runtime) (m : ModulePtr) : Prop := m ∈ s.created ∧ m ∉ s.collected

instance (s : Runtime) (m : ModulePtr) : Decidable (s.Live m) :=
  inferInstanceAs (Decidable (_ ∧ _))

/-! ### The functions of the script -/

/-- `_plugin`. `type` is what `add` has set `module->type` to, also where it fails. -/
def plugin (m : ModulePtr) (responder : Responder) (type : ModuleType) (addFails : Bool)
    (s : Runtime) : Runtime :=
  let module := Function.update s.module m ⟨0, false, false, []⟩
  let children := match responder with
    | .userdata modOut => if isOutput (module modOut).type then [modOut] else []
    | _ => []
  -- the switch, for the lists and for the metatable; a failed `add` leaves `nil` there
  let isModule := type = moduleInput ∨ type = moduleOutput ∨ type = moduleInOut
  let isUplink := type = moduleUplink
  { s with
    created := m :: s.created
    module := Function.update s.module m
      ⟨type, responder = .function, (isModule ∨ isUplink) ∧ addFails = false, children⟩
    modules := if isModule then s.modules ++ [m] else s.modules
    uplinks := if isUplink then s.uplinks ++ [m] else s.uplinks }

/-- `_chain`. -/
def chain (modIn modOut : ModulePtr) (s : Runtime) : Runtime :=
  if isInput (s.module modIn).type ∧ isOutput (s.module modOut).type then
    let child := { s.module modIn with children := (s.module modIn).children ++ [modOut] }
    { s with module := Function.update s.module modIn child }
  else s

/-- Free the child records. -/
def freeChildren (m : ModulePtr) (s : Runtime) : Runtime :=
  { s with module := Function.update s.module m { s.module m with children := [] } }

/-- `_gc_input`. -/
def gcInput (m : ModulePtr) (s : Runtime) : Runtime :=
  freeChildren m { s with modules := s.modules.erase m }

/-- `_gc_output`. -/
def gcOutput (m : ModulePtr) (s : Runtime) : Runtime := { s with modules := s.modules.erase m }

/-- `_gc_in_out`. -/
def gcInOut (m : ModulePtr) (s : Runtime) : Runtime :=
  freeChildren m { s with modules := s.modules.erase m }

/-- `_gc_uplink`. The child records stay allocated. -/
def gcUplink (m : ModulePtr) (s : Runtime) : Runtime := { s with uplinks := s.uplinks.erase m }

/-- The `__gc` of the module's metatable. -/
def gc (m : ModulePtr) (s : Runtime) : Runtime :=
  let type := (s.module m).type
  if type = moduleInput then gcInput m s
  else if type = moduleOutput then gcOutput m s
  else if type = moduleInOut then gcInOut m s
  else gcUplink m s

/-! ### The machine -/

inductive Label
  /-- Lua starts to run outside the cycles. -/
  | script
  /-- Lua returns. -/
  | ret
  /-- A cycle starts. -/
  | cycle
  /-- The next record of the receive pipe goes to the queue, at that place. -/
  | rx (i : ℕ)
  /-- An event of an input, by its `process_in`. -/
  | processIn (m : ModulePtr) (i : ℕ)
  /-- The loop over the queue starts. -/
  | dispatch
  /-- The first event is due. -/
  | event
  /-- The next round of the broadcast loop. -/
  | uplink
  /-- No more events are due. -/
  | outputs
  /-- An event of a loopback, by its `process_out`. -/
  | processOut (m : ModulePtr) (i : ℕ)
  /-- A request of an uplink, by its `process_out`. -/
  | tx (m : ModulePtr)
  /-- The collection step. -/
  | collect
  | plugin (m : ModulePtr) (responder : Responder) (type : ModuleType) (addFails : Bool)
  | chain (modIn modOut : ModulePtr)
  | gc (m : ModulePtr)
  /-- A userdatum without a handler is freed. -/
  | free (m : ModulePtr)
  /-- The uv loop handles a request, with a reply or without. -/
  | request (reply : Bool)
  /-- A notification of JACK, as a broadcast. -/
  | notify
  deriving DecidableEq, Repr

def Enabled (s : Runtime) : Label → Prop
  | .script | .cycle => s.pc = .idle
  | .ret => s.pc.lua
  | .rx i => s.pc = .receive ∧ s.pipeRx ≠ [] ∧ i ≤ s.queue.length
  | .processIn m i =>
    s.pc = .receive ∧ m ∈ s.modules ∧ isInput (s.module m).type ∧ i ≤ s.queue.length
  | .dispatch => s.pc = .receive
  | .event => s.pc = .events ∧ s.queue ≠ []
  | .uplink => s.pc = .broadcast s.pc.visiting
  | .outputs => s.pc = .events
  | .processOut m i =>
    s.pc = .outputs ∧ m ∈ s.modules ∧ isOutput (s.module m).type ∧ i ≤ s.queue.length
  | .tx m => s.pc = .outputs ∧ m ∈ s.uplinks
  | .collect => s.pc = .outputs
  | .plugin m _ _ _ => s.pc.lua ∧ m ∉ s.created ∧ m ≠ moduleBroadcast
  | .chain _ _ => s.pc.lua
  | .gc m => s.pc.lua ∧ s.Live m ∧ (s.module m).hasGc
  | .free m => s.pc.lua ∧ s.Live m ∧ (s.module m).hasGc = false
  | .request _ => s.pipeTx ≠ []
  | .notify => True

instance (s : Runtime) : ∀ l, Decidable (s.Enabled l)
  | .script | .cycle | .dispatch | .outputs | .uplink | .collect =>
    inferInstanceAs (Decidable (_ = _))
  | .ret | .chain _ _ => inferInstanceAs (Decidable (_ = true))
  | .rx _ | .processIn _ _ | .event | .processOut _ _ | .tx _ | .plugin _ _ _ _ | .gc _ | .free _ =>
    inferInstanceAs (Decidable (_ ∧ _))
  | .request _ => inferInstanceAs (Decidable (_ ≠ _))
  | .notify => instDecidableTrue

/-- The next node of `host->uplinks`. A node that was taken off the list has none. -/
def following (uplink : ModulePtr) (uplinks : List ModulePtr) : Option ModulePtr :=
  (uplinks.dropWhile (· ≠ uplink)).tail.head?

/-- The first event has been handled. -/
def finishEvent (s : Runtime) : Runtime := { s with queue := s.queue.tail, pc := .events }

/-- What an enabled step does. -/
def next (s : Runtime) : Label → Runtime
  | .script => { s with pc := .script }
  | .ret =>
    match s.pc with
    | .callback => s.finishEvent
    | .uplinkCallback u => { s with pc := .broadcast (following u s.uplinks) }
    | _ => { s with pc := .idle }
  | .cycle => { s with pc := .receive }
  | .rx i =>
    { s with queue := s.queue.insertIdx i (s.pipeRx.headD moduleBroadcast), pipeRx := s.pipeRx.tail }
  | .processIn m i | .processOut m i => { s with queue := s.queue.insertIdx i m }
  | .dispatch => { s with pc := .events }
  | .event =>
    let m := s.queue.headD moduleBroadcast
    if m = moduleBroadcast then { s with pc := .broadcast s.uplinks.head? }
    else if (s.module m).hasLuaCallback then { s with pc := .callback }
    else s.finishEvent
  | .uplink =>
    match s.pc.visiting with
    | none => s.finishEvent
    | some u =>
      -- the event gets the uplink as its module for the time of the callback
      if (s.module u).hasLuaCallback then
        { s with queue := u :: s.queue.tail, pc := .uplinkCallback u }
      else { s with pc := .broadcast (following u s.uplinks) }
  | .outputs => { s with pc := .outputs }
  | .tx m => { s with pipeTx := s.pipeTx ++ [m] }
  | .collect => { s with pc := .collect }
  | .plugin m responder type addFails => s.plugin m responder type addFails
  | .chain modIn modOut => s.chain modIn modOut
  | .gc m => { s.gc m with collected := m :: s.collected }
  | .free m => { s with collected := m :: s.collected }
  | .request reply =>
    { s with
      pipeTx := s.pipeTx.tail
      pipeRx := s.pipeRx ++ if reply then s.pipeTx.take 1 else [] }
  | .notify => { s with pipeRx := s.pipeRx ++ [moduleBroadcast] }

/-- Nothing has been created, and nothing is queued. -/
def Init (s : Runtime) : Prop :=
  s.created = [] ∧ s.collected = [] ∧ s.modules = [] ∧ s.uplinks = [] ∧ s.queue = [] ∧
    s.pipeTx = [] ∧ s.pipeRx = [] ∧ s.pc = .idle

def machine : Machine Runtime Label where
  init := Init
  step s l := if s.Enabled l then some (s.next l) else none

/-! ### References -/

/-- The references the host can follow. -/
inductive Refers (s : Runtime) : ModulePtr → Prop
  | modules {m : ModulePtr} : m ∈ s.modules → Refers s m
  | uplinks {m : ModulePtr} : m ∈ s.uplinks → Refers s m
  | child {m x : ModulePtr} : s.Live x → m ∈ (s.module x).children → Refers s m
  | event {m : ModulePtr} : m ∈ s.queue → m ≠ moduleBroadcast → Refers s m
  | visiting {m : ModulePtr} : s.pc.visiting = some m → Refers s m

/-- **No dangling references.** -/
def NoDangling (s : Runtime) : Prop := ∀ m, s.Refers m → s.Live m

/-- Nothing but the host's lists and its own child records refers to the module. -/
def Unreferenced (s : Runtime) (m : ModulePtr) : Prop :=
  (∀ x ∈ s.created, x ∉ s.collected → x ≠ m → m ∉ (s.module x).children) ∧ m ∉ s.queue ∧
    s.pc.visiting ≠ some m

/-- **References are kept.** The condition on a state and the step taken in it. -/
def Keeps (s : Runtime) : Label → Prop
  | .gc m => s.Unreferenced m
  -- a module without a handler is not taken off the lists
  | .free m => s.Unreferenced m ∧ m ∉ s.modules ∧ m ∉ s.uplinks
  | .rx _ => s.pipeRx.headD moduleBroadcast = moduleBroadcast ∨
      s.Live (s.pipeRx.headD moduleBroadcast)
  -- the script passes a module that Lua has not collected
  | .plugin m (.userdata modOut) _ _ =>
    modOut ≠ m → isOutput (s.module modOut).type → s.Live modOut
  | .chain modIn modOut =>
    s.Live modIn → isInput (s.module modIn).type → isOutput (s.module modOut).type →
      s.Live modOut
  | _ => True

-- by the list of the modules, not by all the pointers there are
instance (s : Runtime) (m : ModulePtr) : Decidable (s.Unreferenced m) :=
  have : Decidable (∀ x ∈ s.created, x ∉ s.collected → x ≠ m → m ∉ (s.module x).children) :=
    List.decidableBAll _ _
  inferInstanceAs (Decidable (_ ∧ _))

instance decidableKeeps (s : Runtime) : ∀ l, Decidable (s.Keeps l)
  | .gc m => inferInstanceAs (Decidable (s.Unreferenced m))
  | .free _ => inferInstanceAs (Decidable (_ ∧ _))
  | .rx _ => inferInstanceAs (Decidable (_ ∨ _))
  | .plugin _ (.userdata _) _ _ => inferInstanceAs (Decidable (_ → _ → _))
  | .chain _ _ => inferInstanceAs (Decidable (_ → _ → _ → _))
  | .plugin _ .none _ _ | .plugin _ .function _ _ | .script | .ret | .cycle | .processIn _ _
  | .dispatch | .event | .uplink | .outputs | .processOut _ _ | .tx _ | .collect | .request _
  | .notify => instDecidableTrue

/-- What the lists hold, whether or not references dangle. -/
structure Listed (s : Runtime) : Prop where
  modules_nodup : s.modules.Nodup
  uplinks_nodup : s.uplinks.Nodup
  modules_created : ∀ m ∈ s.modules, m ∈ s.created ∧
    ((s.module m).type = moduleInput ∨ (s.module m).type = moduleOutput ∨
      (s.module m).type = moduleInOut)
  uplinks_created : ∀ m ∈ s.uplinks, m ∈ s.created ∧ (s.module m).type = moduleUplink
  created_ne : moduleBroadcast ∉ s.created
  collected_created : ∀ m ∈ s.collected, m ∈ s.created

variable {s s' : Runtime} {m : ModulePtr} {l : Label}

theorem Init.listed (h : Init s) : Listed s := by
  obtain ⟨hcreated, hcollected, hmodules, huplinks, -⟩ := h
  refine ⟨?_, ?_, ?_, ?_, ?_, ?_⟩
  · rw [hmodules]
    exact List.nodup_nil
  · rw [huplinks]
    exact List.nodup_nil
  · rw [hmodules]
    exact fun m hm => absurd hm List.not_mem_nil
  · rw [huplinks]
    exact fun m hm => absurd hm List.not_mem_nil
  · rw [hcreated]
    exact List.not_mem_nil
  · rw [hcollected]
    exact fun m hm => absurd hm List.not_mem_nil

theorem Init.noDangling (h : Init s) : NoDangling s := by
  obtain ⟨hcreated, -, hmodules, huplinks, hqueue, -, -, hpc⟩ := h
  intro m hm
  cases hm with
  | modules hm => rw [hmodules] at hm; cases hm
  | uplinks hm => rw [huplinks] at hm; cases hm
  | child hx hm => rw [Live, hcreated] at hx; cases hx.1
  | event hm hne => rw [hqueue] at hm; cases hm
  | visiting hm => rw [hpc] at hm; cases hm

/-- Steps that leave the modules and the lists alone. -/
theorem Listed.of_eq (h : Listed s) (hcreated : s'.created = s.created)
    (hcollected : ∀ m ∈ s'.collected, m ∈ s.created) (hmodule : s'.module = s.module)
    (hmodules : s'.modules = s.modules) (huplinks : s'.uplinks = s.uplinks) : Listed s' := by
  refine ⟨?_, ?_, ?_, ?_, ?_, ?_⟩
  · rw [hmodules]
    exact h.modules_nodup
  · rw [huplinks]
    exact h.uplinks_nodup
  · rw [hmodules, hcreated, hmodule]
    exact h.modules_created
  · rw [huplinks, hcreated, hmodule]
    exact h.uplinks_created
  · rw [hcreated]
    exact h.created_ne
  · rw [hcreated]
    exact hcollected

/-- Steps that move events and the loops only. -/
theorem NoDangling.of_eq (h : NoDangling s) (hlive : ∀ m, s'.Live m ↔ s.Live m)
    (hmodule : s'.module = s.module) (hmodules : s'.modules = s.modules)
    (huplinks : s'.uplinks = s.uplinks)
    (hqueue : ∀ m ∈ s'.queue, m ≠ moduleBroadcast → s.Live m)
    (hvisiting : ∀ m, s'.pc.visiting = some m → s.Live m) : NoDangling s' := by
  intro m hm
  rw [hlive]
  cases hm with
  | modules hm => exact h m (.modules (hmodules ▸ hm))
  | uplinks hm => exact h m (.uplinks (huplinks ▸ hm))
  | child hx hm =>
    rw [hmodule] at hm
    exact h m (.child ((hlive _).mp hx) hm)
  | event hm hne => exact hqueue m hm hne
  | visiting hm => exact hvisiting m hm

theorem NoDangling.queue (h : NoDangling s) (hm : m ∈ s.queue) (hne : m ≠ moduleBroadcast) :
    s.Live m := h m (.event hm hne)

theorem NoDangling.tail (h : NoDangling s) (hm : m ∈ s.queue.tail) (hne : m ≠ moduleBroadcast) :
    s.Live m := h.queue (List.mem_of_mem_tail hm) hne

/-- An event of a live module. -/
theorem NoDangling.insert (h : NoDangling s) {i : ℕ} {x : ModulePtr}
    (hx : x ≠ moduleBroadcast → s.Live x) (hi : i ≤ s.queue.length)
    (hm : m ∈ s.queue.insertIdx i x) (hne : m ≠ moduleBroadcast) : s.Live m := by
  rcases (List.mem_insertIdx hi).mp hm with rfl | hm
  · exact hx hne
  · exact h.queue hm hne

theorem mem_of_following {u : ModulePtr} {uplinks : List ModulePtr}
    (h : following u uplinks = some m) : m ∈ uplinks :=
  (List.dropWhile_sublist _).subset (List.mem_of_mem_tail (List.mem_of_mem_head? h))

/-! ### The handlers -/

/-- **What a `__gc` does.** Whatever the type, the module is on no list of the host
any more, and nothing else has changed but its own child records. -/
theorem Listed.gc_eq (h : Listed s) (m : ModulePtr) :
    (s.gc m).modules = s.modules.erase m ∧ (s.gc m).uplinks = s.uplinks.erase m ∧
      (s.gc m).created = s.created ∧ (s.gc m).queue = s.queue ∧ (s.gc m).pc = s.pc ∧
      (∀ x, ((s.gc m).module x).type = (s.module x).type) ∧
      ∀ x, x ≠ m → (s.gc m).module x = s.module x := by
  -- a listed module has a type of its list, so the list of the other types does not lose it
  have hmodules : m ∈ s.modules → (s.module m).type = moduleInput ∨
      (s.module m).type = moduleOutput ∨ (s.module m).type = moduleInOut :=
    fun hm => (h.modules_created m hm).2
  have huplinks : (s.module m).type ≠ moduleUplink → s.uplinks.erase m = s.uplinks :=
    fun hne => List.erase_of_not_mem fun hm => hne (h.uplinks_created m hm).2
  have htype : ∀ x, (Function.update s.module m { s.module m with children := [] } x).type =
      (s.module x).type := by
    intro x
    by_cases hx : x = m
    · rw [hx, Function.update_self]
    · rw [Function.update_of_ne hx]
  have hother : ∀ x, x ≠ m →
      Function.update s.module m { s.module m with children := [] } x = s.module x :=
    fun x hx => Function.update_of_ne hx ..
  unfold gc
  dsimp only
  split
  · next hin =>
    have hup := huplinks (by rw [hin]; decide)
    exact ⟨rfl, hup.symm, rfl, rfl, rfl, htype, hother⟩
  split
  · next hout =>
    have hup := huplinks (by rw [hout]; decide)
    exact ⟨rfl, hup.symm, rfl, rfl, rfl, fun _ => rfl, fun _ _ => rfl⟩
  split
  · next hinout =>
    have hup := huplinks (by rw [hinout]; decide)
    exact ⟨rfl, hup.symm, rfl, rfl, rfl, htype, hother⟩
  · next hin hout hinout =>
    -- the handler of an uplink, which no module list holds
    have hmod : m ∉ s.modules := by
      intro hm
      rcases hmodules hm with h | h | h
      · exact hin h
      · exact hout h
      · exact hinout h
    exact ⟨(List.erase_of_not_mem hmod).symm, rfl, rfl, rfl, rfl, fun _ => rfl, fun _ _ => rfl⟩

theorem Listed.gc (h : Listed s) (hm : s.Live m) :
    Listed { s.gc m with collected := m :: s.collected } := by
  obtain ⟨hmodules, huplinks, hcreated, -, -, htype, -⟩ := h.gc_eq m
  refine ⟨?_, ?_, ?_, ?_, ?_, ?_⟩
  · change (s.gc m).modules.Nodup
    rw [hmodules]
    exact h.modules_nodup.erase m
  · change (s.gc m).uplinks.Nodup
    rw [huplinks]
    exact h.uplinks_nodup.erase m
  · intro x hx
    change x ∈ (s.gc m).modules at hx
    rw [hmodules] at hx
    dsimp only
    rw [hcreated, htype]
    exact h.modules_created x (List.mem_of_mem_erase hx)
  · intro x hx
    change x ∈ (s.gc m).uplinks at hx
    rw [huplinks] at hx
    dsimp only
    rw [hcreated, htype]
    exact h.uplinks_created x (List.mem_of_mem_erase hx)
  · change moduleBroadcast ∉ (s.gc m).created
    rw [hcreated]
    exact h.created_ne
  · intro x hx
    change x ∈ (s.gc m).created
    rw [hcreated]
    rcases List.mem_cons.mp hx with rfl | hx
    · exact hm.1
    · exact h.collected_created x hx

variable (s') in
/-- **Collecting a module.** Exactly the references to it dangle. -/
theorem NoDangling.collect_iff (hn : NoDangling s) (hm0 : m ≠ moduleBroadcast)
    (hlive : ∀ x, s'.Live x ↔ s.Live x ∧ x ≠ m) (hmodules : ∀ x ∈ s'.modules, x ∈ s.modules)
    (huplinks : ∀ x ∈ s'.uplinks, x ∈ s.uplinks) (hqueue : s'.queue = s.queue)
    (hpc : s'.pc = s.pc) (hother : ∀ x, x ≠ m → s'.module x = s.module x) :
    NoDangling s' ↔ s.Unreferenced m ∧ m ∉ s'.modules ∧ m ∉ s'.uplinks := by
  have hdead : ¬ s'.Live m := fun h => ((hlive m).mp h).2 rfl
  constructor
  -- a reference to `m` that is left would be to a module that is not live
  · intro h
    refine ⟨⟨?_, ?_, ?_⟩, ?_, ?_⟩
    · intro x hx hxc hxm hchild
      rw [← hother x hxm] at hchild
      exact hdead (h m (.child ((hlive x).mpr ⟨⟨hx, hxc⟩, hxm⟩) hchild))
    · intro hevent
      rw [← hqueue] at hevent
      exact hdead (h m (.event hevent hm0))
    · intro hvisiting
      rw [← hpc] at hvisiting
      exact hdead (h m (.visiting hvisiting))
    · exact fun hmem => hdead (h m (.modules hmem))
    · exact fun hmem => hdead (h m (.uplinks hmem))
  -- and any other reference was one before
  · rintro ⟨⟨hchild, hevent, hvisiting⟩, hnmod, hnup⟩ x hx
    rw [hlive]
    cases hx with
    | modules hx => exact ⟨hn x (.modules (hmodules x hx)), fun hxm => hnmod (hxm ▸ hx)⟩
    | uplinks hx => exact ⟨hn x (.uplinks (huplinks x hx)), fun hxm => hnup (hxm ▸ hx)⟩
    | child hy hx =>
      obtain ⟨hy, hym⟩ := (hlive _).mp hy
      rw [hother _ hym] at hx
      exact ⟨hn x (.child hy hx), fun hxm => hchild _ hy.1 hy.2 hym (hxm ▸ hx)⟩
    | event hx hne =>
      rw [hqueue] at hx
      exact ⟨hn.queue hx hne, fun hxm => hevent (hxm ▸ hx)⟩
    | visiting hx =>
      rw [hpc] at hx
      exact ⟨hn x (.visiting hx), fun hxm => hvisiting (hxm ▸ hx)⟩

/-- The handler of a module. -/
theorem NoDangling.gc_iff (hn : NoDangling s) (hlisted : Listed s) (hm : s.Live m) :
    NoDangling { s.gc m with collected := m :: s.collected } ↔ s.Unreferenced m := by
  obtain ⟨hmodules, huplinks, hcreated, hqueue, hpc, -, hother⟩ := hlisted.gc_eq m
  have hm0 : m ≠ moduleBroadcast := fun h0 => hlisted.created_ne (h0 ▸ hm.1)
  have hcollect := hn.collect_iff { s.gc m with collected := m :: s.collected } hm0
    (by simp only [Live, hcreated, List.mem_cons, not_or]; tauto)
    (fun x hx => List.mem_of_mem_erase (hmodules ▸ hx))
    (fun x hx => List.mem_of_mem_erase (huplinks ▸ hx)) hqueue hpc hother
  rw [hcollect]
  change s.Unreferenced m ∧ m ∉ (s.gc m).modules ∧ m ∉ (s.gc m).uplinks ↔ _
  rw [hmodules, huplinks]
  refine and_iff_left ⟨?_, ?_⟩
  · exact hlisted.modules_nodup.not_mem_erase
  · exact hlisted.uplinks_nodup.not_mem_erase

/-- A userdatum without a handler stays on the lists. -/
theorem NoDangling.free_iff (hn : NoDangling s) (hlisted : Listed s) (hm : s.Live m) :
    NoDangling { s with collected := m :: s.collected } ↔
      s.Unreferenced m ∧ m ∉ s.modules ∧ m ∉ s.uplinks := by
  have hm0 : m ≠ moduleBroadcast := fun h0 => hlisted.created_ne (h0 ▸ hm.1)
  exact hn.collect_iff { s with collected := m :: s.collected } hm0
    (by simp only [Live, List.mem_cons, not_or]; tauto)
    (fun _ hx => hx) (fun _ hx => hx) rfl rfl (fun _ _ => rfl)

/-! ### The steps -/

theorem chain_type (modIn modOut x : ModulePtr) :
    ((s.chain modIn modOut).module x).type = (s.module x).type := by
  unfold chain
  split
  · by_cases hx : x = modIn
    · rw [hx]
      simp only [Function.update_self]
    · simp only [Function.update_of_ne hx]
  · rfl

theorem chain_eq (modIn modOut : ModulePtr) :
    (s.chain modIn modOut).created = s.created ∧ (s.chain modIn modOut).collected = s.collected ∧
      (s.chain modIn modOut).modules = s.modules ∧ (s.chain modIn modOut).uplinks = s.uplinks ∧
      (s.chain modIn modOut).queue = s.queue ∧ (s.chain modIn modOut).pc = s.pc := by
  unfold chain
  split <;> exact ⟨rfl, rfl, rfl, rfl, rfl, rfl⟩

theorem Listed.chain (h : Listed s) (modIn modOut : ModulePtr) : Listed (s.chain modIn modOut) := by
  obtain ⟨hcreated, hcollected, hmodules, huplinks, -, -⟩ := s.chain_eq modIn modOut
  refine ⟨?_, ?_, ?_, ?_, ?_, ?_⟩
  · rw [hmodules]
    exact h.modules_nodup
  · rw [huplinks]
    exact h.uplinks_nodup
  · intro x hx
    rw [hmodules] at hx
    rw [hcreated, chain_type]
    exact h.modules_created x hx
  · intro x hx
    rw [huplinks] at hx
    rw [hcreated, chain_type]
    exact h.uplinks_created x hx
  · rw [hcreated]
    exact h.created_ne
  · rw [hcollected, hcreated]
    exact h.collected_created

/-- A new child record dangles if the module it names does. -/
theorem NoDangling.chain_iff (hn : NoDangling s) (modIn modOut : ModulePtr) :
    NoDangling (s.chain modIn modOut) ↔
      (s.Live modIn → isInput (s.module modIn).type → isOutput (s.module modOut).type →
        s.Live modOut) := by
  obtain ⟨hcreated, hcollected, hmodules, huplinks, hqueue, hpc⟩ := s.chain_eq modIn modOut
  have hlive : ∀ x, (s.chain modIn modOut).Live x ↔ s.Live x := by
    intro x
    rw [Live, Live, hcreated, hcollected]
  constructor
  -- the new child is a reference
  · intro h hin htin htout
    refine (hlive modOut).mp (h modOut (.child ((hlive modIn).mpr hin) ?_))
    unfold chain
    rw [if_pos ⟨htin, htout⟩]
    simp
  · intro hkeeps x hx
    rw [hlive]
    cases hx with
    | modules hx => exact hn x (.modules (hmodules ▸ hx))
    | uplinks hx => exact hn x (.uplinks (huplinks ▸ hx))
    | child hy hx =>
      rename_i y
      have hy := (hlive y).mp hy
      unfold chain at hx
      split at hx
      · next htypes =>
        -- the children of `modIn` are the only ones that change
        by_cases hyin : y = modIn
        · rw [hyin] at hx hy
          simp only [Function.update_self] at hx
          rcases List.mem_append.mp hx with hx | hx
          · exact hn x (.child hy hx)
          · rw [List.mem_singleton.mp hx]
            exact hkeeps hy htypes.1 htypes.2
        · simp only [Function.update_of_ne hyin] at hx
          exact hn x (.child hy hx)
      · exact hn x (.child hy hx)
    | event hx hne => exact hn x (.event (hqueue ▸ hx) hne)
    | visiting hx => exact hn x (.visiting (hpc ▸ hx))

section Plugin

variable {responder : Responder} {type : ModuleType} {addFails : Bool}

/-- Where a new module is listed. -/
theorem mem_plugin_modules {x : ModulePtr} (hx : x ∈ (s.plugin m responder type addFails).modules) :
    x ∈ s.modules ∨
      x = m ∧ (type = moduleInput ∨ type = moduleOutput ∨ type = moduleInOut) := by
  simp only [plugin] at hx
  split at hx
  · next htype =>
    rcases List.mem_append.mp hx with hx | hx
    · exact Or.inl hx
    · exact Or.inr ⟨List.mem_singleton.mp hx, htype⟩
  · exact Or.inl hx

theorem mem_plugin_uplinks {x : ModulePtr} (hx : x ∈ (s.plugin m responder type addFails).uplinks) :
    x ∈ s.uplinks ∨ x = m ∧ type = moduleUplink := by
  simp only [plugin] at hx
  split at hx
  · next htype =>
    rcases List.mem_append.mp hx with hx | hx
    · exact Or.inl hx
    · exact Or.inr ⟨List.mem_singleton.mp hx, htype⟩
  · exact Or.inl hx

theorem plugin_module_of_ne {x : ModulePtr} (hx : x ≠ m) :
    (s.plugin m responder type addFails).module x = s.module x :=
  Function.update_of_ne hx ..

theorem plugin_type_self :
    ((s.plugin m responder type addFails).module m).type = type := by
  simp [plugin]

/-- The child of a new module. Its own type is still `0` when it is asked for. -/
theorem mem_plugin_children {x : ModulePtr} :
    x ∈ ((s.plugin m responder type addFails).module m).children ↔
      responder = .userdata x ∧ x ≠ m ∧ isOutput (s.module x).type := by
  simp only [plugin, Function.update_self]
  cases responder with
  | none => simp
  | function => simp
  | userdata modOut =>
    by_cases hm : modOut = m
    -- its own type is not yet set
    · rw [hm]
      simp only [Function.update_self]
      have h0 : isOutput 0 = false := by decide
      simp only [h0, Bool.false_eq_true, if_false, List.not_mem_nil, false_iff]
      rintro ⟨heq, hne, -⟩
      exact hne (Responder.userdata.inj heq).symm
    · simp only [Function.update_of_ne hm]
      split
      · next hout =>
        rw [List.mem_singleton]
        constructor
        · rintro rfl
          exact ⟨rfl, hm, hout⟩
        · rintro ⟨heq, -⟩
          exact (Responder.userdata.inj heq).symm
      · next hout =>
        refine iff_of_false List.not_mem_nil ?_
        rintro ⟨heq, -, hx⟩
        rw [← Responder.userdata.inj heq] at hx
        exact hout hx

theorem Listed.plugin (h : Listed s) (hm : m ∉ s.created) (hm0 : m ≠ moduleBroadcast) :
    Listed (s.plugin m responder type addFails) := by
  have hmodules : m ∉ s.modules := fun hmem => hm (h.modules_created m hmem).1
  have huplinks : m ∉ s.uplinks := fun hmem => hm (h.uplinks_created m hmem).1
  refine ⟨?_, ?_, ?_, ?_, ?_, ?_⟩
  · simp only [Runtime.plugin]
    split
    · exact h.modules_nodup.append (List.nodup_singleton m) (List.disjoint_singleton.mpr hmodules)
    · exact h.modules_nodup
  · simp only [Runtime.plugin]
    split
    · exact h.uplinks_nodup.append (List.nodup_singleton m) (List.disjoint_singleton.mpr huplinks)
    · exact h.uplinks_nodup
  · intro x hx
    rcases mem_plugin_modules hx with hx | ⟨rfl, htype⟩
    · rw [plugin_module_of_ne (ne_of_mem_of_not_mem hx hmodules)]
      obtain ⟨hcreated, htype⟩ := h.modules_created x hx
      exact ⟨List.mem_cons_of_mem _ hcreated, htype⟩
    · rw [plugin_type_self]
      exact ⟨List.mem_cons_self, htype⟩
  · intro x hx
    rcases mem_plugin_uplinks hx with hx | ⟨rfl, htype⟩
    · rw [plugin_module_of_ne (ne_of_mem_of_not_mem hx huplinks)]
      obtain ⟨hcreated, htype⟩ := h.uplinks_created x hx
      exact ⟨List.mem_cons_of_mem _ hcreated, htype⟩
    · rw [plugin_type_self]
      exact ⟨List.mem_cons_self, htype⟩
  · intro h0
    rcases List.mem_cons.mp h0 with h0 | h0
    · exact hm0 h0.symm
    · exact h.created_ne h0
  · exact fun x hx => List.mem_cons_of_mem _ (h.collected_created x hx)

theorem NoDangling.plugin_iff (hn : NoDangling s) (h : Listed s) (hm : m ∉ s.created) :
    NoDangling (s.plugin m responder type addFails) ↔
      ∀ x, responder = .userdata x → x ≠ m → isOutput (s.module x).type → s.Live x := by
  have hlive : ∀ x, (s.plugin m responder type addFails).Live x ↔ x = m ∨ s.Live x := by
    intro x
    -- an address in `created` is not taken again
    have hcollected : x = m → x ∉ s.collected := by
      rintro rfl hx
      exact hm (h.collected_created x hx)
    simp only [Live, Runtime.plugin, List.mem_cons]
    tauto
  constructor
  · intro hnew x hr hne hout
    have hx := hnew x (.child ((hlive m).mpr (Or.inl rfl)) (mem_plugin_children.mpr ⟨hr, hne, hout⟩))
    exact ((hlive x).mp hx).resolve_left hne
  · intro hkeeps x hx
    rw [hlive]
    cases hx with
    | modules hx =>
      rcases mem_plugin_modules hx with hx | ⟨rfl, -⟩
      · exact Or.inr (hn x (.modules hx))
      · exact Or.inl rfl
    | uplinks hx =>
      rcases mem_plugin_uplinks hx with hx | ⟨rfl, -⟩
      · exact Or.inr (hn x (.uplinks hx))
      · exact Or.inl rfl
    | child hy hx =>
      rename_i y
      -- the new module has one child at most, and no other module gets one
      by_cases hym : y = m
      · rw [hym] at hx
        obtain ⟨hr, hne, hout⟩ := mem_plugin_children.mp hx
        exact Or.inr (hkeeps x hr hne hout)
      · rw [plugin_module_of_ne hym] at hx
        exact Or.inr (hn x (.child (((hlive y).mp hy).resolve_left hym) hx))
    | event hx hne => exact Or.inr (hn.queue hx hne)
    | visiting hx => exact Or.inr (hn x (.visiting hx))

end Plugin

/-! ### The whole machine -/

/-- Every step but those of the script and of the collector. -/
def Label.moves : Label → Bool
  | .plugin _ _ _ _ | .chain _ _ | .gc _ | .free _ => false
  | _ => true

/-- These steps leave the modules and the lists alone. -/
theorem next_eq (hl : l.moves) :
    (s.next l).created = s.created ∧ (s.next l).collected = s.collected ∧
      (s.next l).module = s.module ∧ (s.next l).modules = s.modules ∧
      (s.next l).uplinks = s.uplinks := by
  cases l with
  | ret =>
    simp only [next]
    split <;> exact ⟨rfl, rfl, rfl, rfl, rfl⟩
  | event =>
    simp only [next]
    split
    · exact ⟨rfl, rfl, rfl, rfl, rfl⟩
    · split <;> exact ⟨rfl, rfl, rfl, rfl, rfl⟩
  | uplink =>
    simp only [next]
    split
    · exact ⟨rfl, rfl, rfl, rfl, rfl⟩
    · split <;> exact ⟨rfl, rfl, rfl, rfl, rfl⟩
  | plugin m responder type addFails => cases hl
  | chain modIn modOut => cases hl
  | gc m => cases hl
  | free m => cases hl
  | _ => exact ⟨rfl, rfl, rfl, rfl, rfl⟩

theorem Listed.next_of_moves (h : Listed s) (hl : l.moves) : Listed (s.next l) := by
  obtain ⟨hcreated, hcollected, hmodule, hmodules, huplinks⟩ := s.next_eq hl
  exact h.of_eq hcreated (hcollected ▸ h.collected_created) hmodule hmodules huplinks

theorem Listed.next (h : Listed s) (he : s.Enabled l) : Listed (s.next l) := by
  cases l with
  | plugin m responder type addFails => exact h.plugin he.2.1 he.2.2
  | chain modIn modOut => exact h.chain modIn modOut
  | gc m => exact h.gc he.2.1
  | free m =>
    refine h.of_eq rfl ?_ rfl rfl rfl
    intro x hx
    rcases List.mem_cons.mp hx with rfl | hx
    · exact he.2.1.1
    · exact h.collected_created x hx
  | _ => exact h.next_of_moves rfl

/-- The events and the loops after a step that leaves the modules alone. -/
theorem NoDangling.next_of_moves (hn : NoDangling s) (hl : l.moves)
    (hqueue : ∀ m ∈ (s.next l).queue, m ≠ moduleBroadcast → s.Live m)
    (hvisiting : ∀ m, (s.next l).pc.visiting = some m → s.Live m) : NoDangling (s.next l) := by
  obtain ⟨hcreated, hcollected, hmodule, hmodules, huplinks⟩ := s.next_eq hl
  refine hn.of_eq ?_ hmodule hmodules huplinks hqueue hvisiting
  intro m
  rw [Live, Live, hcreated, hcollected]

theorem NoDangling.uplink (hn : NoDangling s) (hm : m ∈ s.uplinks) : s.Live m := hn m (.uplinks hm)

/-- Lua returns. -/
theorem NoDangling.ret (hn : NoDangling s) : NoDangling (s.next .ret) := by
  refine hn.next_of_moves rfl ?_ ?_
  · intro m hm hne
    simp only [Runtime.next] at hm
    split at hm
    · exact hn.tail hm hne
    · exact hn.queue hm hne
    · exact hn.queue hm hne
  · intro m hm
    simp only [Runtime.next] at hm
    split at hm
    · cases hm
    · exact hn.uplink (mem_of_following hm)
    · cases hm

/-- An event is taken up. -/
theorem NoDangling.event (hn : NoDangling s) : NoDangling (s.next .event) := by
  refine hn.next_of_moves rfl ?_ ?_
  · intro m hm hne
    simp only [Runtime.next] at hm
    split at hm
    · exact hn.queue hm hne
    split at hm
    · exact hn.queue hm hne
    · exact hn.tail hm hne
  · intro m hm
    simp only [Runtime.next] at hm
    split at hm
    · exact hn.uplink (List.mem_of_mem_head? hm)
    split at hm
    · cases hm
    · cases hm

/-- A round of the broadcast loop. -/
theorem NoDangling.round (hn : NoDangling s) : NoDangling (s.next .uplink) := by
  cases hpc : s.pc.visiting with
  | none =>
    refine hn.next_of_moves rfl ?_ ?_
    · intro m hm hne
      simp only [Runtime.next, hpc] at hm
      exact hn.tail hm hne
    · intro m hm
      simp only [Runtime.next, hpc] at hm
      cases hm
  | some u =>
    have hu : s.Live u := hn u (.visiting hpc)
    refine hn.next_of_moves rfl ?_ ?_
    · intro m hm hne
      simp only [Runtime.next, hpc] at hm
      split at hm
      · -- the event names the uplink now
        rcases List.mem_cons.mp hm with rfl | hm
        · exact hu
        · exact hn.tail hm hne
      · exact hn.queue hm hne
    · intro m hm
      simp only [Runtime.next, hpc] at hm
      split at hm
      · obtain rfl : u = m := Option.some.inj hm
        exact hu
      · exact hn.uplink (mem_of_following hm)

/-- The record at the front of the receive pipe. -/
theorem NoDangling.rx_iff (hn : NoDangling s) {i : ℕ} (he : s.Enabled (.rx i)) :
    NoDangling (s.next (.rx i)) ↔ s.Keeps (.rx i) := by
  obtain ⟨hpc, -, hi⟩ := he
  set x := s.pipeRx.headD moduleBroadcast with hx
  constructor
  · intro h
    -- the record names the module that it is inserted for
    by_cases hx0 : x = moduleBroadcast
    · exact Or.inl hx0
    · exact Or.inr (h x (.event ((List.mem_insertIdx hi).mpr (Or.inl rfl)) hx0))
  · intro hkeeps
    refine hn.next_of_moves rfl ?_ ?_
    · intro m hm hne
      exact hn.insert (fun hx0 => hkeeps.resolve_left hx0) hi hm hne
    · intro m hm
      exact hn m (.visiting hm)

/-- **A step of the machine** keeps the references if and only if it meets the
condition. -/
theorem NoDangling.next_iff (hn : NoDangling s) (h : Listed s) (he : s.Enabled l) :
    NoDangling (s.next l) ↔ s.Keeps l := by
  have hsame : ∀ m ∈ s.queue, m ≠ moduleBroadcast → s.Live m := fun m hm hne => hn.queue hm hne
  have hnone : ∀ pc : ProcessPc, pc.visiting = none → ∀ m, pc.visiting = some m → s.Live m := by
    intro pc hpc m hm
    rw [hpc] at hm
    cases hm
  have hvisiting : ∀ m, s.pc.visiting = some m → s.Live m := fun m hm => hn m (.visiting hm)
  -- five of the steps make or collect a reference; the others move one
  cases l with
  | rx i => exact hn.rx_iff he
  | gc m => exact hn.gc_iff h he.2.1
  | free m => exact hn.free_iff h he.2.1
  | chain modIn modOut => exact hn.chain_iff modIn modOut
  | plugin m responder type addFails =>
    refine (hn.plugin_iff h he.2.1).trans ?_
    cases responder with
    | none => exact iff_of_true (fun x hx => by cases hx) trivial
    | function => exact iff_of_true (fun x hx => by cases hx) trivial
    | userdata modOut =>
      constructor
      · intro hkeeps hne hout
        exact hkeeps modOut rfl hne hout
      · intro hkeeps x hx hne hout
        obtain rfl := Responder.userdata.inj hx
        exact hkeeps hne hout
  | ret => exact iff_of_true hn.ret trivial
  | event => exact iff_of_true hn.event trivial
  | uplink => exact iff_of_true hn.round trivial
  -- an event of a module that is listed
  | processIn m i =>
    refine iff_of_true (hn.next_of_moves rfl ?_ hvisiting) trivial
    intro x hx hne
    exact hn.insert (fun _ => hn m (.modules he.2.1)) he.2.2.2 hx hne
  | processOut m i =>
    refine iff_of_true (hn.next_of_moves rfl ?_ hvisiting) trivial
    intro x hx hne
    exact hn.insert (fun _ => hn m (.modules he.2.1)) he.2.2.2 hx hne
  | tx m => exact iff_of_true (hn.next_of_moves rfl hsame hvisiting) trivial
  | request reply => exact iff_of_true (hn.next_of_moves rfl hsame hvisiting) trivial
  | notify => exact iff_of_true (hn.next_of_moves rfl hsame hvisiting) trivial
  -- these come or go between two callbacks, where no uplink is visited
  | script => exact iff_of_true (hn.next_of_moves rfl hsame (hnone _ rfl)) trivial
  | cycle => exact iff_of_true (hn.next_of_moves rfl hsame (hnone _ rfl)) trivial
  | dispatch => exact iff_of_true (hn.next_of_moves rfl hsame (hnone _ rfl)) trivial
  | outputs => exact iff_of_true (hn.next_of_moves rfl hsame (hnone _ rfl)) trivial
  | collect => exact iff_of_true (hn.next_of_moves rfl hsame (hnone _ rfl)) trivial

theorem step_eq_some : machine.step s l = some s' ↔ s.Enabled l ∧ s.next l = s' := by
  change (if s.Enabled l then some (s.next l) else none) = some s' ↔ _
  split
  · next he => simp [he]
  · next he => simp [he]

/-- **No dangling references**, exactly: they are all good at all times of a run if
and only if every step of the run keeps them. -/
theorem noDangling_iff {s₀ : Runtime} {ls : List Label} (h₀ : machine.init s₀)
    (hrun : machine.exec s₀ ls = some s) :
    (∀ ls' t, ls' <+: ls → machine.exec s₀ ls' = some t → t.NoDangling) ↔
      machine.Meets Keeps s₀ ls := by
  refine Machine.meets_iff (S := Listed) ?_ ?_ (Init.listed h₀) (Init.noDangling h₀) hrun
  · intro s l s' h hstep
    obtain ⟨he, rfl⟩ := step_eq_some.mp hstep
    exact h.next he
  · intro s l s' h hn hstep
    obtain ⟨he, rfl⟩ := step_eq_some.mp hstep
    exact hn.next_iff h he

/-- Before the script is loaded. -/
def start : Runtime where
  created := []
  collected := []
  module _ := ⟨0, false, false, []⟩
  modules := []
  uplinks := []
  queue := []
  pipeTx := []
  pipeRx := []
  pc := .idle

theorem start_init : machine.init start := ⟨rfl, rfl, rfl, rfl, rfl, rfl, rfl, rfl⟩

/-- An input with an output as its child handles an event, and both are collected,
the input first. -/
def keptRun : List Label :=
  [.script, .plugin 2 .none moduleOutput false, .plugin 1 (.userdata 2) moduleInput false, .ret,
    .cycle, .processIn 1 0, .dispatch, .event, .outputs, .collect, .gc 1, .gc 2, .ret]

theorem noDangling_iff_start :
    ∃ s, machine.exec start keptRun = some s ∧ s.collected = [2, 1] ∧ s.modules = [] ∧
      ∀ ls' t, ls' <+: keptRun → machine.exec start ls' = some t → t.NoDangling := by
  have hkeeps : machine.Meets Keeps start keptRun := by decide +kernel
  have hrun : (machine.exec start keptRun).map (fun s => (s.collected, s.modules)) =
      some ([2, 1], []) := by
    decide +kernel
  obtain ⟨s, hs, hobserved⟩ := Option.map_eq_some_iff.mp hrun
  obtain ⟨hcollected, hmodules⟩ := Prod.mk.inj hobserved
  exact ⟨s, hs, hcollected, hmodules, (noDangling_iff start_init hs).mpr hkeeps⟩

/-- **A collected child.** The script chains an input to an output and drops the
output. The child record of the input is left. -/
theorem collected_child :
    ∃ s, machine.exec start [.script, .plugin 1 .none moduleInput false,
        .plugin 2 .none moduleOutput false, .chain 1 2, .gc 2] = some s ∧
      s.Live 1 ∧ (s.module 1).children = [2] ∧ 2 ∈ s.collected ∧ ¬ s.NoDangling := by
  have hrun : (machine.exec start [.script, .plugin 1 .none moduleInput false,
      .plugin 2 .none moduleOutput false, .chain 1 2, .gc 2]).map
        (fun s => (s.created, s.collected, (s.module 1).children)) = some ([2, 1], [2], [2]) := by
    decide +kernel
  obtain ⟨s, hs, hobserved⟩ := Option.map_eq_some_iff.mp hrun
  obtain ⟨hcreated, hobserved⟩ := Prod.mk.inj hobserved
  obtain ⟨hcollected, hchildren⟩ := Prod.mk.inj hobserved
  have hlive : s.Live 1 := by
    rw [Live, hcreated, hcollected]
    decide
  have hdead : 2 ∈ s.collected := by
    rw [hcollected]
    decide
  refine ⟨s, hs, hlive, hchildren, hdead, ?_⟩
  intro hn
  exact (hn 2 (.child hlive (by rw [hchildren]; decide))).2 hdead

end Runtime

end Tjost
