import Mathlib.Data.List.Count
import Mathlib.Data.List.InsertIdx
import Tjost.Lua.Lifetime

/-!
# What a module owns

Blocks are obtained with `tjost_alloc` on behalf of a module in five places: its
private data by `add`, its child records by `_plugin` and `_chain`, the events in
its output queue by `tjost_module_schedule`, and the records of its open bundles by
the serialiser. `Owners` is the host reduced to these blocks, with a ledger of
what has been allocated for whom and of what has been freed. A block is its number
in the order of allocation.

The four `__gc` handlers release different parts of this. All of them call `del`,
which frees the private data. `_gc_input` and `_gc_in_out` free the child records,
`_gc_output`, `_gc_in_out` and `_gc_uplink` clear the queue, and no handler frees
the records of open bundles.

The account (`Owners.Inv`): a block of a module that has a handler and has not been
collected is either attached to the module or has been freed, once. Every
operation on a module only moves its blocks (`Owners.Moves`), and such moves
compose.

`Owners.released_iff`: after its handler all blocks of a module have been freed
exactly once if and only if it had no open bundle, and, if it is an output or an
uplink, no child records. Both get a child record from `plugin` with another
module as the responder.
-/

open Transition

namespace Tjost

/-- `Tjost_Module` with the blocks that are attached to it. -/
structure OwnedModule where
  type : ModuleType
  /-- `add` has failed. -/
  failed : Bool
  /-- `module->dat`, where that is a block. -/
  dat : Option ℕ
  /-- The child records with their modules. -/
  children : List (ℕ × ModulePtr)
  queue : List ℕ
  bndls : List ℕ
  deriving DecidableEq, Repr

/-- The blocks attached to a module. -/
def OwnedModule.held (x : OwnedModule) : List ℕ :=
  x.dat.toList ++ x.children.map Prod.fst ++ x.queue ++ x.bndls

/-- The switch of `_plugin` gives the userdatum the metatable of its type, with the
handler. Where `add` has failed it finds `nil` in its place. -/
def OwnedModule.hasGc (x : OwnedModule) : Bool :=
  (x.type = moduleInput ∨ x.type = moduleOutput ∨ x.type = moduleInOut ∨
    x.type = moduleUplink) ∧ x.failed = false

/-- Count the blocks list by list. -/
theorem OwnedModule.count_held (x : OwnedModule) (b : ℕ) :
    x.held.count b = x.dat.toList.count b + (x.children.map Prod.fst).count b +
      x.queue.count b + x.bndls.count b := by
  unfold held
  rw [List.count_append, List.count_append, List.count_append]

/-- The host, reduced to what its modules own. -/
structure Owners where
  /-- Every userdatum so far. -/
  created : List ModulePtr
  collected : List ModulePtr
  module : ModulePtr → OwnedModule
  modules : List ModulePtr
  uplinks : List ModulePtr
  /-- On behalf of which module each block was obtained. -/
  allocated : List ModulePtr
  /-- The blocks passed to `tjost_free`, in order. -/
  freed : List ℕ

namespace Owners

/-! ### The functions -/

/-- `tjost_alloc` on behalf of a module. The block is the number
`s.allocated.length`. -/
def alloc (m : ModulePtr) (s : Owners) : Owners := { s with allocated := s.allocated ++ [m] }

/-- `tjost_free`. -/
def free (blocks : List ℕ) (s : Owners) : Owners := { s with freed := s.freed ++ blocks }

/-- Replace what is behind a pointer. -/
def setModule (m : ModulePtr) (x : OwnedModule) (s : Owners) : Owners :=
  { s with module := Function.update s.module m x }

@[simp] theorem setModule_self (m : ModulePtr) (x : OwnedModule) (s : Owners) :
    (s.setModule m x).module m = x := Function.update_self ..

/-- A new child record, by `eina_inlist_append`. -/
def newChild (m modOut : ModulePtr) (s : Owners) : Owners :=
  let x := s.module m
  (s.setModule m { x with children := x.children ++ [(s.allocated.length, modOut)] }).alloc m

/-- `memset(module, 0, sizeof(Tjost_Module))` on a new userdatum. -/
def create (m : ModulePtr) (s : Owners) : Owners :=
  { s.setModule m ⟨0, false, none, [], [], []⟩ with created := m :: s.created }

/-- The child record that the second argument of `plugin` asks for. -/
def respond (m : ModulePtr) (responder : Responder) (s : Owners) : Owners :=
  match responder with
  | .userdata modOut => if isOutput (s.module modOut).type then s.newChild m modOut else s
  | _ => s

/-- `module->add(module)`, which allocates private data or not. Where it fails, the
data is not attached to the module. -/
def add (m : ModulePtr) (type : ModuleType) (hasDat addFails : Bool) (s : Owners) : Owners :=
  let dat := if hasDat && !addFails then some s.allocated.length else none
  let x := { s.module m with type, dat, failed := addFails }
  let s := s.setModule m x
  if hasDat then s.alloc m else s

/-- The switch over the type, for the lists. -/
def register (m : ModulePtr) (s : Owners) : Owners :=
  let type := (s.module m).type
  { s with
    modules := if type = moduleInput ∨ type = moduleOutput ∨ type = moduleInOut then
      s.modules ++ [m] else s.modules
    uplinks := if type = moduleUplink then s.uplinks ++ [m] else s.uplinks }

/-- `_plugin`. -/
def plugin (m : ModulePtr) (responder : Responder) (type : ModuleType) (hasDat addFails : Bool)
    (s : Owners) : Owners :=
  (((s.create m).respond m responder).add m type hasDat addFails).register m

/-- `_chain`. -/
def chain (modIn modOut : ModulePtr) (s : Owners) : Owners :=
  if isInput (s.module modIn).type && isOutput (s.module modOut).type then s.newChild modIn modOut
  else s

/-- `tjost_module_schedule`, at that place of the queue. -/
def moduleSchedule (m : ModulePtr) (i : ℕ) (s : Owners) : Owners :=
  let x := s.module m
  (s.setModule m { x with queue := x.queue.insertIdx i s.allocated.length }).alloc m

/-- What becomes of the packet of a serialiser call: it is scheduled, at that place,
or there is none. -/
def schedulePacket (m : ModulePtr) (packet : Option ℕ) (s : Owners) : Owners :=
  match packet with
  | some i => s.moduleSchedule m i
  | none => s

/-- The bundle push of `_serialize_packet`. -/
def bundlePush (m : ModulePtr) (s : Owners) : Owners :=
  let x := s.module m
  (s.setModule m { x with bndls := s.allocated.length :: x.bndls }).alloc m

/-- The bundle pop of `_serialize_packet`, on an open bundle. -/
def bundlePop (m : ModulePtr) (packet : Option ℕ) (s : Owners) : Owners :=
  let x := s.module m
  let bndl := x.bndls.take 1
  ((s.setModule m { x with bndls := x.bndls.tail }).schedulePacket m packet).free bndl

/-- The events that a `process_out` takes off the queue: the first `n`. -/
def processOut (m : ModulePtr) (n : ℕ) (s : Owners) : Owners :=
  let x := s.module m
  (s.setModule m { x with queue := x.queue.drop n }).free (x.queue.take n)

/-- `_clear`. -/
def clear (m : ModulePtr) (s : Owners) : Owners :=
  let x := s.module m
  (s.setModule m { x with queue := [] }).free x.queue

/-- `module->del(module)`. Nothing follows the pointer to the data after it. -/
def del (m : ModulePtr) (s : Owners) : Owners :=
  let x := s.module m
  (s.setModule m { x with dat := none }).free x.dat.toList

/-- The loop over the children in the handlers. -/
def freeChildren (m : ModulePtr) (s : Owners) : Owners :=
  let x := s.module m
  (s.setModule m { x with children := [] }).free (x.children.map Prod.fst)

/-- `host->modules = eina_inlist_remove(host->modules, EINA_INLIST_GET(module))`. -/
def removeModule (m : ModulePtr) (s : Owners) : Owners := { s with modules := s.modules.erase m }

/-- The same for `host->uplinks`. -/
def removeUplink (m : ModulePtr) (s : Owners) : Owners := { s with uplinks := s.uplinks.erase m }

/-- `_gc_input`. -/
def gcInput (m : ModulePtr) (s : Owners) : Owners := ((s.del m).removeModule m).freeChildren m

/-- `_gc_output`. -/
def gcOutput (m : ModulePtr) (s : Owners) : Owners := ((s.del m).clear m).removeModule m

/-- `_gc_in_out`. -/
def gcInOut (m : ModulePtr) (s : Owners) : Owners :=
  (((s.del m).clear m).removeModule m).freeChildren m

/-- `_gc_uplink`. -/
def gcUplink (m : ModulePtr) (s : Owners) : Owners := ((s.del m).clear m).removeUplink m

/-- The `__gc` of the module's metatable. -/
def gc (m : ModulePtr) (s : Owners) : Owners :=
  let type := (s.module m).type
  if type = moduleInput then s.gcInput m
  else if type = moduleOutput then s.gcOutput m
  else if type = moduleInOut then s.gcInOut m
  else s.gcUplink m

/-! ### The machine -/

inductive Label
  | plugin (m : ModulePtr) (responder : Responder) (type : ModuleType) (hasDat addFails : Bool)
  | chain (modIn modOut : ModulePtr)
  /-- The main loop gives an event of a module, or a broadcast, to a child of `m`. -/
  | forward (m child : ModulePtr) (i : ℕ)
  | processOut (m : ModulePtr) (n : ℕ)
  /-- A message is serialised. -/
  | message (m : ModulePtr) (packet : Option ℕ)
  | bundlePush (m : ModulePtr)
  | bundlePop (m : ModulePtr) (packet : Option ℕ)
  | clear (m : ModulePtr)
  | gc (m : ModulePtr)
  deriving DecidableEq, Repr

/-- The script has the module in its hands, and its metatable has `__call` and
`clear`. -/
def Callable (s : Owners) (m : ModulePtr) : Prop :=
  m ∈ s.created ∧ m ∉ s.collected ∧ (s.module m).hasGc ∧ isOutput (s.module m).type

instance (s : Owners) (m : ModulePtr) : Decidable (s.Callable m) :=
  inferInstanceAs (Decidable (_ ∧ _))

/-- A packet leaves the serialiser outside of bundles. -/
def Enabled (s : Owners) : Label → Prop
  | .plugin m (.userdata modOut) _ _ _ => m ∉ s.created ∧ modOut ∈ s.created
  | .plugin m _ _ _ _ => m ∉ s.created
  | .chain modIn modOut => modIn ∈ s.created ∧ modOut ∈ s.created
  | .forward m child i => m ∈ s.created ∧ child ∈ (s.module m).children.map Prod.snd ∧
      i ≤ (s.module child).queue.length
  | .processOut m _ => m ∈ s.created ∧ isOutput (s.module m).type
  | .message m packet => s.Callable m ∧
      ∀ i ∈ packet, (s.module m).bndls = [] ∧ i ≤ (s.module m).queue.length
  | .bundlePush m => s.Callable m
  | .bundlePop m packet => s.Callable m ∧ (s.module m).bndls ≠ [] ∧
      ∀ i ∈ packet, (s.module m).bndls.tail = [] ∧ i ≤ (s.module m).queue.length
  | .clear m => s.Callable m
  | .gc m => m ∈ s.created ∧ m ∉ s.collected ∧ (s.module m).hasGc

instance decidableEnabled (s : Owners) : ∀ l, Decidable (s.Enabled l)
  | .plugin _ (.userdata _) _ _ _ => inferInstanceAs (Decidable (_ ∧ _))
  | .plugin _ .none _ _ _ | .plugin _ .function _ _ _ => inferInstanceAs (Decidable (_ ∉ _))
  | .chain _ _ | .forward _ _ _ | .processOut _ _ | .gc _ => inferInstanceAs (Decidable (_ ∧ _))
  | .message _ none => inferInstanceAs (Decidable (_ ∧ ∀ i ∈ none, _))
  | .message _ (some _) => inferInstanceAs (Decidable (_ ∧ ∀ i ∈ some _, _))
  | .bundlePop _ none => inferInstanceAs (Decidable (_ ∧ _ ∧ ∀ i ∈ none, _))
  | .bundlePop _ (some _) => inferInstanceAs (Decidable (_ ∧ _ ∧ ∀ i ∈ some _, _))
  | .bundlePush _ | .clear _ => inferInstanceAs (Decidable (Callable _ _))

/-- What an enabled step does. -/
def next (s : Owners) : Label → Owners
  | .plugin m responder type hasDat addFails => s.plugin m responder type hasDat addFails
  | .chain modIn modOut => s.chain modIn modOut
  | .forward _ child i => s.moduleSchedule child i
  | .processOut m n => s.processOut m n
  | .message m packet => s.schedulePacket m packet
  | .bundlePush m => s.bundlePush m
  | .bundlePop m packet => s.bundlePop m packet
  | .clear m => s.clear m
  | .gc m => { s.gc m with collected := m :: s.collected }

/-- Nothing has been created. -/
def Init (s : Owners) : Prop :=
  s.created = [] ∧ s.collected = [] ∧ s.modules = [] ∧ s.uplinks = [] ∧ s.allocated = [] ∧
    s.freed = []

def machine : Machine Owners Label where
  init := Init
  step s l := if s.Enabled l then some (s.next l) else none

/-- **Everything obtained on behalf of the module has been freed, once.** -/
def Released (s : Owners) (m : ModulePtr) : Prop :=
  ∀ b, s.allocated[b]? = some m → s.freed.count b = 1

/-! ### The account -/

/-- `1` as long as the block has not been allocated. -/
def unborn (s : Owners) (b : ℕ) : ℕ := if s.allocated.length ≤ b then 1 else 0

/-- **What an operation on a module does to blocks.** It allocates blocks on behalf
of that module only, and otherwise moves its blocks from the attached ones to the
freed ones. A module that is not an output gets no events and no bundles. -/
structure Moves (m : ModulePtr) (s s' : Owners) : Prop where
  created : s'.created = s.created
  collected : s'.collected = s.collected
  others : ∀ x, x ≠ m → s'.module x = s.module x
  type : (s'.module m).type = (s.module m).type
  failed : (s'.module m).failed = (s.module m).failed
  children : ∀ c ∈ (s'.module m).children, c ∈ (s.module m).children ∨
    c.2 ∈ s.created ∧ isOutput (s.module c.2).type = true
  silent : isOutput (s.module m).type = true ∨
    ((s.module m).queue = [] → (s'.module m).queue = []) ∧
      ((s.module m).bndls = [] → (s'.module m).bndls = [])
  allocated : ∃ k, s'.allocated = s.allocated ++ List.replicate k m
  freed : ∃ blocks, s'.freed = s.freed ++ blocks
  count : ∀ b, s'.freed.count b + (s'.module m).held.count b + s'.unborn b =
    s.freed.count b + (s.module m).held.count b + s.unborn b

/-- **The account.** -/
structure Inv (s : Owners) : Prop where
  allocated_created : ∀ m ∈ s.allocated, m ∈ s.created
  freed_lt : ∀ b ∈ s.freed, b < s.allocated.length
  held_owner : ∀ m ∈ s.created, ∀ b ∈ (s.module m).held, s.allocated[b]? = some m
  account : ∀ m ∈ s.created, m ∉ s.collected → (s.module m).failed = false →
    ∀ b, s.allocated[b]? = some m → s.freed.count b + (s.module m).held.count b = 1
  children : ∀ m ∈ s.created, ∀ c ∈ (s.module m).children,
    c.2 ∈ s.created ∧ isOutput (s.module c.2).type = true
  silent : ∀ m ∈ s.created, isOutput (s.module m).type = false →
    (s.module m).queue = [] ∧ (s.module m).bndls = []

section Moves

variable {m : ModulePtr} {s s' s'' : Owners}

/-- A block with an owner has been allocated. -/
theorem lt_of_owner {b : ℕ} (h : s.allocated[b]? = some m) : b < s.allocated.length := by
  obtain ⟨hlt, -⟩ := List.getElem?_eq_some_iff.mp h
  exact hlt

theorem unborn_of_lt {b : ℕ} (h : b < s.allocated.length) : s.unborn b = 0 :=
  if_neg (Nat.not_le.mpr h)

theorem unborn_of_le {b : ℕ} (h : s.allocated.length ≤ b) : s.unborn b = 1 := if_pos h

namespace Moves

theorem refl (m : ModulePtr) (s : Owners) : Moves m s s where
  created := rfl
  collected := rfl
  others _ _ := rfl
  type := rfl
  failed := rfl
  children _ hc := Or.inl hc
  silent := Or.inr ⟨id, id⟩
  allocated := ⟨0, (List.append_nil _).symm⟩
  freed := ⟨[], (List.append_nil _).symm⟩
  count _ := rfl

/-- The types of all modules stay. -/
theorem type_eq (h : Moves m s s') (x : ModulePtr) : (s'.module x).type = (s.module x).type := by
  by_cases hx : x = m
  · rw [hx, h.type]
  · rw [h.others x hx]

theorem failed_eq (h : Moves m s s') (x : ModulePtr) :
    (s'.module x).failed = (s.module x).failed := by
  by_cases hx : x = m
  · rw [hx, h.failed]
  · rw [h.others x hx]

/-- Moves compose. -/
theorem trans (h : Moves m s s') (h' : Moves m s' s'') : Moves m s s'' where
  created := h'.created.trans h.created
  collected := h'.collected.trans h.collected
  others x hx := (h'.others x hx).trans (h.others x hx)
  type := h'.type.trans h.type
  failed := h'.failed.trans h.failed
  children c hc := by
    obtain hc | ⟨hcreated, htype⟩ := h'.children c hc
    · exact h.children c hc
    · rw [h.created] at hcreated
      rw [h.type_eq] at htype
      exact Or.inr ⟨hcreated, htype⟩
  silent := by
    obtain htype | ⟨hqueue, hbndls⟩ := h.silent
    · exact Or.inl htype
    · obtain htype | ⟨hqueue', hbndls'⟩ := h'.silent
      · rw [h.type] at htype
        exact Or.inl htype
      · exact Or.inr ⟨fun hs => hqueue' (hqueue hs), fun hs => hbndls' (hbndls hs)⟩
  allocated := by
    obtain ⟨k, hk⟩ := h.allocated
    obtain ⟨k', hk'⟩ := h'.allocated
    exact ⟨k + k', by rw [hk', hk, List.append_assoc, List.replicate_append_replicate]⟩
  freed := by
    obtain ⟨blocks, hblocks⟩ := h.freed
    obtain ⟨blocks', hblocks'⟩ := h'.freed
    exact ⟨blocks ++ blocks', by rw [hblocks', hblocks, List.append_assoc]⟩
  count b := (h'.count b).trans (h.count b)

theorem freed_le (h : Moves m s s') (b : ℕ) : s.freed.count b ≤ s'.freed.count b := by
  obtain ⟨blocks, hfreed⟩ := h.freed
  rw [hfreed, List.count_append]
  exact Nat.le_add_right _ _

/-- A block that was allocated before keeps its owner. -/
theorem owner_old (h : Moves m s s') {b : ℕ} (hb : b < s.allocated.length) :
    s'.allocated[b]? = s.allocated[b]? := by
  obtain ⟨k, hk⟩ := h.allocated
  rw [hk, List.getElem?_append_left hb]

/-- A new block is for `m`. -/
theorem owner_new (h : Moves m s s') {b : ℕ} (hb : s.allocated.length ≤ b)
    (hb' : b < s'.allocated.length) : s'.allocated[b]? = some m := by
  obtain ⟨k, hk⟩ := h.allocated
  rw [hk, List.length_append, List.length_replicate] at hb'
  rw [hk, List.getElem?_append_right hb, List.getElem?_replicate, if_pos (by omega)]

theorem length_le (h : Moves m s s') : s.allocated.length ≤ s'.allocated.length := by
  obtain ⟨k, hk⟩ := h.allocated
  rw [hk, List.length_append]
  exact Nat.le_add_right _ _

/-- Blocks are detached from a module and freed. -/
theorem of_free {x : OwnedModule} {blocks : List ℕ} (htype : x.type = (s.module m).type)
    (hfailed : x.failed = (s.module m).failed) (hchildren : x.children ⊆ (s.module m).children)
    (hqueue : (s.module m).queue = [] → x.queue = [])
    (hbndls : (s.module m).bndls = [] → x.bndls = [])
    (hheld : ∀ b, blocks.count b + x.held.count b = (s.module m).held.count b) :
    Moves m s ((s.setModule m x).free blocks) := by
  have hself : ((s.setModule m x).free blocks).module m = x := Function.update_self ..
  refine ⟨rfl, rfl, fun y hy => Function.update_of_ne hy _ _, ?_, ?_, ?_, ?_,
    ⟨0, (List.append_nil _).symm⟩, ⟨blocks, rfl⟩, ?_⟩
  · rw [hself, htype]
  · rw [hself, hfailed]
  · rw [hself]
    exact fun c hc => Or.inl (hchildren hc)
  · rw [hself]
    exact Or.inr ⟨hqueue, hbndls⟩
  · intro b
    show (s.freed ++ blocks).count b + _ + s.unborn b = _
    rw [hself, List.count_append, ← hheld b, Nat.add_assoc (s.freed.count b)]

/-- A block is allocated and attached to a module. -/
theorem of_alloc {x : OwnedModule} (htype : x.type = (s.module m).type)
    (hfailed : x.failed = (s.module m).failed)
    (hchildren : ∀ c ∈ x.children, c ∈ (s.module m).children ∨
      c.2 ∈ s.created ∧ isOutput (s.module c.2).type = true)
    (hsilent : isOutput (s.module m).type = true ∨
      x.queue = (s.module m).queue ∧ x.bndls = (s.module m).bndls)
    (hheld : ∀ b, x.held.count b =
      (s.module m).held.count b + if s.allocated.length == b then 1 else 0) :
    Moves m s ((s.setModule m x).alloc m) := by
  have hself : ((s.setModule m x).alloc m).module m = x := Function.update_self ..
  refine ⟨rfl, rfl, fun y hy => Function.update_of_ne hy _ _, ?_, ?_, ?_, ?_,
    ⟨1, rfl⟩, ⟨[], (List.append_nil _).symm⟩, ?_⟩
  · rw [hself, htype]
  · rw [hself, hfailed]
  · rw [hself]
    exact hchildren
  · rw [hself]
    obtain hout | ⟨hqueue, hbndls⟩ := hsilent
    · exact Or.inl hout
    · exact Or.inr ⟨fun h => hqueue.trans h, fun h => hbndls.trans h⟩
  · intro b
    -- the block with the next number is born
    have hborn : ((s.setModule m x).alloc m).unborn b +
        (if s.allocated.length == b then 1 else 0) = s.unborn b := by
      show (if (s.allocated ++ [m]).length ≤ b then 1 else 0) + _ =
        if s.allocated.length ≤ b then 1 else 0
      rw [List.length_append, List.length_singleton]
      by_cases hb : s.allocated.length = b
      · simp [hb]
      · simp only [beq_iff_eq, if_neg hb]
        split <;> split <;> omega
    show s.freed.count b + _ + _ = _
    rw [hself, hheld, ← hborn]
    omega

end Moves

/-! ### What the functions move -/

theorem newChild_moves {modOut : ModulePtr} (hcreated : modOut ∈ s.created)
    (htype : isOutput (s.module modOut).type = true) : Moves m s (s.newChild m modOut) := by
  refine Moves.of_alloc rfl rfl ?_ (Or.inr ⟨rfl, rfl⟩) ?_
  · intro c hc
    obtain hc | hc := List.mem_append.mp hc
    · exact Or.inl hc
    · rw [List.mem_singleton.mp hc]
      exact Or.inr ⟨hcreated, htype⟩
  · intro b
    simp only [OwnedModule.count_held, List.map_append, List.map_cons, List.map_nil,
      List.count_append, List.count_singleton]
    omega

theorem moduleSchedule_moves {i : ℕ} (htype : isOutput (s.module m).type = true)
    (hi : i ≤ (s.module m).queue.length) : Moves m s (s.moduleSchedule m i) := by
  refine Moves.of_alloc rfl rfl (fun c hc => Or.inl hc) (Or.inl htype) ?_
  intro b
  have hinsert := (List.perm_insertIdx s.allocated.length (s.module m).queue hi).count_eq b
  rw [List.count_cons] at hinsert
  simp only [OwnedModule.count_held, hinsert]
  omega

theorem schedulePacket_moves {packet : Option ℕ} (htype : isOutput (s.module m).type = true)
    (hpacket : ∀ i ∈ packet, i ≤ (s.module m).queue.length) :
    Moves m s (s.schedulePacket m packet) := by
  cases packet with
  | none => exact Moves.refl m s
  | some i => exact moduleSchedule_moves htype (hpacket i rfl)

theorem bundlePush_moves (htype : isOutput (s.module m).type = true) :
    Moves m s (s.bundlePush m) := by
  refine Moves.of_alloc rfl rfl (fun c hc => Or.inl hc) (Or.inl htype) ?_
  intro b
  simp only [OwnedModule.count_held, List.count_cons]
  omega

theorem processOut_moves (n : ℕ) : Moves m s (s.processOut m n) := by
  refine Moves.of_free rfl rfl (fun c hc => hc) ?_ id ?_
  · intro hqueue
    show (s.module m).queue.drop n = []
    rw [hqueue, List.drop_nil]
  · intro b
    have hsplit := congrArg (List.count b) (List.take_append_drop n (s.module m).queue)
    rw [List.count_append] at hsplit
    simp only [OwnedModule.count_held, ← hsplit]
    omega

theorem clear_moves : Moves m s (s.clear m) := by
  refine Moves.of_free rfl rfl (fun c hc => hc) (fun _ => rfl) id ?_
  intro b
  simp only [OwnedModule.count_held, List.count_nil]
  omega

theorem del_moves : Moves m s (s.del m) := by
  refine Moves.of_free rfl rfl (fun c hc => hc) id id ?_
  intro b
  simp only [OwnedModule.count_held, Option.toList_none, List.count_nil]
  omega

theorem freeChildren_moves : Moves m s (s.freeChildren m) := by
  refine Moves.of_free rfl rfl (fun c hc => absurd hc List.not_mem_nil) id id ?_
  intro b
  simp only [OwnedModule.count_held, List.map_nil, List.count_nil]
  omega

/-- The record of the innermost bundle is taken off the list and freed. -/
def dropBundle (m : ModulePtr) (s : Owners) : Owners :=
  let x := s.module m
  (s.setModule m { x with bndls := x.bndls.tail }).free (x.bndls.take 1)

theorem dropBundle_moves : Moves m s (s.dropBundle m) := by
  refine Moves.of_free rfl rfl (fun c hc => hc) id ?_ ?_
  · intro hbndls
    show (s.module m).bndls.tail = []
    rw [hbndls, List.tail_nil]
  · intro b
    have hsplit := congrArg (List.count b) (List.take_append_drop 1 (s.module m).bndls)
    rw [List.count_append, List.drop_one] at hsplit
    simp only [OwnedModule.count_held, ← hsplit]
    omega

/-- It makes no difference that the packet is scheduled before the record is
freed. -/
theorem bundlePop_eq (packet : Option ℕ) :
    s.bundlePop m packet = (s.dropBundle m).schedulePacket m packet := by
  cases packet <;> rfl

theorem bundlePop_moves {packet : Option ℕ} (htype : isOutput (s.module m).type = true)
    (hpacket : ∀ i ∈ packet, i ≤ (s.module m).queue.length) : Moves m s (s.bundlePop m packet) := by
  have hdrop : Moves m s (s.dropBundle m) := dropBundle_moves
  have hself : (s.dropBundle m).module m =
      { s.module m with bndls := (s.module m).bndls.tail } := Function.update_self ..
  rw [bundlePop_eq]
  refine hdrop.trans (schedulePacket_moves ?_ ?_)
  · rw [hdrop.type_eq]
    exact htype
  · rw [hself]
    exact hpacket

theorem chain_moves {modOut : ModulePtr} (hcreated : modOut ∈ s.created) :
    Moves m s (s.chain m modOut) := by
  unfold chain
  split
  · next htypes =>
    rw [Bool.and_eq_true] at htypes
    exact newChild_moves hcreated htypes.2
  · exact Moves.refl m s

theorem removeModule_moves : Moves m s (s.removeModule m) :=
  ⟨rfl, rfl, fun _ _ => rfl, rfl, rfl, fun _ hc => Or.inl hc, Or.inr ⟨id, id⟩,
    ⟨0, (List.append_nil _).symm⟩, ⟨[], (List.append_nil _).symm⟩, fun _ => rfl⟩

theorem removeUplink_moves : Moves m s (s.removeUplink m) :=
  ⟨rfl, rfl, fun _ _ => rfl, rfl, rfl, fun _ hc => Or.inl hc, Or.inr ⟨id, id⟩,
    ⟨0, (List.append_nil _).symm⟩, ⟨[], (List.append_nil _).symm⟩, fun _ => rfl⟩

theorem gc_moves : Moves m s (s.gc m) := by
  unfold gc
  simp only
  split
  · exact (del_moves.trans removeModule_moves).trans freeChildren_moves
  · split
    · exact (del_moves.trans clear_moves).trans removeModule_moves
    · split
      · exact ((del_moves.trans clear_moves).trans removeModule_moves).trans freeChildren_moves
      · exact (del_moves.trans clear_moves).trans removeUplink_moves

end Moves

/-! ### The account is kept -/

namespace Inv

variable {m : ModulePtr} {s s' : Owners}

theorem init (h : Init s) : Inv s := by
  obtain ⟨hcreated, -, -, -, hallocated, hfreed⟩ := h
  have hnone : ∀ m, m ∉ s.created := by
    intro m
    rw [hcreated]
    exact List.not_mem_nil
  refine ⟨?_, ?_, fun m hm => absurd hm (hnone m), fun m hm => absurd hm (hnone m),
    fun m hm => absurd hm (hnone m), fun m hm => absurd hm (hnone m)⟩
  · rw [hallocated]
    exact fun m hm => absurd hm List.not_mem_nil
  · rw [hfreed]
    exact fun b hb => absurd hb List.not_mem_nil

/-- A block that has not been allocated is nowhere. -/
theorem count_unborn (h : Inv s) (hm : m ∈ s.created) {b : ℕ} (hb : s.allocated.length ≤ b) :
    s.freed.count b = 0 ∧ (s.module m).held.count b = 0 := by
  constructor
  · apply List.count_eq_zero_of_not_mem
    intro hfreed
    exact absurd (h.freed_lt b hfreed) (Nat.not_lt.mpr hb)
  · apply List.count_eq_zero_of_not_mem
    intro hheld
    have howner := h.held_owner m hm b hheld
    rw [List.getElem?_eq_none hb] at howner
    exact nomatch howner

/-- What is attached to a module after moves is its own. -/
theorem held_moves (h : Inv s) (hm : m ∈ s.created) (hmoves : Moves m s s') {x : ModulePtr}
    (hx : x ∈ s.created) {b : ℕ} (hb : b ∈ (s'.module x).held) : s'.allocated[b]? = some x := by
  by_cases hxm : x = m
  · subst hxm
    have hcount := hmoves.count b
    have hpos := List.count_pos_iff.mpr hb
    have hle := hmoves.freed_le b
    by_cases hlt : b < s.allocated.length
    · -- the block was attached before
      rw [unborn_of_lt hlt] at hcount
      have hheld : b ∈ (s.module x).held := List.count_pos_iff.mp (by omega)
      rw [hmoves.owner_old hlt]
      exact h.held_owner x hx b hheld
    · obtain ⟨hzero, hzero'⟩ := h.count_unborn hm (Nat.le_of_not_lt hlt)
      refine hmoves.owner_new (Nat.le_of_not_lt hlt) ?_
      by_contra hge
      rw [unborn_of_le (Nat.le_of_not_lt hlt), unborn_of_le (Nat.le_of_not_lt hge)] at hcount
      omega
  · rw [hmoves.others x hxm] at hb
    have howner := h.held_owner x hx b hb
    rw [hmoves.owner_old (lt_of_owner howner)]
    exact howner

/-- The account of a module after moves. -/
theorem account_moves (h : Inv s) (hm : m ∈ s.created) (hmoves : Moves m s s') {x : ModulePtr}
    (hx : x ∈ s.created) (hlive : x ∉ s.collected) (hfailed : (s.module x).failed = false) {b : ℕ}
    (howner : s'.allocated[b]? = some x) :
    s'.freed.count b + (s'.module x).held.count b = 1 := by
  have hcount := hmoves.count b
  rw [unborn_of_lt (lt_of_owner howner)] at hcount
  -- a block that is old has its account already
  by_cases hlt : b < s.allocated.length
  · rw [hmoves.owner_old hlt] at howner
    have haccount := h.account x hx hlive hfailed b howner
    rw [unborn_of_lt hlt] at hcount
    by_cases hxm : x = m
    · subst hxm
      omega
    · -- the block of another module is not among those moved
      have hnot : (s.module m).held.count b = 0 := by
        apply List.count_eq_zero_of_not_mem
        intro hheld
        have howner' := h.held_owner m hm b hheld
        rw [howner] at howner'
        exact hxm (Option.some.inj howner')
      have hle := hmoves.freed_le b
      rw [hmoves.others x hxm]
      omega
  -- a block that is new belongs to the module that has moved
  · obtain rfl : m = x := by
      rw [hmoves.owner_new (Nat.le_of_not_lt hlt) (lt_of_owner howner)] at howner
      exact Option.some.inj howner
    obtain ⟨hzero, hzero'⟩ := h.count_unborn hm (Nat.le_of_not_lt hlt)
    rw [unborn_of_le (Nat.le_of_not_lt hlt)] at hcount
    omega

/-- **Moves keep the account.** -/
theorem moves (h : Inv s) (hm : m ∈ s.created) (hmoves : Moves m s s') : Inv s' := by
  refine ⟨?_, ?_, ?_, ?_, ?_, ?_⟩
  -- only `m` allocates
  · intro x hx
    obtain ⟨k, hallocated⟩ := hmoves.allocated
    rw [hmoves.created]
    rw [hallocated, List.mem_append] at hx
    obtain hx | hx := hx
    · exact h.allocated_created x hx
    · rw [List.eq_of_mem_replicate hx]
      exact hm
  · intro b hb
    -- what is freed has been held or is new, so it has been allocated
    by_contra hge
    have hcount := hmoves.count b
    have hpos := List.count_pos_iff.mpr hb
    have hle : s.allocated.length ≤ b := hmoves.length_le.trans (Nat.le_of_not_lt hge)
    obtain ⟨hzero, hzero'⟩ := h.count_unborn hm hle
    rw [unborn_of_le hle, unborn_of_le (Nat.le_of_not_lt hge)] at hcount
    omega
  · intro x hx b hb
    rw [hmoves.created] at hx
    exact h.held_moves hm hmoves hx hb
  · intro x hx hlive hfailed b howner
    rw [hmoves.created] at hx
    rw [hmoves.collected] at hlive
    rw [hmoves.failed_eq] at hfailed
    exact h.account_moves hm hmoves hx hlive hfailed howner
  · intro x hx c hc
    rw [hmoves.created] at hx ⊢
    rw [hmoves.type_eq]
    by_cases hxm : x = m
    · subst hxm
      obtain hc | hc := hmoves.children c hc
      · exact h.children x hx c hc
      · exact hc
    · rw [hmoves.others x hxm] at hc
      exact h.children x hx c hc
  · intro x hx htype
    rw [hmoves.created] at hx
    rw [hmoves.type_eq] at htype
    obtain ⟨hqueue, hbndls⟩ := h.silent x hx htype
    by_cases hxm : x = m
    -- a module that is no output gets neither events nor bundles
    · subst hxm
      obtain hout | ⟨hqueue', hbndls'⟩ := hmoves.silent
      · rw [htype] at hout
        exact nomatch hout
      · exact ⟨hqueue' hqueue, hbndls' hbndls⟩
    · rw [hmoves.others x hxm]
      exact ⟨hqueue, hbndls⟩

/-- A new module, before it gets a child record or data. -/
theorem create (h : Inv s) (hm : m ∉ s.created) : Inv (s.create m) := by
  have hself : (s.create m).module m = ⟨0, false, none, [], [], []⟩ := Function.update_self ..
  have hne : ∀ x ∈ s.created, x ≠ m ∧ (s.create m).module x = s.module x := by
    intro x hx
    have hxm : x ≠ m := by
      rintro rfl
      exact hm hx
    exact ⟨hxm, Function.update_of_ne hxm _ _⟩
  refine ⟨fun x hx => List.mem_cons_of_mem m (h.allocated_created x hx), h.freed_lt, ?_, ?_, ?_, ?_⟩
  · intro x hx b hb
    obtain rfl | hx := List.mem_cons.mp hx
    · rw [hself] at hb
      exact absurd hb List.not_mem_nil
    · rw [(hne x hx).2] at hb
      exact h.held_owner x hx b hb
  · intro x hx hlive hfailed b howner
    obtain rfl | hx := List.mem_cons.mp hx
    · -- nothing has been allocated for the module yet
      exact absurd (h.allocated_created x (List.mem_of_getElem? howner)) hm
    · rw [(hne x hx).2] at hfailed ⊢
      exact h.account x hx hlive hfailed b howner
  · intro x hx c hc
    obtain rfl | hx := List.mem_cons.mp hx
    · rw [hself] at hc
      exact absurd hc List.not_mem_nil
    · rw [(hne x hx).2] at hc
      obtain ⟨hcreated, htype⟩ := h.children x hx c hc
      rw [(hne c.2 hcreated).2]
      exact ⟨List.mem_cons_of_mem m hcreated, htype⟩
  · intro x hx htype
    obtain rfl | hx := List.mem_cons.mp hx
    · rw [hself]
      exact ⟨rfl, rfl⟩
    · rw [(hne x hx).2] at htype ⊢
      exact h.silent x hx htype

/-- The type of a new module is set. No child record refers to it yet, because it
was no output. -/
theorem settle (h : Inv s) (hm : m ∈ s.created) (htype : (s.module m).type = 0)
    (type : ModuleType) (failed : Bool)
    (hfailed : failed = false → (s.module m).failed = false) :
    Inv (s.setModule m { s.module m with type, failed }) := by
  have hself : (s.setModule m { s.module m with type, failed }).module m =
      { s.module m with type, failed } := Function.update_self ..
  have hother : ∀ x, x ≠ m →
      (s.setModule m { s.module m with type, failed }).module x = s.module x :=
    fun x hx => Function.update_of_ne hx _ _
  have hzero : isOutput (s.module m).type = false := by
    rw [htype]
    decide
  have hheld : ∀ x, ((s.setModule m { s.module m with type, failed }).module x).held =
      (s.module x).held := by
    intro x
    by_cases hx : x = m
    · rw [hx, hself]
      rfl
    · rw [hother x hx]
  refine ⟨h.allocated_created, h.freed_lt, ?_, ?_, ?_, ?_⟩
  · intro x hx b hb
    rw [hheld] at hb
    exact h.held_owner x hx b hb
  · intro x hx hlive hfailedx b howner
    rw [hheld]
    apply h.account x hx hlive ?_ b howner
    by_cases hxm : x = m
    · rw [hxm, hself] at hfailedx
      rw [hxm]
      exact hfailed hfailedx
    · rw [hother x hxm] at hfailedx
      exact hfailedx
  · intro x hx c hc
    have hc' : c ∈ (s.module x).children := by
      by_cases hxm : x = m
      · rw [hxm, hself] at hc
        rw [hxm]
        exact hc
      · rw [hother x hxm] at hc
        exact hc
    obtain ⟨hcreated, houtput⟩ := h.children x hx c hc'
    -- `m` is no output yet, so no child record refers to it
    have hcm : c.2 ≠ m := by
      intro hcm
      rw [hcm, hzero] at houtput
      exact nomatch houtput
    rw [hother c.2 hcm]
    exact ⟨hcreated, houtput⟩
  · intro x hx hsilent
    by_cases hxm : x = m
    · rw [hxm, hself]
      exact h.silent m hm hzero
    · rw [hother x hxm] at hsilent ⊢
      exact h.silent x hx hsilent

/-- The data of a module whose `add` fails. -/
theorem alloc_failed (h : Inv s) (hm : m ∈ s.created) (hfailed : (s.module m).failed = true) :
    Inv (s.alloc m) := by
  have hlen : (s.alloc m).allocated.length = s.allocated.length + 1 := List.length_append
  have hold : ∀ {b : ℕ}, b < s.allocated.length → (s.alloc m).allocated[b]? = s.allocated[b]? :=
    fun hb => List.getElem?_append_left hb
  refine ⟨?_, ?_, ?_, ?_, h.children, h.silent⟩
  · intro x hx
    obtain hx | hx := List.mem_append.mp hx
    · exact h.allocated_created x hx
    · rw [List.mem_singleton.mp hx]
      exact hm
  · intro b hb
    have hlt := h.freed_lt b hb
    omega
  · intro x hx b hb
    have howner := h.held_owner x hx b hb
    rw [hold (lt_of_owner howner)]
    exact howner
  · intro x hx hlive hfailedx b howner
    have hlt : b < s.allocated.length := by
      by_contra hge
      have hb : b = s.allocated.length := by
        have hlt := lt_of_owner howner
        omega
      -- the new block belongs to the failed module
      have hnew : (s.alloc m).allocated[b]? = some m := by
        rw [hb]
        exact List.getElem?_concat_length
      rw [hnew] at howner
      obtain rfl : m = x := Option.some.inj howner
      have hlive : (s.module m).failed = false := hfailedx
      rw [hfailed] at hlive
      exact nomatch hlive
    rw [hold hlt] at howner
    exact h.account x hx hlive hfailedx b howner

/-- `add` on a new module. -/
theorem add (h : Inv s) (hm : m ∈ s.created) (htype : (s.module m).type = 0)
    (hdat : (s.module m).dat = none) (hfailed : (s.module m).failed = false) (type : ModuleType)
    (hasDat addFails : Bool) : Inv (s.add m type hasDat addFails) := by
  have hsettle : ∀ failed, Inv (s.setModule m { s.module m with type, dat := none, failed }) := by
    intro failed
    rw [← hdat]
    exact h.settle hm htype type failed fun _ => hfailed
  cases hasDat with
  | false => exact hsettle addFails
  | true =>
    cases addFails with
    | true =>
      apply (hsettle true).alloc_failed hm
      rw [setModule_self]
    | false =>
      -- the data is attached before the type is set
      set t := (s.setModule m { s.module m with dat := some s.allocated.length }).alloc m with ht
      have hself : t.module m = { s.module m with dat := some s.allocated.length } :=
        Function.update_self ..
      have hmoves : Moves m s t := by
        refine Moves.of_alloc rfl rfl (fun c hc => Or.inl hc) (Or.inr ⟨rfl, rfl⟩) ?_
        intro b
        simp only [OwnedModule.count_held, hdat, Option.toList_some, Option.toList_none,
          List.count_singleton, List.count_nil]
        omega
      have hlast : s.add m type true false =
          t.setModule m { t.module m with type, failed := false } := by
        rw [hself, ht]
        unfold Owners.add setModule alloc
        simp only [Function.update_idem]
        rfl
      rw [hlast]
      refine (h.moves hm hmoves).settle ?_ ?_ type false fun _ => ?_
      · rw [hmoves.created]
        exact hm
      · rw [hmoves.type]
        exact htype
      · rw [hmoves.failed]
        exact hfailed

/-- `_plugin`. -/
theorem plugin (h : Inv s) (hm : m ∉ s.created) {responder : Responder}
    (hresponder : ∀ modOut, responder = .userdata modOut → modOut ∈ s.created)
    (type : ModuleType) (hasDat addFails : Bool) :
    Inv (s.plugin m responder type hasDat addFails) := by
  have hcreate := h.create hm
  have hself : (s.create m).module m = ⟨0, false, none, [], [], []⟩ := Function.update_self ..
  -- the responder makes one child at most
  have hmoves : Moves m (s.create m) ((s.create m).respond m responder) := by
    unfold respond
    split
    · next modOut =>
      split
      · next htype =>
        exact newChild_moves (List.mem_cons_of_mem m (hresponder modOut rfl)) htype
      · exact Moves.refl m _
    · exact Moves.refl m _
  have hrespond := hcreate.moves List.mem_cons_self hmoves
  have hdat : (((s.create m).respond m responder).module m).dat = none := by
    unfold respond
    split
    · split
      · unfold newChild alloc
        simp only [setModule_self, hself]
      · rw [hself]
    · rw [hself]
  have hadd := hrespond.add (m := m) (by rw [hmoves.created]; exact List.mem_cons_self)
    (by rw [hmoves.type, hself]) hdat (by rw [hmoves.failed, hself]) type hasDat addFails
  exact ⟨hadd.allocated_created, hadd.freed_lt, hadd.held_owner, hadd.account, hadd.children,
    hadd.silent⟩

/-- **The account is kept by every step.** -/
theorem next (h : Inv s) {l : Label} (he : s.Enabled l) : Inv (s.next l) := by
  cases l with
  | plugin m responder type hasDat addFails =>
    cases responder with
    -- a responder that is a module has been created, and the others are none
    | none =>
      refine h.plugin he ?_ type hasDat addFails
      intro x hx
      cases hx
    | function =>
      refine h.plugin he ?_ type hasDat addFails
      intro x hx
      cases hx
    | userdata modOut =>
      refine h.plugin he.1 ?_ type hasDat addFails
      intro x hx
      cases hx
      exact he.2
  | chain modIn modOut => exact h.moves he.1 (chain_moves he.2)
  | forward m child i =>
    obtain ⟨hm, hchild, hi⟩ := he
    obtain ⟨c, hc, rfl⟩ := List.mem_map.mp hchild
    obtain ⟨hcreated, htype⟩ := h.children m hm c hc
    exact h.moves hcreated (moduleSchedule_moves htype hi)
  | processOut m n => exact h.moves he.1 (processOut_moves n)
  | message m packet =>
    obtain ⟨⟨hm, -, -, htype⟩, hpacket⟩ := he
    exact h.moves hm (schedulePacket_moves htype fun i hi => (hpacket i hi).2)
  | bundlePush m => exact h.moves he.1 (bundlePush_moves he.2.2.2)
  | bundlePop m packet =>
    obtain ⟨⟨hm, -, -, htype⟩, -, hpacket⟩ := he
    exact h.moves hm (bundlePop_moves htype fun i hi => (hpacket i hi).2)
  | clear m => exact h.moves he.1 clear_moves
  | gc m =>
    -- the handler moves blocks as well, and the module is then not live
    have hmoves : Moves m s (s.gc m) := gc_moves
    have hgc := h.moves he.1 hmoves
    refine ⟨hgc.allocated_created, hgc.freed_lt, hgc.held_owner, ?_, hgc.children, hgc.silent⟩
    intro x hx hlive
    apply hgc.account x hx
    rw [hmoves.collected]
    exact fun hcollected => hlive (List.mem_cons_of_mem m hcollected)

end Inv

section Released

variable {m : ModulePtr} {s s' : Owners}

theorem step_eq_some {l : Label} : machine.step s l = some s' ↔ s.Enabled l ∧ s' = s.next l := by
  show (if s.Enabled l then some (s.next l) else none) = some s' ↔ _
  split
  · next he => simp [he, eq_comm]
  · next he => simp [he]

theorem inv_of_reachable (hs : machine.Reachable s) : Inv s := by
  refine Machine.Reachable.invariant (I := Inv) (fun _ h => Inv.init h) ?_ hs
  intro s l s' hi hstep
  obtain ⟨he, rfl⟩ := step_eq_some.mp hstep
  exact hi.next he

/-- What a handler leaves attached to the module. -/
theorem held_gc (s : Owners) (m : ModulePtr) :
    ((s.gc m).module m).held =
      if (s.module m).type = moduleInput then (s.module m).queue ++ (s.module m).bndls
      else if (s.module m).type = moduleInOut then (s.module m).bndls
      else (s.module m).children.map Prod.fst ++ (s.module m).bndls := by
  unfold gc
  simp only
  by_cases hin : (s.module m).type = moduleInput
  · rw [if_pos hin, if_pos hin]
    simp [gcInput, freeChildren, removeModule, del, setModule, free, OwnedModule.held]
  · rw [if_neg hin, if_neg hin]
    by_cases hout : (s.module m).type = moduleOutput
    · rw [if_pos hout, if_neg (by rw [hout]; decide)]
      simp [gcOutput, clear, removeModule, del, setModule, free, OwnedModule.held]
    · rw [if_neg hout]
      by_cases hinout : (s.module m).type = moduleInOut
      · rw [if_pos hinout, if_pos hinout]
        simp [gcInOut, clear, freeChildren, removeModule, del, setModule, free, OwnedModule.held]
      · rw [if_neg hinout, if_neg hinout]
        simp [gcUplink, clear, removeUplink, del, setModule, free, OwnedModule.held]

/-- What is still attached to a module has not been freed, and everything else of
it has. -/
theorem released_iff_held (h : Inv s) (hm : m ∈ s.created) (hlive : m ∉ s.collected)
    (hfailed : (s.module m).failed = false) : s.Released m ↔ (s.module m).held = [] := by
  constructor
  · intro hreleased
    apply List.eq_nil_iff_forall_not_mem.mpr
    intro b hb
    have howner := h.held_owner m hm b hb
    have haccount := h.account m hm hlive hfailed b howner
    have hpos := List.count_pos_iff.mpr hb
    rw [hreleased b howner] at haccount
    omega
  · intro hheld b howner
    have haccount := h.account m hm hlive hfailed b howner
    rw [hheld, List.count_nil, Nat.add_zero] at haccount
    exact haccount

/-- **When a handler releases everything, once.** -/
theorem released_iff (hs : machine.Reachable s) (hstep : machine.step s (.gc m) = some s') :
    s'.Released m ↔ (s.module m).bndls = [] ∧
      ((s.module m).type = moduleOutput ∨ (s.module m).type = moduleUplink →
        (s.module m).children = []) := by
  obtain ⟨⟨hm, hlive, hgc⟩, rfl⟩ := step_eq_some.mp hstep
  have hinv := inv_of_reachable hs
  obtain ⟨htype, hfailed⟩ := of_decide_eq_true hgc
  have hmoves : Moves m s (s.gc m) := gc_moves
  -- released are the blocks that are not held afterwards
  have hafter : (s.gc m).Released m ↔ ((s.gc m).module m).held = [] := by
    apply released_iff_held (hinv.moves hm hmoves)
    · rw [hmoves.created]
      exact hm
    · rw [hmoves.collected]
      exact hlive
    · rw [hmoves.failed]
      exact hfailed
  show (s.gc m).Released m ↔ _
  rw [hafter, held_gc]
  obtain hin | hout | hinout | huplink := htype
  · -- an input gets no events and no bundles
    have hsilent := hinv.silent m hm (by rw [hin]; decide)
    have hneither : ¬ ((s.module m).type = moduleOutput ∨ (s.module m).type = moduleUplink) := by
      rw [hin]
      decide
    rw [if_pos hin, hsilent.1, hsilent.2]
    exact ⟨fun _ => ⟨rfl, fun htype => absurd htype hneither⟩, fun _ => rfl⟩
  -- an output and an uplink do not free their children
  · rw [if_neg (by rw [hout]; decide), if_neg (by rw [hout]; decide)]
    simp [hout, and_comm]
  · have hneither : ¬ ((s.module m).type = moduleOutput ∨ (s.module m).type = moduleUplink) := by
      rw [hinout]
      decide
    rw [if_neg (by rw [hinout]; decide), if_pos hinout]
    exact ⟨fun hbndls => ⟨hbndls, fun htype => absurd htype hneither⟩, fun h => h.1⟩
  · rw [if_neg (by rw [huplink]; decide), if_neg (by rw [huplink]; decide)]
    simp [huplink, and_comm]

end Released

/-- Before the script is loaded. -/
def start : Owners where
  created := []
  collected := []
  module _ := ⟨0, false, none, [], [], []⟩
  modules := []
  uplinks := []
  allocated := []
  freed := []

theorem start_init : machine.init start := ⟨rfl, rfl, rfl, rfl, rfl, rfl⟩

/-- An input with an output as its child. The output has taken two messages and an
event of the input, a bundle has been opened and closed, and its queue is not
empty. -/
def tidyRun : List Label :=
  [.plugin 1 .none moduleOutput true false, .plugin 2 (.userdata 1) moduleInput true false,
    .message 1 (some 0), .forward 2 1 1, .processOut 1 1, .bundlePush 1, .bundlePop 1 (some 1)]

/-- An uplink with an output as its responder. -/
def uplinkRun : List Label :=
  [.plugin 1 .none moduleOutput false false, .plugin 2 (.userdata 1) moduleUplink false false]

/-- The output of the first run is collected. -/
theorem released_iff_start :
    ∃ s s', machine.exec start tidyRun = some s ∧ machine.step s (.gc 1) = some s' ∧
      s.allocated = [1, 2, 2, 1, 1, 1, 1] ∧ s'.freed = [3, 5, 0, 4, 6] ∧ s'.Released 1 := by
  have hrun : (machine.exec start tidyRun).map (fun s =>
      (s.allocated, (s.module 1).bndls, (s.module 1).children)) =
        some ([1, 2, 2, 1, 1, 1, 1], [], []) := by
    decide +kernel
  obtain ⟨s, hs, hobserved⟩ := Option.map_eq_some_iff.mp hrun
  obtain ⟨hallocated, hobserved⟩ := Prod.mk.inj hobserved
  obtain ⟨hbndls, hchildren⟩ := Prod.mk.inj hobserved
  have hlast : ((machine.exec start tidyRun).bind fun s => machine.step s (.gc 1)).map freed =
      some [3, 5, 0, 4, 6] := by
    decide +kernel
  rw [hs, Option.bind_some] at hlast
  obtain ⟨s', hs', hfreed⟩ := Option.map_eq_some_iff.mp hlast
  have hreachable : machine.Reachable s := ⟨start, tidyRun, start_init, hs⟩
  exact ⟨s, s', hs, hs', hallocated, hfreed,
    (released_iff hreachable hs').mpr ⟨hbndls, fun _ => hchildren⟩⟩

/-- **A leak.** The child record of the uplink is its only block, and it is not
freed. -/
theorem uplink_child_leaks :
    ∃ s s', machine.exec start uplinkRun = some s ∧ machine.step s (.gc 2) = some s' ∧
      ¬ s'.Released 2 := by
  have hrun : (machine.exec start (uplinkRun ++ [.gc 2])).map (fun s => (s.allocated, s.freed)) =
      some ([2], []) := by
    decide +kernel
  obtain ⟨s', hs', hobserved⟩ := Option.map_eq_some_iff.mp hrun
  obtain ⟨hallocated, hfreed⟩ := Prod.mk.inj hobserved
  rw [Machine.exec_append] at hs'
  obtain ⟨s, hs, hlast⟩ := Option.bind_eq_some_iff.mp hs'
  obtain ⟨t, hstep, hend⟩ := Machine.exec_cons_eq_some.mp hlast
  obtain rfl : t = s' := Option.some.inj hend
  refine ⟨s, t, hs, hstep, ?_⟩
  intro hreleased
  have hcount := hreleased 0 (by rw [hallocated]; rfl)
  rw [hfreed] at hcount
  exact absurd hcount (by decide)

end Owners

end Tjost
