import Techuila.Lib.Table

/-!
# The world of entities (`17-graphics/ecs/entity.hpp`, `world.hpp`)

* `World`: the tables of a world. The types of components are arbitrary.
* `World.perform`: one call with its result. A reference or a pointer to a component is its value.
* A read outside the tables of `view` is `none`. The order of a hash map is that of its entries.
-/

namespace Techuila
namespace Ecs

structure Entity where
  id : UInt32 := 0
  generation : UInt32 := 0
  deriving DecidableEq, Repr

/-- The components of one type by entity id. -/
abbrev ComponentPool (α : Type) := Table UInt32 α

/-- The freed ids have the last one first. -/
structure World {τ : Type} (C : τ → Type) where
  generations : List UInt32 := []
  alive : List Bool := []
  freeIds : List UInt32 := []
  pools : (type : τ) → Option (ComponentPool (C type)) := fun _ => none

variable {τ : Type} [DecidableEq τ] {C : τ → Type}

namespace World

def createEntity (w : World C) : Entity × World C :=
  match w.freeIds with
  | id :: freeIds =>
    (⟨id, w.generations.getD id.toNat 0⟩,
      { w with freeIds := freeIds, alive := w.alive.set id.toNat true })
  | [] =>
    let id := UInt32.ofNat w.generations.length
    let generations := w.generations ++ [0]
    (⟨id, generations.getD id.toNat 0⟩,
      { w with generations := generations, alive := w.alive ++ [true] })

def isAlive (w : World C) (e : Entity) : Bool :=
  w.generations[e.id.toNat]? = some e.generation && w.alive.getD e.id.toNat false

def destroyEntity (w : World C) (e : Entity) : World C :=
  if !w.isAlive e then w
  else
    { generations := w.generations.modify e.id.toNat (· + 1)
      alive := w.alive.set e.id.toNat false
      freeIds := e.id :: w.freeIds
      pools := fun type => (w.pools type).map fun pool => pool.erase e.id }

def setPool (w : World C) (type : τ) (pool : ComponentPool (C type)) : World C :=
  { w with pools := Function.update w.pools type (some pool) }

/-- The pool of a type, created where it is missing. -/
def poolFor (w : World C) (type : τ) : ComponentPool (C type) × World C :=
  match w.pools type with
  | some pool => (pool, w)
  | none => ([], w.setPool type [])

def addComponent (w : World C) (type : τ) (e : Entity) (component : C type) : C type × World C :=
  let (pool, w) := w.poolFor type
  (component, w.setPool type (pool.insert e.id component))

def getComponent (w : World C) (type : τ) (e : Entity) : Option (C type) × World C :=
  if !w.isAlive e then (none, w)
  else
    let (pool, w) := w.poolFor type
    (pool.find e.id, w)

def hasComponent (w : World C) (type : τ) (e : Entity) : Bool :=
  match w.pools type with
  | none => false
  | some pool => pool.contains e.id

def removeComponent (w : World C) (type : τ) (e : Entity) : World C :=
  let (pool, w) := w.poolFor type
  w.setPool type (pool.erase e.id)

/-- The loop of `view` over the ids of a pool. -/
def viewIds (w : World C) : List UInt32 → Option (List Entity)
  | [] => some []
  | id :: ids => do
    let generation ← w.generations[id.toNat]?
    let rest ← viewIds w ids
    some (if w.isAlive ⟨id, generation⟩ then ⟨id, generation⟩ :: rest else rest)

def view (w : World C) (type : τ) : Option (List Entity) × World C :=
  let (pool, w) := w.poolFor type
  (w.viewIds (pool.map Prod.fst), w)

end World

inductive Call {τ : Type} (C : τ → Type)
  | createEntity
  | destroyEntity (e : Entity)
  | addComponent (type : τ) (e : Entity) (component : C type)
  | getComponent (type : τ) (e : Entity)
  | hasComponent (type : τ) (e : Entity)
  | removeComponent (type : τ) (e : Entity)
  | view (type : τ)

inductive Result {τ : Type} (C : τ → Type)
  | done
  | entity (e : Entity)
  | component (type : τ) (component : Option (C type))
  | has (result : Bool)
  | entities (result : Option (List Entity))

/-- The handle that a call is made through. -/
def Call.handle : Call C → Option Entity
  | .createEntity => none
  | .destroyEntity e => some e
  | .addComponent _ e _ => some e
  | .getComponent _ e => some e
  | .hasComponent _ e => some e
  | .removeComponent _ e => some e
  | .view _ => none

namespace World

def perform (w : World C) : Call C → World C × Result C
  | .createEntity => (w.createEntity.2, .entity w.createEntity.1)
  | .destroyEntity e => (w.destroyEntity e, .done)
  | .addComponent type e component =>
    let (component, w) := w.addComponent type e component
    (w, .component type (some component))
  | .getComponent type e =>
    let (component, w) := w.getComponent type e
    (w, .component type component)
  | .hasComponent type e => (w, .has (w.hasComponent type e))
  | .removeComponent type e => (w.removeComponent type e, .done)
  | .view type =>
    let (entities, w) := w.view type
    (w, .entities entities)

/-- The call is made through no handle, or through one that is alive. -/
def live (w : World C) (call : Call C) : Bool := call.handle.all w.isAlive

/-! ## Pools -/

/-- The components of a type. A pool that is missing has none. -/
def pool (w : World C) (type : τ) : ComponentPool (C type) := (w.pools type).getD []

/-- The component of a type that is stored under an id. -/
def stored (w : World C) (type : τ) (id : UInt32) : Option (C type) := (w.pool type).find id

variable {w : World C} {type : τ}

@[simp] theorem pool_setPool (w : World C) (type : τ) (p : ComponentPool (C type)) :
    (w.setPool type p).pool type = p := by
  simp [pool, setPool]

theorem pool_setPool_ne (w : World C) {type type' : τ} (p : ComponentPool (C type))
    (h : type' ≠ type) : (w.setPool type p).pool type' = w.pool type' := by
  simp [pool, setPool, h]

@[simp] theorem poolFor_fst (w : World C) (type : τ) : (w.poolFor type).1 = w.pool type := by
  unfold poolFor pool
  cases w.pools type <;> rfl

/-- A pool that is created is empty, as it was when it was missing. -/
@[simp] theorem pool_poolFor (w : World C) (type type' : τ) :
    (w.poolFor type).2.pool type' = w.pool type' := by
  unfold poolFor
  cases h : w.pools type with
  | some p => rfl
  | none =>
    by_cases ht : type' = type
    · subst ht
      simp [pool, setPool, h]
    · exact pool_setPool_ne w [] ht

theorem poolFor_tables (w : World C) (type : τ) : (w.poolFor type).2.generations = w.generations ∧
    (w.poolFor type).2.alive = w.alive ∧ (w.poolFor type).2.freeIds = w.freeIds := by
  unfold poolFor
  cases w.pools type <;> exact ⟨rfl, rfl, rfl⟩

omit [DecidableEq τ] in
theorem pool_destroyEntity (w : World C) (e : Entity) (type : τ) : (w.destroyEntity e).pool type =
    if w.isAlive e then (w.pool type).erase e.id else w.pool type := by
  unfold destroyEntity
  by_cases h : w.isAlive e = true
  · simp only [h, Bool.not_true, Bool.false_eq_true, if_false, if_true, pool]
    cases w.pools type <;> rfl
  · simp [h]

omit [DecidableEq τ] in
theorem hasComponent_eq (w : World C) (type : τ) (e : Entity) :
    w.hasComponent type e = (w.stored type e.id).isSome := by
  unfold hasComponent stored pool
  cases w.pools type <;> rfl

theorem getComponent_fst (w : World C) (type : τ) (e : Entity) :
    (w.getComponent type e).1 = if w.isAlive e then w.stored type e.id else none := by
  unfold getComponent stored
  cases w.isAlive e <;> simp

end World

end Ecs
end Techuila
