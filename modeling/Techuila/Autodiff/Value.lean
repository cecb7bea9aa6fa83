import Mathlib.Algebra.Ring.Basic

/-!
# Values and their graph (`14-ai/autodiff/value.hpp`, `value.cpp`)

Data and gradients are in a commutative ring in place of `double`. A node is its place in the list of
all nodes; an access to a node that is not there is `none`.

* `BackwardFn`: the closures that the operators make. `Node.parents`: the operands.
* `zeroGradsRecursive`, `buildTopoOrder`, `backward`: with a bound on the depth of the recursion.
* `Call`, `run`: values that are made one after the other, with calls of `backward` in between.
-/

namespace Techuila
namespace Autodiff

/-- What a node does with its gradient. -/
inductive BackwardFn
  | nothing
  | add (self rhs : Nat)
  | neg (self : Nat)
  | mul (self rhs : Nat)
  deriving DecidableEq, Repr

structure Node (R : Type) where
  data : R
  grad : R
  backwardFn : BackwardFn := .nothing
  parents : List Nat := []
  deriving DecidableEq, Repr

abbrev Graph (R : Type) := List (Node R)

variable {R : Type} [CommRing R]

namespace Graph

def value (g : Graph R) (data : R) : Nat × Graph R := (g.length, g ++ [⟨data, 0, .nothing, []⟩])

def add (g : Graph R) (node other : Nat) : Option (Nat × Graph R) := do
  let a ← g[node]?
  let b ← g[other]?
  some (g.length, g ++ [⟨a.data + b.data, 0, .add node other, [node, other]⟩])

def neg (g : Graph R) (node : Nat) : Option (Nat × Graph R) := do
  let a ← g[node]?
  some (g.length, g ++ [⟨-a.data, 0, .neg node, [node]⟩])

def sub (g : Graph R) (node other : Nat) : Option (Nat × Graph R) := do
  let (negated, g) ← g.neg other
  g.add node negated

def mul (g : Graph R) (node other : Nat) : Option (Nat × Graph R) := do
  let a ← g[node]?
  let b ← g[other]?
  some (g.length, g ++ [⟨a.data * b.data, 0, .mul node other, [node, other]⟩])

def setGrad (g : Graph R) (n : Nat) (grad : R) : Option (Graph R) := do
  let node ← g[n]?
  some (g.set n { node with grad := grad })

/-- `grad += amount` -/
def addGrad (g : Graph R) (n : Nat) (amount : R) : Option (Graph R) := do
  let node ← g[n]?
  some (g.set n { node with grad := node.grad + amount })

def zeroGradsRecursive : Nat → Nat → List Nat × Graph R → Option (List Nat × Graph R)
  | 0, _, _ => none
  | fuel + 1, n, (visited, g) =>
    if n ∈ visited then some (visited, g)
    else do
      let g ← g.setGrad n 0
      let node ← g[n]?
      node.parents.foldlM (fun s parent => zeroGradsRecursive fuel parent s) (n :: visited, g)

def buildTopoOrder (g : Graph R) :
    Nat → Nat → List Nat × List Nat → Option (List Nat × List Nat)
  | 0, _, _ => none
  | fuel + 1, n, (visited, order) =>
    if n ∈ visited then some (visited, order)
    else do
      let node ← g[n]?
      let (visited, order) ← node.parents.foldlM (fun s parent => buildTopoOrder g fuel parent s)
        (n :: visited, order)
      some (visited, order ++ [n])

/-- The call of a node's `backwardFn`. -/
def callBackwardFn (g : Graph R) (n : Nat) : Option (Graph R) := do
  let r ← g[n]?
  match r.backwardFn with
  | .nothing => some g
  | .add self rhs =>
    let g ← g.addGrad self r.grad
    let r ← g[n]?
    g.addGrad rhs r.grad
  | .neg self => g.addGrad self (-r.grad)
  | .mul self rhs =>
    let right ← g[rhs]?
    let g ← g.addGrad self (right.data * r.grad)
    let r ← g[n]?
    let left ← g[self]?
    g.addGrad rhs (left.data * r.grad)

def backward (g : Graph R) (root : Nat) : Option (Graph R) := do
  let (_, g) ← zeroGradsRecursive g.length root ([], g)
  let (_, order) ← g.buildTopoOrder g.length root ([], [])
  let g ← g.setGrad root 1
  order.reverse.foldlM callBackwardFn g

end Graph

inductive Call (R : Type)
  | value (data : R)
  | add (node other : Nat)
  | neg (node : Nat)
  | sub (node other : Nat)
  | mul (node other : Nat)
  | backward (root : Nat)

def Call.perform (g : Graph R) : Call R → Option (Graph R)
  | .value data => some (g.value data).2
  | .add node other => (g.add node other).map Prod.snd
  | .neg node => (g.neg node).map Prod.snd
  | .sub node other => (g.sub node other).map Prod.snd
  | .mul node other => (g.mul node other).map Prod.snd
  | .backward root => g.backward root

def run (calls : List (Call R)) : Option (Graph R) := calls.foldlM Call.perform []

end Autodiff
end Techuila
