import Mathlib.Data.BitVec
import Techuila.Oglang.Driver
import Techuila.Oglang.Execution

/-!
# The meaning of the source language

A function has one variable for each name, as the type checker has one table of them. A value is a
number or the address of a variable; an operand that is a variable is read when its operator
applies. A program has no meaning where the language leaves it open: an unset variable, a division
that overflows, inline assembly, a call nested too deep, a loop of too many rounds. An index out of
bounds ends the program.

* `Computation`: computations on the variables.
* `evalExpr`, `execStatement`, `execBlock`: one function, with the calls as a parameter.
* `Source.run`: a call in a program.
-/

namespace Techuila
namespace Oglang

/-- What holds a value in an activation. -/
inductive Place where
  | var (name : String)
  | element (arrayName : String) (i : Nat)
  | field (structVarName : String) (i : Nat)
  deriving DecidableEq, Repr

/-- A value: a number, or the address of a variable of the activation at a depth. -/
inductive Datum where
  | int (n : BitVec 32)
  | ref (depth : Nat) (name : String)
  deriving DecidableEq, Repr

/-- The variables of an activation, the sizes of its arrays and the types of its structs. -/
structure Locals where
  contents : Place → Option Datum := fun _ => none
  arrays : Table String Nat := []
  structVars : Table String String := []

/-- The activations, by depth. -/
abbrev Activations := Nat → Locals

/-- What an operand stands for. -/
inductive Referent where
  | var (name : String)
  | datum (x : Datum)

namespace Datum

def int? : Datum → Option (BitVec 32)
  | int n => some n
  | ref _ _ => none

def ref? : Datum → Option (Nat × String)
  | int _ => none
  | ref depth name => some (depth, name)

@[simp] theorem int?_eq_some {x : Datum} {n : BitVec 32} : x.int? = some n ↔ x = .int n := by
  cases x <;> simp [int?]

@[simp] theorem ref?_eq_some {x : Datum} {r : Nat × String} :
    x.ref? = some r ↔ x = .ref r.1 r.2 := by
  cases x <;> simp [ref?, Prod.ext_iff]

end Datum

namespace Locals

def set (l : Locals) (p : Place) (x : Option Datum) : Locals :=
  { l with contents := Function.update l.contents p x }

@[simp] theorem set_arrays (l : Locals) (p : Place) (x : Option Datum) :
    (l.set p x).arrays = l.arrays := rfl

@[simp] theorem set_structVars (l : Locals) (p : Place) (x : Option Datum) :
    (l.set p x).structVars = l.structVars := rfl

theorem set_contents (l : Locals) (p q : Place) (x : Option Datum) :
    (l.set p x).contents q = if q = p then x else l.contents q := by
  simp [set, Function.update_apply]

/-- A new array of zeros. -/
def addArray (l : Locals) (name : String) (size : Nat) : Locals :=
  { l with
    contents := fun p =>
      match p with
      | .element a i => if a = name then (if i < size then some (.int 0) else none)
          else l.contents p
      | _ => l.contents p
    arrays := l.arrays.insert name size }

/-- A new struct with zeros in its fields. -/
def addStructVar (l : Locals) (name structType : String) (fields : Nat) : Locals :=
  { l with
    contents := fun p =>
      match p with
      | .field x i => if x = name then (if i < fields then some (.int 0) else none)
          else l.contents p
      | _ => l.contents p
    structVars := l.structVars.insert name structType }

end Locals

namespace Activations

def update (s : Activations) (d : Nat) (g : Locals → Locals) : Activations :=
  Function.update s d (g (s d))

@[simp] theorem update_self (s : Activations) (d : Nat) (g : Locals → Locals) :
    s.update d g d = g (s d) := by simp [update]

theorem update_of_ne {s : Activations} {d k : Nat} {g : Locals → Locals} (h : k ≠ d) :
    s.update d g k = s k := by simp [update, h]

section Set

variable (s : Activations) (d k : Nat) (p q : Place) (x : Option Datum)

theorem set_contents :
    (s.update d (·.set p x) k).contents q = if k = d ∧ q = p then x else (s k).contents q := by
  by_cases h : k = d
  · subst h
    simp [Locals.set_contents]
  · simp [update_of_ne h, h]

@[simp] theorem set_arrays : (s.update d (·.set p x) k).arrays = (s k).arrays := by
  by_cases h : k = d
  · subst h
    simp
  · simp [update_of_ne h]

@[simp] theorem set_structVars :
    (s.update d (·.set p x) k).structVars = (s k).structVars := by
  by_cases h : k = d
  · subst h
    simp
  · simp [update_of_ne h]

end Set

end Activations

/-! ## Computations -/

/-- How a computation ends: with a result, or with a failed bounds check. -/
inductive Effect (α : Type) where
  | ok (a : α) (s : Activations)
  | trapped

def Computation (α : Type) := Activations → Option (Effect α)

namespace Computation

variable {α β : Type}

instance : Monad Computation where
  pure a s := some (.ok a s)
  bind x g s :=
    match x s with
    | none => none
    | some .trapped => some .trapped
    | some (.ok a s) => g a s

/-- No meaning. -/
def undefined : Computation α := fun _ => none

/-- A partial function of the variables. -/
def query (g : Activations → Option α) : Computation α := fun s => (g s).map (.ok · s)

def alter (d : Nat) (g : Locals → Locals) : Computation Unit := fun s => some (.ok () (s.update d g))

@[simp] theorem undefined_apply (s : Activations) : (undefined : Computation α) s = none := rfl

@[simp] theorem pure_apply (a : α) (s : Activations) :
    (pure a : Computation α) s = some (.ok a s) := rfl

theorem bind_eq_some {x : Computation α} {g : α → Computation β} {s : Activations} {o : Effect β} :
    (x >>= g) s = some o ↔ (x s = some .trapped ∧ o = .trapped) ∨
      ∃ a s', x s = some (.ok a s') ∧ g a s' = some o := by
  show (match x s with | none => none | some .trapped => some .trapped | some (.ok a s) => g a s)
    = some o ↔ _
  cases hx : x s with
  | none => simp
  | some e => cases e <;> simp [eq_comm]

theorem query_eq_some {f : Activations → Option α} {s : Activations} {o : Effect α} :
    query f s = some o ↔ ∃ a, f s = some a ∧ o = .ok a s := by
  simp [query, eq_comm]

theorem query_bind_eq_some {f : Activations → Option α} {g : α → Computation β} {s : Activations}
    {o : Effect β} : (query f >>= g) s = some o ↔ ∃ a, f s = some a ∧ g a s = some o := by
  simp [bind_eq_some, query, and_assoc]

theorem alter_bind {d : Nat} {f : Locals → Locals} {g : Unit → Computation β} {s : Activations} :
    (alter d f >>= g) s = g () (s.update d f) := rfl

end Computation

/-! ## Expressions -/

def Referent.read (s : Activations) (d : Nat) : Referent → Option Datum
  | .var name => (s d).contents (.var name)
  | .datum x => some x

/-- The number in a place. -/
def Activations.number (s : Activations) (d : Nat) (p : Place) : Option (BitVec 32) :=
  ((s d).contents p).bind Datum.int?

/-- The place of a field. -/
def Activations.field (Y : Layouts) (s : Activations) (d : Nat) (structVarName fieldName : String) :
    Option Place := do
  let structType ← (s d).structVars.find structVarName
  let fieldOrder ← Y.structFieldOrder.find structType
  let i ← fieldOrder.idxOf? fieldName
  some (.field structVarName i)

theorem Activations.contents_ne_none {s : Activations} {d : Nat} {p : Place} {n : BitVec 32}
    (h : s.number d p = some n) : (s d).contents p ≠ none := by
  intro e
  simp [number, e] at h

/-- A comparison is 1 where it holds. -/
def truth (p : Prop) [Decidable p] : BitVec 32 := if p then 1 else 0

/-- The operators; division by zero and the one quotient that does not fit have no result. -/
def operate (op : Char) (a b : BitVec 32) : Option (BitVec 32) :=
  match op with
  | '+' => some (a + b)
  | '-' => some (a - b)
  | '*' => some (a * b)
  | '/' => if b = 0 ∨ (a = BitVec.intMin 32 ∧ b = -1) then none else some (a.sdiv b)
  | '=' => some (truth (a = b))
  | '!' => some (truth (a ≠ b))
  | '>' => some (truth (a.toInt > b.toInt))
  | '<' => some (truth (a.toInt < b.toInt))
  | 'G' => some (truth (a.toInt ≥ b.toInt))
  | 'L' => some (truth (a.toInt ≤ b.toInt))
  | _ => none

section Function

open Computation

variable (Y : Layouts) (call : String → List Datum → Computation (BitVec 32)) (d : Nat)

/-- The number that an operand stands for. -/
def number (x : Referent) : Computation (BitVec 32) :=
  query fun s => (x.read s d).bind Datum.int?

/-- The address that an operand stands for. -/
def address (x : Referent) : Computation (Nat × String) :=
  query fun s => (x.read s d).bind Datum.ref?

/-- The element with the index `n`, which is unsigned. -/
def elementOf (arrayName : String) (n : BitVec 32) : Computation Place := fun s =>
  match (s d).arrays.find arrayName with
  | none => none
  | some size =>
    if n.toNat < size then some (.ok (.element arrayName n.toNat) s) else some .trapped

/-- Stores a number where there is one. -/
def overwrite (k : Nat) (p : Place) (n : BitVec 32) : Computation Unit := do
  let _ ← query fun s => s.number k p
  alter k (·.set p (some (.int n)))

variable {k : Nat} {p : Place} {n : BitVec 32} in
theorem overwrite_bind_eq_some {α : Type} {g : Unit → Computation α} {s : Activations}
    {o : Effect α} : (overwrite k p n >>= g) s = some o ↔ (∃ b, s.number k p = some b) ∧
      g () (s.update k (·.set p (some (.int n)))) = some o := by
  rw [bind_eq_some]
  simp [overwrite, bind_eq_some, alter, query, Unique.exists_iff]

mutual

def evalExpr : Expr → Computation Referent
  | .integer value => pure (.datum (.int (BitVec.ofInt 32 value)))
  | .variable name => pure (.var name)
  | .unary op operand =>
    if op ≠ '-' then undefined
    else do
      let x ← evalExpr operand
      let n ← number d x
      pure (.datum (.int (-n)))
  | .addressOf name => pure (.datum (.ref d name))
  | .deref pointer => do
    let x ← evalExpr pointer
    let (k, name) ← address d x
    let n ← query fun s => s.number k (.var name)
    pure (.datum (.int n))
  | .index arrayName index => do
    let x ← evalExpr index
    let i ← number d x
    let p ← elementOf d arrayName i
    let n ← query fun s => s.number d p
    pure (.datum (.int n))
  | .fieldAccess structVarName fieldName => fun s =>
    -- a struct variable takes priority over an enum of the same name
    match (s d).structVars.contains structVarName, Y.enumVariants.find structVarName with
    | false, some variants =>
      (variants.find fieldName).map fun ordinal =>
        .ok (.datum (.int (BitVec.ofInt 32 ordinal))) s
    | _, _ => (do
      let p ← query fun s => s.field Y d structVarName fieldName
      let n ← query fun s => s.number d p
      pure (.datum (.int n)) : Computation Referent) s
  | .asm _ => undefined
  | .call callee args => do
    let xs ← evalArgs args
    let vs ← query fun s => xs.mapM (Referent.read s d)
    let n ← call callee vs
    pure (.datum (.int n))
  | .binary op left right => do
    let x ← evalExpr left
    let y ← evalExpr right
    let a ← number d x
    let b ← number d y
    let n ← query fun _ => operate op a b
    pure (.datum (.int n))

def evalArgs : List Expr → Computation (List Referent)
  | [] => pure []
  | arg :: args => do
    let x ← evalExpr arg
    let xs ← evalArgs args
    pure (x :: xs)

end

/-! ## Statements -/

/-- How a statement ends. -/
inductive Control where
  | next
  | returned (n : BitVec 32)

/-- At most `n` rounds of a loop. -/
def loop (condition : Computation (BitVec 32)) (body : Computation Control) :
    (n : Nat) → Computation Control
  | 0 => undefined
  | n + 1 => do
    let b ← condition
    if b = 0 then pure .next
    else do
      match ← body with
      | .returned n => pure (.returned n)
      | .next => loop condition body n

variable (rounds : Nat)

mutual

/-- A statement; loops run at most `rounds` rounds. -/
def execStatement : Statement → Computation Control
  | .letStmt name _ initializer => do
    -- in a loop, the variable of the round before is gone
    alter d (·.set (.var name) none)
    let x ← evalExpr Y call d initializer
    let v ← query fun s => x.read s d
    alter d (·.set (.var name) (some v))
    pure .next
  | .assignStmt name value => do
    let x ← evalExpr Y call d value
    let n ← number d x
    alter d (·.set (.var name) (some (.int n)))
    pure .next
  | .storeStmt pointer value => do
    let x ← evalExpr Y call d pointer
    let y ← evalExpr Y call d value
    let (k, name) ← address d x
    let n ← number d y
    overwrite k (.var name) n
    pure .next
  | .arrayDecl name _ size => do
    alter d (·.addArray name size.toNat)
    pure .next
  | .structVarDecl name structType => do
    let fieldOrder ← query fun _ => Y.structFieldOrder.find structType
    alter d (·.addStructVar name structType fieldOrder.length)
    pure .next
  | .fieldStore structVarName fieldName value => do
    let p ← query fun s => s.field Y d structVarName fieldName
    let x ← evalExpr Y call d value
    let n ← number d x
    overwrite d p n
    pure .next
  | .indexStore arrayName index value => do
    let x ← evalExpr Y call d index
    let i ← number d x
    let p ← elementOf d arrayName i
    let y ← evalExpr Y call d value
    let n ← number d y
    overwrite d p n
    pure .next
  | .whileStmt condition body =>
    loop (evalExpr Y call d condition >>= number d) (execBlock body) rounds
  | .ifStmt condition thenBody elseBody => do
    let b ← evalExpr Y call d condition >>= number d
    if b ≠ 0 then execBlock thenBody else execBlock elseBody
  | .returnStmt value => do
    let x ← evalExpr Y call d value
    let n ← number d x
    pure (.returned n)

def execBlock : List Statement → Computation Control
  | [] => pure .next
  | statement :: body => do
    match ← execStatement statement with
    | .returned n => pure (.returned n)
    | .next => execBlock body

end

/-! ## Functions and programs -/

/-- The parameters from index `i` on get their values; only a number fits on the stack. -/
def bindParams (i : Nat) : List Param → List Datum → Computation Unit
  | [], [] => pure ()
  | param :: params, v :: vs => do
    let v ← query fun _ => if i < registerArgs then some v else v.int?.map .int
    alter d (·.set (.var param.name) (some v))
    bindParams (i + 1) params vs
  | _, _ => undefined

/-- An activation at depth `d`. -/
def Function.run (function : Function) (args : List Datum) : Computation (BitVec 32) := do
  alter d fun _ => {}
  bindParams d 0 function.params args
  match ← execBlock Y call d rounds function.body with
  | .returned n => pure n
  | .next => undefined

end Function

/-- A call at depth `d`, with at most `n` activations inside each other and at most `rounds` rounds
in each loop. -/
def Source.run (source : Source) (rounds : Nat) :
    (n d : Nat) → String → List Datum → Computation (BitVec 32)
  | 0, _, _, _ => .undefined
  | n + 1, d, name, args =>
    match source.functions.find? fun f => f.2.name == name with
    | none => .undefined
    | some f => f.2.run f.1 (source.run rounds n (d + 1)) d rounds args

/-! ## The operators of the intermediate code -/

theorem sdiv_eq (a b : BitVec 32) : a.sdiv b = BitVec.ofInt 32 (a.toInt.tdiv b.toInt) := by
  apply BitVec.eq_of_toInt_eq
  rw [BitVec.toInt_sdiv, BitVec.toInt_ofInt]

/-- The opcode of an operator computes it. -/
theorem operate_eq {op : Char} {opcode : OpCode} (h : IRLowerer.binaryOpcode op = some opcode)
    (a b : BitVec 32) : operate op a b = opcode.eval a b := by
  unfold IRLowerer.binaryOpcode at h
  split at h <;> cases h <;> simp [operate, OpCode.eval, truth, boolWord, sdiv_eq]

end Oglang
end Techuila
