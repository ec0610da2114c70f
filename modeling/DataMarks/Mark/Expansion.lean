/-
  Expansion of scales. An input that is bound to a scaling becomes a variable,
  which the mark assigns before all else, and the parameters of the scaling
  become inputs. Inputs that take the same input from a neighbour are computed
  from the neighbour's parameters.
-/
import DataMarks.Scale

namespace DataMarks

variable {δ : Type}

inductive MarkBinding (δ : Type)
  | plain (b : Binding δ)
  | scaled (s : Scaling δ)

/-- A specification without scales, ready for a platform. -/
structure Prepared (δ : Type) where
  specification : Specification
  bindings : Dictionary (Binding δ)
  shifts : Dictionary Shift

namespace Prepared

/-- Whether all data share the value of a name. -/
def isUniform (p : Prepared δ) (name : String) : Bool :=
  match p.bindings.get? name with
  | some b => !b.isFunction
  | none => false

/-- The specification with literal bindings for the defaults of its inputs. -/
def withLiterals (p : Prepared δ) : Specification :=
  let input : String × Input → String × Input := fun (n, i) =>
    match (p.bindings.get? n).bind Binding.literal? with
    | some v => (n, { i with default := some v })
    | none => (n, i)
  { p.specification with inputs := p.specification.inputs.map input }

end Prepared

/-- The parts of a mark that change while scales are expanded. -/
structure Expansion (δ : Type) where
  inputs : Dictionary Input
  locals : Dictionary ValueType
  bindings : Dictionary (Binding δ)
  shifts : Dictionary Shift
  /-- The assignments of scaled values. -/
  prologue : List Stmt := []

namespace Expansion

/-- Makes a variable of an input. -/
def vary (e : Expansion δ) (name : String) (t : ValueType) : Expansion δ :=
  { e with inputs := e.inputs.erase name, locals := e.locals.insert name t }

/-- Makes a parameter an input with a binding. -/
def bindParameter (e : Expansion δ) (p : Parameter δ) : Expansion δ :=
  { e with
    inputs := e.inputs.insert p.name ⟨p.type, none⟩
    bindings := e.bindings.insert p.name ⟨p.type, p.source⟩ }

/-- Makes a neighbour's parameter an input. All data share a parameter that is no function. -/
def shiftParameter (suffix : String) (offset : Int) (e : Expansion δ) (p : Parameter δ) :
    Expansion δ :=
  if p.source.isFunction then
    { e with
      inputs := e.inputs.insert (p.name ++ suffix) ⟨p.type, none⟩
      shifts := e.shifts.insert (p.name ++ suffix) ⟨p.name, offset⟩ }
  else e

def assign (e : Expansion δ) (name : String) (value : Expr) : Expansion δ :=
  { e with prologue := e.prologue ++ [.assign name value] }

/-- The parameters of a scaling as variables, those of input `name` of the neighbour that
`suffix` says. -/
def arguments (name suffix : String) (parameters : List (Parameter δ)) : Dictionary Expr :=
  Dictionary.ofEntries (parameters.map fun p =>
    let ending := if p.source.isFunction then suffix else ""
    (p.name, .var p.type (name ++ p.name ++ ending)))

/-- Expands the scaling of `name` for a neighbour, if the mark looks at it. -/
def expandShift (name : String) (t : ValueType) (s : Scaling δ) (e : Expansion δ)
    (shift : String × Int) : Except BindingError (Expansion δ) := do
  let (suffix, offset) := shift
  let shifted := name ++ suffix
  if e.inputs.contains shifted then
    let e := { e.vary shifted t with
      shifts := e.shifts.erase shifted
      bindings := e.bindings.erase shifted }
    let bound := s.parameters.map (Parameter.within name)
    let e := bound.foldl (shiftParameter suffix offset) e
    return e.assign shifted (← s.expression (arguments name suffix s.parameters))
  else return e

/-- Expands the scaling of an input, unless the input is gone. -/
def expand (name : String) (s : Scaling δ) (e : Expansion δ) :
    Except BindingError (Expansion δ) := do
  match e.inputs.get? name with
  | none => return e
  | some input =>
    let bound := s.parameters.map (Parameter.within name)
    let e := bound.foldl bindParameter { e with inputs := e.inputs.erase name }
    let e := { e with locals := e.locals.insert name input.type }
    let e := e.assign name (← s.expression (arguments name "" s.parameters))
    Shift.suffixes.foldlM (expandShift name input.type s) e

/-- Expands the scalings among bindings in their order. -/
def expandAll (bindings : Dictionary (MarkBinding δ)) (e : Expansion δ) :
    Except BindingError (Expansion δ) :=
  bindings.foldlM (fun e b =>
    match b.2 with
    | .plain _ => .ok e
    | .scaled s => expand b.1 s e) e

/-- The first input that has no binding and is not taken from a neighbour. -/
def unbound? (e : Expansion δ) : Option String :=
  e.inputs.keys.find? fun n => !e.bindings.contains n && !e.shifts.contains n

end Expansion

/-- The specification with its scales expanded. Every input must have a value. -/
def Specification.prepare (spec : Specification) (bindings : Dictionary (MarkBinding δ))
    (shifts : Dictionary Shift) : Except BindingError (Prepared δ) := do
  let plain := bindings.filterMap fun (n, b) =>
    match b with
    | .plain b => some (n, b)
    | .scaled _ => none
  let e ← Expansion.expandAll bindings
    { inputs := spec.inputs, locals := spec.locals, bindings := plain, shifts }
  match e.unbound? with
  | some n => throw (.undefinedAttribute n)
  | none =>
    return {
      specification := { spec with
        inputs := e.inputs
        locals := e.locals
        statements := e.prologue ++ spec.statements }
      bindings := e.bindings
      shifts := e.shifts }

end DataMarks
