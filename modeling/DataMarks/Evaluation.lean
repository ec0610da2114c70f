/-
  Evaluation of specifications. A run either ends with an environment and the
  vertices it emitted, or it is discarded and leaves no vertex at all.
-/
import DataMarks.Intrinsic.Catalog
import DataMarks.Specification

namespace DataMarks

inductive EvalError
  | missingInput (name : String)
  | undefinedVariable (name : String)
  | unsupported (function : String)
  | outsideDomain (function : String)
  | undefinedField (field : String) (value : Value)
deriving DecidableEq, Repr

def EvalError.message : EvalError → String
  | missingInput x => s!"input `{x}` has no value"
  | undefinedVariable x => s!"variable `{x}` is read before it is assigned"
  | unsupported f => s!"intrinsic `{f}` has no host implementation"
  | outsideDomain f => s!"arguments to `{f}` are outside of its domain"
  | undefinedField f v => s!"no component `{f}` on value `{v.text}`"

/-- The values of inputs and variables. -/
abbrev Env := Dictionary Value

/-- The operation behind an internal name. -/
def operation? (function : String) : Option Operation :=
  (Catalog.find? function).bind Intrinsic.operation

/-- A component of a value. -/
def Value.field? (v : Value) (field : String) : Option Float :=
  (Catalog.fieldIndex? field).bind fun i => v.components[i]?

mutual

def Expr.eval (env : Env) : Expr → Except EvalError Value
  | .const _ v => .ok v
  | .var _ x =>
    match env.get? x with
    | some v => .ok v
    | none => .error (.undefinedVariable x)
  | .field _ base f => do
    let v ← base.eval env
    match v.field? f with
    | some x => return .scalar x
    | none => throw (.undefinedField f v)
  | .call _ f args =>
    match operation? f with
    | none => .error (.unsupported f)
    | some o => do
      match o.run (← Expr.evalAll env args) with
      | some v => return v
      | none => throw (.outsideDomain f)

/-- Evaluates from left to right. -/
def Expr.evalAll (env : Env) : List Expr → Except EvalError (List Value)
  | [] => .ok []
  | e :: es => do
    let v ← e.eval env
    let vs ← Expr.evalAll env es
    return v :: vs

end

/-- The vertex of an emit. -/
def emitVertex (env : Env) (attributes : Dictionary Expr) : Except EvalError Vertex :=
  attributes.mapM fun (name, e) => do return (name, ← e.eval env)

/-- How a run of statements ends. -/
inductive Outcome
  | finished (env : Env) (vertices : List Vertex)
  | discarded
deriving Repr

namespace Outcome

/-- Puts vertices in front of those of the outcome. -/
def after (vs : List Vertex) : Outcome → Outcome
  | finished env ws => finished env (vs ++ ws)
  | discarded => discarded

/-- Goes on from the end of a run that was not discarded. -/
def andThen (o : Outcome) (next : Env → Except EvalError Outcome) : Except EvalError Outcome :=
  match o with
  | finished env vs => do return (← next env).after vs
  | discarded => .ok discarded

/-- The vertices that a run leaves. -/
def vertices : Outcome → List Vertex
  | finished _ vs => vs
  | discarded => []

end Outcome

/-- Runs `body` for `i`, `i + 1`, ..., so many times. -/
def iterate (body : Int → Env → Except EvalError Outcome) :
    Nat → Int → Env → Except EvalError Outcome
  | 0, _, env => .ok (.finished env [])
  | n + 1, i, env => do (← body i env).andThen (iterate body n (i + 1))

mutual

def Stmt.run : Stmt → Env → Except EvalError Outcome
  | .assign x e, env => do return .finished (env.insert x (← e.eval env)) []
  | .emit attributes, env => do return .finished env [← emitVertex env attributes]
  | .condition test thenBody elseBody, env => do
    if (← test.eval env).truthy then Stmt.runAll thenBody env else Stmt.runAll elseBody env
  | .loop x first last body, env =>
    iterate (fun i env => Stmt.runAll body (env.insert x (.scalar (Float.ofInt i))))
      (loopRounds first last) first env
  | .discard, _ => .ok .discarded

def Stmt.runAll : List Stmt → Env → Except EvalError Outcome
  | [], env => .ok (.finished env [])
  | s :: ss, env => do (← s.run env).andThen (Stmt.runAll ss)

end

namespace Specification

/-- The environment at the start: given values, and defaults where none is given. -/
def bindInputs (given : Dictionary Value) : Dictionary Input → Except EvalError Env
  | [] => .ok []
  | (x, input) :: rest =>
    match given.get? x <|> input.default with
    | none => .error (.missingInput x)
    | some v => do return (x, v) :: (← bindInputs given rest)

/-- The vertices that a specification emits for given inputs. -/
def evaluate (s : Specification) (given : Dictionary Value) : Except EvalError (List Vertex) := do
  let env ← bindInputs given s.inputs
  return (← Stmt.runAll s.statements env).vertices

end Specification

end DataMarks
