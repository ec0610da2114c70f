/-
  Scales: inputs that a mark computes from a few parameters, where a plain
  binding has a value for each datum.

  A scale has parameters of its own and is applied to arguments, which can be
  scalings again. A parameter of the scale is called "s" and its name; what
  belongs to an argument is called "a", its position and, if the argument is a
  scaling, the name of its parameter.
-/
import DataMarks.Binding
import DataMarks.Compilation.Standalone

namespace DataMarks

variable {δ : Type}

inductive Interpolation
  | linear
  | log
deriving DecidableEq, Repr

/-- What the value of a scale depends on. -/
structure Parameter (δ : Type) where
  name : String
  type : ValueType
  source : Source δ

inductive Scale (δ : Type)
  /-- Takes a domain of numbers to a range of values of a type. -/
  | continuous (interpolation : Interpolation) (type : ValueType)
      (domain range : Source δ × Source δ)
  /-- An intrinsic of the arguments. -/
  | intrinsic (f : Intrinsic)
  /-- An expression in numeric parameters and the argument, which is called "value". -/
  | custom (body : Surface.Expr) (parameters : Dictionary (Source δ))

mutual

/-- A scale applied to arguments. -/
inductive Scaling (δ : Type)
  | apply (scale : Scale δ) (returns : ValueType) (argTypes : List ValueType)
      (args : List (ScaleArgument δ))

inductive ScaleArgument (δ : Type)
  | value (source : Source δ)
  | scaling (s : Scaling δ)

end

/-! ## Parameters -/

/-- The parameters of the scale itself. -/
def Scale.parameters : Scale δ → List (Parameter δ)
  | continuous _ t (d₀, d₁) (r₀, r₁) =>
    [⟨"d0", .float, d₀⟩, ⟨"d1", .float, d₁⟩, ⟨"r0", t, r₀⟩, ⟨"r1", t, r₁⟩]
  | intrinsic _ => []
  | custom _ parameters => parameters.map fun (n, source) => ⟨n, .float, source⟩

/-- The name of an argument. -/
def ScaleArgument.name (index : Nat) : String := "a" ++ toString index

/-- The parameter for use inside of something with a name of its own. -/
def Parameter.within (owner : String) (p : Parameter δ) : Parameter δ :=
  { p with name := owner ++ p.name }

namespace Scaling

def returns : Scaling δ → ValueType
  | apply _ t _ _ => t

def argTypes : Scaling δ → List ValueType
  | apply _ _ ts _ => ts

mutual

/-- All parameters, those of scalings among the arguments included. -/
def parameters : Scaling δ → List (Parameter δ)
  | apply scale _ types args =>
    scale.parameters.map (Parameter.within "s") ++ argParameters 0 types args

/-- The parameters of the arguments from position `i` on. -/
def argParameters (i : Nat) (types : List ValueType) :
    List (ScaleArgument δ) → List (Parameter δ)
  | [] => []
  | .value source :: args =>
    ⟨ScaleArgument.name i, types.headD .float, source⟩ :: argParameters (i + 1) types.tail args
  | .scaling s :: args =>
    s.parameters.map (Parameter.within (ScaleArgument.name i))
      ++ argParameters (i + 1) types.tail args

end

end Scaling

/-! ## Expressions -/

/-- The expression that a name stands for. -/
def Dictionary.find {α : Type} (d : Dictionary α) (name : String) : Except BindingError α :=
  match d.get? name with
  | some x => .ok x
  | none => .error (.undefinedAttribute name)

namespace Scale

/-- The parameters of something called `owner`, under their own names. -/
def select (given : Dictionary Expr) (owner : String) (parameters : List (Parameter δ)) :
    Except BindingError (Dictionary Expr) := do
  return Dictionary.ofEntries (← parameters.mapM fun p => do
    return (p.name, ← given.find (owner ++ p.name)))

/-- The argument at a position. -/
def argument (values : List Expr) (i : Nat) : Except BindingError Expr :=
  match values[i]? with
  | some e => .ok e
  | none => .error (.undefinedAttribute (ScaleArgument.name i))

/-- Where a number lies between the ends of the domain, as 0 to 1. -/
def position (value d₀ d₁ : Expr) : Interpolation → Expr
  | .linear => .binary "/" (.binary "-" value d₀) (.binary "-" d₁ d₀)
  | .log =>
    let log (e : Expr) := Expr.intrinsic "log" [e] .float
    .binary "/" (log (.binary "/" value d₀)) (log (.binary "/" d₁ d₀))

/-- Converts arguments to the types of parameters; `i` is the position of the first. -/
def convert (values : List Expr) (i : Nat) : List ValueType → Except BindingError (List Expr)
  | [] => .ok []
  | t :: ts => do
    let arg ← argument values i
    match arg.coerce? t with
    | none => throw (.mismatchedScale (ScaleArgument.name i) arg.type t)
    | some (arg, _) => return arg :: (← convert values (i + 1) ts)

/-- The scaled value for expressions of the scale's own parameters and of its arguments. -/
def expression (own : Dictionary Expr) (values : List Expr) :
    Scale δ → Except BindingError Expr
  | continuous interpolation t _ _ => do
    let value ← argument values 0
    let d₀ ← own.find "d0"
    let d₁ ← own.find "d1"
    let r₀ ← own.find "r0"
    let r₁ ← own.find "r1"
    return .intrinsic "mix" [r₀, r₁, position value d₀ d₁ interpolation] t
  | intrinsic f => do
    return .call f.returns f.internalName (← convert values 0 f.params)
  | custom body _ => do
    let value ← argument values 0
    (Standalone.expr (own.insert "value" value) body).mapError .invalidScale

end Scale

namespace Scaling

mutual

/-- The scaled value for expressions of all parameters. -/
def expression (given : Dictionary Expr) : Scaling δ → Except BindingError Expr
  | apply scale _ _ args => do
    let own ← Scale.select given "s" scale.parameters
    let values ← argExpressions given 0 args
    scale.expression own values

/-- The arguments from position `i` on. -/
def argExpressions (given : Dictionary Expr) (i : Nat) :
    List (ScaleArgument δ) → Except BindingError (List Expr)
  | [] => .ok []
  | .value _ :: args => do
    let e ← given.find (ScaleArgument.name i)
    return e :: (← argExpressions given (i + 1) args)
  | .scaling s :: args => do
    let inner ← Scale.select given (ScaleArgument.name i) s.parameters
    let e ← s.expression inner
    return e :: (← argExpressions given (i + 1) args)

end

/-! ## Construction -/

/-- The value of a type whose components are all the same. -/
def uniform (t : ValueType) (x : Float) : Value :=
  if t.components = 1 then .scalar x else .vector (List.replicate t.components x)

def unitDomain : Source δ × Source δ := (.number 0, .number 1)

def unitRange (t : ValueType) : Source δ × Source δ :=
  (.literal (uniform t 0), .literal (uniform t 1))

/-- Interpolates in a range of values of type `t`. -/
def continuous (interpolation : Interpolation) (t : ValueType) (domain range : Source δ × Source δ)
    (arg : ScaleArgument δ) : Scaling δ :=
  apply (.continuous interpolation t domain range) t [.float] [arg]

end Scaling

/-- The type of an argument inside of an intrinsic scale; functions count as numbers. -/
def ScaleArgument.type : ScaleArgument δ → ValueType
  | scaling s => s.returns
  | value (.literal (.vector xs)) =>
    match xs.length with
    | 2 => .vector2
    | 3 => .vector3
    | _ => .vector4
  | value _ => .float

namespace Scaling

/-- Applies the overload of an intrinsic that takes the arguments. -/
def call (name : String) (args : List (ScaleArgument δ)) : Except BindingError (Scaling δ) :=
  let types := args.map ScaleArgument.type
  let stands : Arguments :=
    { positional := types.zipIdx.map fun (t, i) => .var t (ScaleArgument.name i) }
  match ({} : Resolver).resolve name stands with
  | .ok (.intrinsic f, _) => .ok (apply (.intrinsic f) f.returns types args)
  | .ok (.defined _, _) | .error _ => .error (.unresolvedScale (stands.signature name))

/-- Applies a binary operator. -/
def operator (op : String) (lhs rhs : ScaleArgument δ) : Except BindingError (Scaling δ) :=
  call (Intrinsic.operatorName op) [lhs, rhs]

def add : ScaleArgument δ → ScaleArgument δ → Except BindingError (Scaling δ) := operator "+"

def sub : ScaleArgument δ → ScaleArgument δ → Except BindingError (Scaling δ) := operator "-"

def mul : ScaleArgument δ → ScaleArgument δ → Except BindingError (Scaling δ) := operator "*"

def div : ScaleArgument δ → ScaleArgument δ → Except BindingError (Scaling δ) := operator "/"

/-- Makes a vector of two numbers. -/
def vector2 (x y : ScaleArgument δ) : Except BindingError (Scaling δ) := call "Vector2" [x, y]

/-- Applies an expression. Its type is the one it has when all parameters are numbers. -/
def custom (body : Surface.Expr) (parameters : Dictionary (Source δ)) (arg : ScaleArgument δ) :
    Except CompileError (Scaling δ) := do
  let zero : Expr := .const .float (.scalar 0)
  let stands : Dictionary Expr := parameters.map fun (n, _) => (n, zero)
  let e ← Standalone.expr (stands.insert "value" zero) body
  return apply (.custom body parameters) e.type [.float] [arg]

/-- A scaling in one line. -/
def describe (s : Scaling δ) : String :=
  "ScaleBinding \x7b return_type: " ++ s.returns.title ++ ", arg_types: ["
    ++ ", ".intercalate (s.argTypes.map ValueType.title) ++ "], .. \x7d"

/-- Variables that are called like the parameters they stand for. -/
def standIns (s : Scaling δ) : Dictionary Expr :=
  Dictionary.ofEntries (s.parameters.map fun p => (p.name, .var p.type p.name))

/-- A mark that emits the scaled value `e` as its only attribute, with the parameters for
inputs. -/
def sample (s : Scaling δ) (e : Expr) : Specification :=
  { inputs := Dictionary.ofEntries (s.parameters.map fun p => (p.name, ⟨p.type, p.source.literal?⟩))
    outputs := [("v", e.type)]
    locals := []
    statements := [.emit [("v", e)]] }

end Scaling

end DataMarks
