/-
  Overload resolution: which function a call means, and the arguments that its
  parameters get.

  An overload binds if every parameter gets an argument that has its type or
  converts to it, and every argument is used. Of those that bind, the one with
  the least total rank of conversions wins, then the one with the fewest
  conversions, then the first.
-/
import DataMarks.Intrinsic.Catalog
import DataMarks.Library
import DataMarks.Specification

namespace DataMarks

/-- A function of a source text, and the library module that it comes from. -/
structure Definition where
  module : Option String
  function : Surface.Function
deriving Repr

/-- What tells a function from others while it is being expanded. -/
def Definition.key (d : Definition) : Option String × String := (d.module, d.function.name)

inductive Callee
  | intrinsic (f : Intrinsic)
  | defined (d : Definition)
deriving Repr

/-- A parameter as overload resolution sees it. -/
structure Formal where
  name : Option String
  /-- Nothing if the type's name is unknown. -/
  type : Option ValueType
  default : Option Value
deriving DecidableEq, Repr

/-- The parameters of a callee. Those of intrinsics have no names. -/
def Callee.formals : Callee → List Formal
  | intrinsic f => f.params.map fun t => { name := none, type := some t, default := none }
  | defined d => d.function.params.map fun p =>
    { name := some p.name, type := ValueType.ofName? p.type.name, default := p.default }

/-- Converts an expression to a type, and tells the rank of the conversion. -/
def Expr.coerce? (e : Expr) (target : ValueType) : Option (Expr × Nat) :=
  if e.type = target then some (e, 0)
  else
    (Catalog.conversion? e.type target).map fun c =>
      (.call target c.internalName [e], c.rank)

/-- The arguments of a call. -/
structure Arguments where
  positional : List Expr
  keywords : List (String × Expr) := []
deriving Repr

/-- A call as messages show it. -/
def Arguments.signature (name : String) (args : Arguments) : String :=
  let positional := args.positional.map fun e => e.type.name
  let keywords := args.keywords.map fun (k, e) => k ++ " = " ++ e.type.name
  name ++ "(" ++ ", ".intercalate (positional ++ keywords) ++ ")"

/-- Expressions for parameters, and what it took to get them. -/
structure Fit where
  args : List Expr := []
  rank : Nat := 0
  conversions : Nat := 0
  /-- How many parameters got their argument by keyword. -/
  byKeyword : Nat := 0
deriving Repr

namespace Overload

/-- The argument by keyword for a parameter. -/
def keyword? (keywords : List (String × Expr)) (f : Formal) : Option Expr :=
  f.name.bind fun n => keywords.lookup n

/-- Binds parameters to the positional arguments that are left; when there are none left, to
arguments by keyword, and else to defaults. -/
def bindFormals (keywords : List (String × Expr)) : List Formal → List Expr → Option Fit
  | [], _ => some {}
  | f :: fs, positional => do
    let t ← f.type
    let (arg, byKeyword) ←
      match positional.head?, keyword? keywords f with
      | some e, _ => some (e, 0)
      | none, some e => some (e, 1)
      | none, none => f.default.map fun v => (.const t v, 0)
    let (coerced, rank) ← arg.coerce? t
    let rest ← bindFormals keywords fs positional.tail
    return {
      args := coerced :: rest.args
      rank := rank + rest.rank
      conversions := (if arg.type = t then 0 else 1) + rest.conversions
      byKeyword := byKeyword + rest.byKeyword }

/-- Binds the parameters of a callee, if that uses all arguments. -/
def bind (callee : Callee) (args : Arguments) : Option Fit := do
  let formals := callee.formals
  let b ← bindFormals args.keywords formals args.positional
  if args.positional.length ≤ formals.length ∧ args.keywords.length ≤ b.byKeyword then
    return b
  else
    none

/-- Whether a fit is strictly preferred to another. -/
def Better (a b : Fit) : Prop :=
  a.rank < b.rank ∨ a.rank = b.rank ∧ a.conversions < b.conversions

instance (a b : Fit) : Decidable (Better a b) :=
  inferInstanceAs (Decidable (_ ∨ _ ∧ _))

/-- The first of the best callees that bind; `best` is the best one before them. -/
def choose (args : Arguments) : Option (Callee × Fit) → List Callee → Option (Callee × Fit)
  | best, [] => best
  | best, c :: cs =>
    match bind c args, best with
    | none, _ => choose args best cs
    | some b, none => choose args (some (c, b)) cs
    | some b, some (c', b') =>
      choose args (if Better b b' then some (c, b) else some (c', b')) cs

end Overload

inductive ResolveError
  /-- No function has the name. -/
  | undefined
  /-- No overload takes the arguments. -/
  | unresolved
deriving DecidableEq, Repr

/-- The functions that calls can mean. -/
structure Resolver where
  /-- The functions loaded so far, in order. -/
  functions : List Definition := []
  /-- The modules of the functions being expanded, innermost first. -/
  modules : List (Option String) := []
deriving Repr, Inhabited

namespace Resolver

def add (r : Resolver) (d : Definition) : Resolver := { r with functions := r.functions ++ [d] }

/-- Adds the functions of a module or, if there is none, of a source text. -/
def addAll (r : Resolver) (module : Option String) (functions : List Surface.Function) : Resolver :=
  functions.foldl (fun r f => r.add { module, function := f }) r

def enter (r : Resolver) (module : Option String) : Resolver :=
  { r with modules := module :: r.modules }

def exit (r : Resolver) : Resolver := { r with modules := r.modules.tail }

/-- The functions that a module declares under a name. -/
def members (name : String) (module : Option String) : List Callee :=
  match module with
  | none => []
  | some m => (Library.functions m name).map fun f => .defined { module := some m, function := f }

/-- The functions of the innermost module that declares the name. -/
def shadowing (name : String) : List (Option String) → List Callee
  | [] => []
  | m :: ms =>
    match members name m with
    | [] => shadowing name ms
    | cs => cs

/-- The overloads of a name. A module that is entered hides all others. -/
def candidates (r : Resolver) (name : String) : List Callee :=
  match shadowing name r.modules with
  | [] =>
    (Catalog.named name).map .intrinsic
      ++ (r.functions.filter (·.function.name == name)).map .defined
  | cs => cs

/-- The function that a call means, with expressions for its parameters. -/
def resolve (r : Resolver) (name : String) (args : Arguments) :
    Except ResolveError (Callee × Fit) :=
  match r.candidates name with
  | [] => .error .undefined
  | cs =>
    match Overload.choose args none cs with
    | none => .error .unresolved
    | some best => .ok best

/-- The names of all functions that a source text can call. -/
def functionNames (r : Resolver) : List String :=
  let callable (n : String) := !n.startsWith "@" && !n.startsWith "cast:"
  ((Catalog.intrinsics.map Intrinsic.name).filter callable
    ++ r.functions.map (·.function.name)).eraseDups

end Resolver

end DataMarks
