/-
  Specifications: the flat, typed form of a mark or shader that is evaluated,
  flattened and handed to a drawing platform.
-/
import DataMarks.Dictionary
import DataMarks.Intrinsic

namespace DataMarks

/-- Expressions. Every node carries its type; a call names an intrinsic by its internal name. -/
inductive Expr
  | const (type : ValueType) (value : Value)
  | var (type : ValueType) (name : String)
  | field (type : ValueType) (base : Expr) (field : String)
  | call (type : ValueType) (function : String) (args : List Expr)
deriving Repr, Inhabited

namespace Expr

def type : Expr → ValueType
  | const t _ | var t _ | field t .. | call t .. => t

/-- A call of the intrinsic whose parameters have the types of the arguments. -/
def intrinsic (name : String) (args : List Expr) (returns : ValueType) : Expr :=
  call returns (Intrinsic.signature name (args.map type) returns) args

/-- A binary operator whose result has the type of its left operand. -/
def binary (op : String) (lhs rhs : Expr) : Expr :=
  intrinsic (Intrinsic.operatorName op) [lhs, rhs] lhs.type

/-- A binary operator whose result is a truth value. -/
def test (op : String) (lhs rhs : Expr) : Expr :=
  intrinsic (Intrinsic.operatorName op) [lhs, rhs] .bool

def int (n : Int) : Expr := const .int (.scalar (Float.ofInt n))

mutual

/-- The variables of an expression with the types they are read at, from left to right, as often
as they occur. -/
def reads : Expr → List (String × ValueType)
  | const .. => []
  | var t n => [(n, t)]
  | field _ base _ => base.reads
  | call _ _ args => readsAll args

def readsAll : List Expr → List (String × ValueType)
  | [] => []
  | e :: es => e.reads ++ readsAll es

end

end Expr

inductive Stmt
  | assign (var : String) (value : Expr)
  /-- Produces a vertex. -/
  | emit (attributes : Dictionary Expr)
  | condition (test : Expr) (thenBody elseBody : List Stmt)
  /-- Runs the body with `var` from `first` to `last`, both included. -/
  | loop (var : String) (first last : Int) (body : List Stmt)
  /-- Ends the run and drops all its vertices. -/
  | discard
deriving Repr, Inhabited

/-- How many whole numbers there are from `first` to `last`. -/
def loopRounds (first last : Int) : Nat := (last - first + 1).toNat

namespace Stmt

mutual

/-- The variables that a statement reads or assigns, with their types. -/
def mentions : Stmt → List (String × ValueType)
  | assign x e => (x, e.type) :: e.reads
  | emit attributes => attributes.flatMap fun a => a.2.reads
  | condition test thenBody elseBody =>
    test.reads ++ mentionsAll thenBody ++ mentionsAll elseBody
  | loop x _ _ body => (x, .int) :: mentionsAll body
  | discard => []

def mentionsAll : List Stmt → List (String × ValueType)
  | [] => []
  | s :: ss => s.mentions ++ mentionsAll ss

end

mutual

/-- The emits of a statement in program order, those in conditions and loops included. -/
def emits : Stmt → List (Dictionary Expr)
  | assign .. | discard => []
  | emit attributes => [attributes]
  | condition _ thenBody elseBody => emitsAll thenBody ++ emitsAll elseBody
  | loop _ _ _ body => emitsAll body

def emitsAll : List Stmt → List (Dictionary Expr)
  | [] => []
  | s :: ss => s.emits ++ emitsAll ss

end

end Stmt

/-- The attributes of an emitted vertex. -/
abbrev Vertex := Dictionary Value

structure Input where
  type : ValueType
  default : Option Value
deriving DecidableEq, Repr

/-- A compiled mark or shader. -/
structure Specification where
  isShader : Bool := false
  inputs : Dictionary Input
  outputs : Dictionary ValueType
  locals : Dictionary ValueType
  statements : List Stmt
  /-- How often the first and the last datum are repeated, so that inputs taken from neighbours
  are there at the ends of the data. -/
  repeats : Option (Int × Int) := none
deriving Repr, Inhabited

namespace Specification

/-- The word that a specification is declared with. -/
def keyword (s : Specification) : String := if s.isShader then "shader" else "mark"

/-- The names of inputs and variables. -/
def declared (s : Specification) : List String := s.inputs.keys ++ s.locals.keys

def isDeclared (s : Specification) (name : String) : Bool :=
  s.inputs.contains name || s.locals.contains name

def declaredType? (s : Specification) (name : String) : Option ValueType :=
  (s.inputs.get? name).map Input.type <|> s.locals.get? name

/-- The names in the statements that are not declared with the type they are used at. -/
def undeclared (s : Specification) : List String :=
  let wrong := (Stmt.mentionsAll s.statements).filter fun x => s.declaredType? x.1 != some x.2
  (wrong.map Prod.fst).eraseDups

end Specification

end DataMarks
