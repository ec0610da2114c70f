/-
  The surface of the mark language: files of functions, globals and imports, as
  they are written. Every node knows its place in the source.
-/
import DataMarks.Span
import DataMarks.Value

namespace DataMarks.Surface

/-- A type by its name, which may name no type. -/
structure TypeName where
  span : Span
  name : String
deriving DecidableEq, Repr

inductive UnaryOp
  | neg | pos | not
deriving DecidableEq, Repr

def UnaryOp.text : UnaryOp → String
  | neg => "-"
  | pos => "+"
  | not => "!"

inductive BinaryOp
  | or | and | eq | ne | lt | le | gt | ge | add | sub | mul | div | rem
deriving DecidableEq, Repr

def BinaryOp.text : BinaryOp → String
  | or => "||"
  | and => "&&"
  | eq => "=="
  | ne => "!="
  | lt => "<"
  | le => "<="
  | gt => ">"
  | ge => ">="
  | add => "+"
  | sub => "-"
  | mul => "*"
  | div => "/"
  | rem => "%"

inductive Expr
  | literal (span : Span) (type : ValueType) (value : Value)
  | name (span : Span) (name : String)
  | field (span : Span) (base : Expr) (field : String)
  /-- A call with positional arguments and, behind them, arguments by keyword. -/
  | call (span : Span) (name : String) (args : List Expr) (keywords : List (String × Expr))
  | unary (span : Span) (op : UnaryOp) (arg : Expr)
  | binary (span : Span) (op : BinaryOp) (lhs rhs : Expr)
deriving Repr, Inhabited

def Expr.span : Expr → Span
  | literal s .. | name s .. | field s .. | call s .. | unary s .. | binary s .. => s

/-- An attribute of an emitted vertex; the span is that of its name. -/
structure Attribute where
  span : Span
  name : String
  value : Expr
deriving Repr

mutual

inductive Stmt
  | expr (e : Expr)
  | declare (span : Span) (name : String) (type : Option TypeName) (init : Option Expr)
  | assign (span : Span) (name : String) (value : Expr)
  | return_ (span : Span) (value : Expr)
  | discard (span : Span)
  | emit (span : Span) (vertices : List (List Attribute))
  /-- Runs the body with `var` from `first` to `last`, both included. -/
  | loop (span : Span) (var : String) (first last : Int) (body : Stmt)
  | branch (span : Span) (test : Expr) (body : Stmt) (rest : Alternatives)
  | block (span : Span) (body : List Stmt)

/-- What follows the first branch of a condition. -/
inductive Alternatives
  | none
  | otherwise (body : Stmt)
  | elseIf (test : Expr) (body : Stmt) (rest : Alternatives)

end

deriving instance Repr for Stmt, Alternatives

instance : Inhabited Stmt := ⟨.discard default⟩

def Stmt.span : Stmt → Span
  | expr e => e.span
  | declare s .. | assign s .. | return_ s .. | discard s | emit s .. | loop s .. | branch s ..
  | block s .. => s

/-- The tests and bodies of the branches that are left. -/
def Alternatives.branches : Alternatives → List (Expr × Stmt)
  | none | otherwise _ => []
  | elseIf test body rest => (test, body) :: rest.branches

/-- The body that runs if no test holds. -/
def Alternatives.last? : Alternatives → Option Stmt
  | none => .none
  | otherwise body => some body
  | elseIf _ _ rest => rest.last?

structure Param where
  span : Span
  name : String
  type : TypeName
  default : Option Value
deriving Repr

inductive FunctionKind
  | mark
  | shader
  /-- Of no use by itself: only ever expanded in its callers. -/
  | function
deriving DecidableEq, Repr

def FunctionKind.keyword : FunctionKind → String
  | mark => "mark"
  | shader => "shader"
  | function => "function"

structure Function where
  span : Span
  kind : FunctionKind
  name : String
  params : List Param
  returns : Option TypeName
  body : List Stmt
deriving Repr

/-- Whether a function can be drawn by itself. -/
def Function.isRenderable (f : Function) : Bool := f.kind != .function

structure Global where
  span : Span
  name : String
  type : TypeName
  default : Option Value
deriving Repr

structure Import where
  span : Span
  module : String
  /-- The names to import with their places, or none for all of them. -/
  names : Option (List (Span × String))
deriving Repr

inductive Block
  | function (f : Function)
  | global (g : Global)
  | import_ (i : Import)
deriving Repr

structure File where
  blocks : List Block
deriving Repr

/-- The functions of a file, of every kind, in order. -/
def File.functions (f : File) : List Function :=
  f.blocks.filterMap fun
    | .function f => some f
    | _ => none

end DataMarks.Surface
