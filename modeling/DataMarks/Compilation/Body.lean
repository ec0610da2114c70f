/-
  Expressions, statements and calls. A call of a function with a body writes that
  body at the place of the call, up to its first `return` at top level; each
  parameter becomes a fresh temporary that holds the argument.
-/
import DataMarks.Compilation.Basic

namespace DataMarks.Compile

/-- How a call of a function with a body is expanded; gives the value it returns, if any. -/
abbrev Expander := Span → Definition → List Expr → Compile (Option Expr)

/-- A call with compiled arguments. -/
def call (expand : Expander) (span : Span) (name : String) (args : Arguments) :
    Compile (Option Expr) := do
  let resolver := (← state).resolver
  match resolver.resolve name args with
  | .error e => fail (e.toCompileError resolver span name args)
  | .ok (.intrinsic f, fit) => return some (.call f.returns f.internalName fit.args)
  | .ok (.defined d, fit) => expand span d fit.args

/-- A call that has to give a value. -/
def callValue (expand : Expander) (span : Span) (name : String) (args : Arguments) :
    Compile Expr := do
  match ← call expand span name args with
  | some e => return e
  | none => fail (.missingReturnValue span name)

mutual

def expr (expand : Expander) : Surface.Expr → Compile Expr
  | .literal _ t v => return .const t v
  | .name span x =>
    match Catalog.constant? x with
    | some c => return .const c.type c.value
    | none => do
      let v ← variable_ span x
      return .var v.type v.unique
  | .field span base f => do
    lift ((← expr expand base).access span f)
  | .call span name args keywords => do
    let positional ← exprs expand args
    let keywords ← keywordExprs expand keywords
    callValue expand span name { positional, keywords }
  | .unary span op arg => do
    let arg ← expr expand arg
    callValue expand span (Intrinsic.operatorName op.text) { positional := [arg] }
  | .binary span op lhs rhs => do
    let lhs ← expr expand lhs
    let rhs ← expr expand rhs
    callValue expand span (Intrinsic.operatorName op.text) { positional := [lhs, rhs] }

def exprs (expand : Expander) : List Surface.Expr → Compile (List Expr)
  | [] => return []
  | e :: es => do
    let e ← expr expand e
    return e :: (← exprs expand es)

def keywordExprs (expand : Expander) :
    List (String × Surface.Expr) → Compile (List (String × Expr))
  | [] => return []
  | (k, e) :: es => do
    let e ← expr expand e
    return (k, e) :: (← keywordExprs expand es)

end

/-- The attributes of a vertex; the last one of a name counts. -/
def attributes (expand : Expander) : List Surface.Attribute → Dictionary Expr →
    Compile (Dictionary Expr)
  | [], done => return done
  | a :: rest, done => do
    let e ← expr expand a.value
    recordOutput a.span a.name e.type
    attributes expand rest (done.insert a.name e)

def vertices (expand : Expander) : List (List Surface.Attribute) → Compile Unit
  | [] => return ()
  | v :: rest => do
    write (.emit (← attributes expand v []))
    vertices expand rest

/-- A declaration with `let`. -/
def declaration (expand : Expander) (span : Span) (x : String) (type : Option Surface.TypeName)
    (init : Option Surface.Expr) : Compile Unit := do
  match ← valueType? type, init with
  | t, some init =>
    let e ← expr expand init
    let t := t.getD e.type
    let unique ← declare span x t
    write (.assign unique (← coerce init.span e t))
  | some t, none =>
    let _ ← declare span x t
  | none, none => fail (.untypedDeclaration span x)

def assignment (expand : Expander) (span : Span) (x : String) (value : Surface.Expr) :
    Compile Unit := do
  let e ← expr expand value
  let v ← variable_ span x
  write (.assign v.unique (← coerce span e v.type))

/-- A condition whose branches are given as steps. -/
def condition (expand : Expander) (test : Surface.Expr) (thenStep elseStep : Compile Unit) :
    Compile Unit := do
  let e ← expr expand test
  let e ← coerce test.span e .bool
  let thenBody ← capture thenStep
  let elseBody ← capture elseStep
  write (.condition e thenBody elseBody)

mutual

def stmt (expand : Expander) : Surface.Stmt → Compile Unit
  | .expr (.call span name args keywords) => do
    let positional ← exprs expand args
    let keywords ← keywordExprs expand keywords
    let _ ← call expand span name { positional, keywords }
  | .expr e => do
    let _ ← expr expand e
  | .declare span x type init => declaration expand span x type init
  | .assign span x value => assignment expand span x value
  | .return_ span _ => fail (.misplacedReturn span)
  | .discard _ => write .discard
  | .emit _ vs => vertices expand vs
  | .loop span x first last body => do
    let loop ← inBlock do
      let x ← declare span x .int
      let body ← capture (stmt expand body)
      return .loop x first last body
    write loop
  | .branch _ test body rest =>
    condition expand test (inBlock (stmt expand body)) (alternatives expand rest)
  | .block _ body => inBlock (stmts expand body)

def alternatives (expand : Expander) : Surface.Alternatives → Compile Unit
  | .none => return ()
  | .otherwise body => inBlock (stmt expand body)
  | .elseIf test body rest =>
    condition expand test (inBlock (stmt expand body)) (alternatives expand rest)

def stmts (expand : Expander) : List Surface.Stmt → Compile Unit
  | [] => return ()
  | s :: ss => do
    stmt expand s
    stmts expand ss

end

/-- The statements of a function up to its first `return`, and the value returned there. -/
def body (expand : Expander) : List Surface.Stmt → Compile (Option Expr)
  | [] => return none
  | .return_ _ e :: _ => do return some (← expr expand e)
  | s :: ss => do
    stmt expand s
    body expand ss

/-- Assigns arguments to fresh temporaries, and gives the names of these by parameter. -/
def temporaries : List (Surface.Param × Expr) → Dictionary String → Compile (Dictionary String)
  | [], done => return done
  | (p, arg) :: rest, done => do
    let v ← temporary arg.type
    write (.assign v.unique arg)
    temporaries rest (done.insert p.name v.name)

/-- Expands a call with another way to expand the calls in its body. -/
def expandWith (inner : Expander) : Expander := fun span d args => do
  let f := d.function
  let returns ← valueType? f.returns
  let formals ← temporaries (f.params.zip args) []
  let value ← inBody d formals (body inner f.body)
  match value, returns with
  | some e, some t => return some (← coerce span e t)
  | _, _ => return value

/-- Expands calls so many levels deep. A function is not expanded inside itself. -/
def expander : Nat → Expander
  | 0 => fun span d _ => fail (.recursiveCall span d.function.name)
  | depth + 1 => fun span d args => do
    if d.key ∈ (← state).callStack then
      fail (.recursiveCall span d.function.name)
    else
      expandWith (expander depth) span d args

/-- More levels than there are functions to expand inside each other. -/
def depth (s : Compiler) : Nat := s.resolver.functions.length + Library.size + 1

/-- An expression where the compilation stands. -/
def expression (e : Surface.Expr) : Compile Expr := do
  expr (expander (depth (← state))) e

end DataMarks.Compile
