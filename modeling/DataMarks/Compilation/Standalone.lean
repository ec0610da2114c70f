/-
  Expressions outside of any mark. Names stand for given expressions, then for
  named constants, and only intrinsics can be called.
-/
import DataMarks.Compilation.Basic

namespace DataMarks.Standalone

/-- A call of an intrinsic with compiled arguments. -/
def call (span : Span) (function : String) (args : Arguments) : Except CompileError Expr :=
  let resolver : Resolver := {}
  match resolver.resolve function args with
  | .error e => .error (e.toCompileError resolver span function args)
  | .ok (.intrinsic f, fit) => .ok (.call f.returns f.internalName fit.args)
  | .ok (.defined _, _) => .error (.undefinedFunction span function none)

/-- What a name stands for. -/
def reference (given : Dictionary Expr) (span : Span) (x : String) : Except CompileError Expr :=
  match given.get? x, Catalog.constant? x with
  | some e, _ => .ok e
  | none, some c => .ok (.const c.type c.value)
  | none, none => .error (.undefinedVariable span x (Name.suggest x given.keys))

mutual

/-- The expression of a specification for names that stand for given expressions. -/
def expr (given : Dictionary Expr) : Surface.Expr → Except CompileError Expr
  | .literal _ t v => .ok (.const t v)
  | .name span x => reference given span x
  | .field span base f => do
    (← expr given base).access span f
  | .call span f args keywords => do
    let positional ← exprs given args
    let keywords ← keywordExprs given keywords
    call span f { positional, keywords }
  | .unary span op arg => do
    let arg ← expr given arg
    call span (Intrinsic.operatorName op.text) { positional := [arg] }
  | .binary span op lhs rhs => do
    let lhs ← expr given lhs
    let rhs ← expr given rhs
    call span (Intrinsic.operatorName op.text) { positional := [lhs, rhs] }

def exprs (given : Dictionary Expr) : List Surface.Expr → Except CompileError (List Expr)
  | [] => .ok []
  | e :: es => do
    let e ← expr given e
    return e :: (← exprs given es)

def keywordExprs (given : Dictionary Expr) :
    List (String × Surface.Expr) → Except CompileError (List (String × Expr))
  | [] => .ok []
  | (k, e) :: es => do
    let e ← expr given e
    return (k, e) :: (← keywordExprs given es)

end

end DataMarks.Standalone
