/-
  The state of a compilation, and the steps that read and change it. A step may
  fail, and then what it changed stays; the statements it writes are a result of
  their own, so that a body can be compiled apart from what surrounds it.
-/
import DataMarks.CompileError
import DataMarks.Name.Suggestion
import DataMarks.Overload
import DataMarks.Scope

namespace DataMarks

structure Compiler where
  resolver : Resolver := {}
  globals : List Surface.Global := []
  scope : Scope := {}
  /-- The outputs emitted so far, with the place where each was first emitted. -/
  outputs : Dictionary (ValueType × Span) := []
  /-- The functions being expanded, innermost first. -/
  callStack : List (Option String × String) := []
deriving Repr, Inhabited

/-- What a step of a compilation leaves. -/
structure Compiled (α : Type) where
  result : Except CompileError α
  state : Compiler
  code : List Stmt

/-- A step of a compilation. -/
def Compile (α : Type) := Compiler → Compiled α

/-- A field of an expression. -/
def Expr.access (base : Expr) (span : Span) (field : String) : Except CompileError Expr :=
  match Catalog.fieldType? base.type field with
  | some t => .ok (.field t base field)
  | none =>
    .error (.undefinedField span base.type field
      (Name.suggest field (Catalog.fieldNames base.type)))

namespace Compile

variable {α : Type}

instance : Monad Compile where
  pure x := fun s => ⟨.ok x, s, []⟩
  bind x f := fun s =>
    match x s with
    | ⟨.ok a, s', code⟩ =>
      let r := f a s'
      { r with code := code ++ r.code }
    | ⟨.error e, s', code⟩ => ⟨.error e, s', code⟩

def fail (e : CompileError) : Compile α := fun s => ⟨.error e, s, []⟩

/-- A step that changes nothing. -/
def lift (x : Except CompileError α) : Compile α := fun s => ⟨x, s, []⟩

def state : Compile Compiler := fun s => ⟨.ok s, s, []⟩

def update (f : Compiler → Compiler) : Compile Unit := fun s => ⟨.ok (), f s, []⟩

/-- Writes a statement. -/
def write (stmt : Stmt) : Compile Unit := fun s => ⟨.ok (), s, [stmt]⟩

/-- The statements that a step would write. -/
def capture (x : Compile Unit) : Compile (List Stmt) := fun s =>
  let r := x s
  { result := r.result.map fun _ => r.code, state := r.state, code := [] }

/-- Does `leave` to the state after a step, whether it fails or not. -/
def finally_ (x : Compile α) (leave : Compiler → Compiler) : Compile α := fun s =>
  let r := x s
  { r with state := leave r.state }

/-- A step inside a frame of its own. -/
def inFrame (formals : Dictionary String) (x : Compile α) : Compile α := do
  update fun s => { s with scope := s.scope.push formals }
  finally_ x fun s => { s with scope := s.scope.pop }

/-- A step inside a block of the source. -/
def inBlock (x : Compile α) : Compile α := inFrame [] x

/-- A step inside the body of a function that is being expanded. -/
def inBody (d : Definition) (formals : Dictionary String) (x : Compile α) : Compile α := do
  update fun s =>
    { s with resolver := s.resolver.enter d.module, callStack := d.key :: s.callStack }
  finally_ (inFrame formals x) fun s =>
    { s with resolver := s.resolver.exit, callStack := s.callStack.tail }

/-! ## Names and types -/

/-- The type that a type's name means. -/
def valueType (t : Surface.TypeName) : Compile ValueType :=
  match ValueType.ofName? t.name with
  | some u => return u
  | none =>
    fail (.undefinedType t.span t.name (Name.suggest t.name (ValueType.all.map ValueType.name)))

/-- The type that a type's name means, if there is one. -/
def valueType? (t : Option Surface.TypeName) : Compile (Option ValueType) :=
  match t with
  | some t => return some (← valueType t)
  | none => return none

/-- The value that an input takes by itself. -/
def defaultValue (span : Span) (t : ValueType) (v : Option Value) : Compile (Option Value) :=
  match v with
  | none => return t.defaultValue?
  | some v => if t.accepts v then return some v else fail (.mismatchedDefault span v t)

/-- Declares a local variable and gives its name in the specification. -/
def declare (span : Span) (x : String) (t : ValueType) : Compile String := do
  match (← state).scope.declare x t with
  | .ok (v, scope) =>
    update fun s => { s with scope }
    return v.unique
  | .error _ => fail (.duplicateDeclaration span x)

/-- Declares a variable in the outermost frame. -/
def declareGlobal (span : Span) (x : String) (t : ValueType) : Compile Unit := do
  match (← state).scope.declareGlobal x t with
  | .ok (_, scope) => update fun s => { s with scope }
  | .error _ => fail (.duplicateDeclaration span x)

def temporary (t : ValueType) : Compile Variable := do
  let (v, scope) := (← state).scope.temporary t
  update fun s => { s with scope }
  return v

/-- The variable that a name means. -/
def variable_ (span : Span) (x : String) : Compile Variable := do
  let scope := (← state).scope
  match scope.get? x with
  | some v => return v
  | none =>
    fail (.undefinedVariable span x (Name.suggest x (scope.visible ++ Catalog.constantNames)))

/-- Converts an expression to a type. -/
def coerce (span : Span) (e : Expr) (t : ValueType) : Compile Expr :=
  match e.coerce? t with
  | some (e, _) => return e
  | none => fail (.mismatchedTypes span e.type t)

/-- Notes that an output is emitted with a type. -/
def recordOutput (span : Span) (name : String) (t : ValueType) : Compile Unit := do
  match (← state).outputs.get? name with
  | none => update fun s => { s with outputs := s.outputs.insert name (t, span) }
  | some (first, firstSpan) =>
    if first = t then return ()
    else fail (.conflictingOutput span firstSpan name first t)

end Compile

/-- What is wrong with a call that means no function. -/
def ResolveError.toCompileError (e : ResolveError) (r : Resolver) (span : Span) (name : String)
    (args : Arguments) : CompileError :=
  match e with
  | undefined => .undefinedFunction span name (Name.suggest name r.functionNames)
  | unresolved => .unresolvedCall span (args.signature name)

end DataMarks
