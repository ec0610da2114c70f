/-
  A direct semantics of the surface language: marks are run as they are written, with no
  specification in between.

  Blocks are lexical: each has a frame of its own. Functions are called by value: the
  arguments are evaluated from left to right, converted to the parameters of the function
  that resolution chooses, and put into fresh cells; the body sees these and the globals
  only, and runs up to its first `return` at top level. Both sides of `&&` and `||` are
  evaluated. A run leaves a trace of the vertices it emits and the functions it calls.
-/
import DataMarks.Evaluation
import DataMarks.Proofs.Loading

namespace DataMarks

/-! ## The names of a function -/

namespace Surface

mutual

/-- A statement and all those in it. -/
def Stmt.parts : Stmt → List Stmt
  | .loop span x first last body => .loop span x first last body :: body.parts
  | .branch span test body rest => .branch span test body rest :: (body.parts ++ rest.parts)
  | .block span body => .block span body :: Stmt.partsAll body
  | s => [s]

def Alternatives.parts : Alternatives → List Stmt
  | .none => []
  | .otherwise body => body.parts
  | .elseIf _ body rest => body.parts ++ rest.parts

def Stmt.partsAll : List Stmt → List Stmt
  | [] => []
  | s :: ss => s.parts ++ Stmt.partsAll ss

end

theorem Stmt.mem_parts (s : Stmt) : s ∈ s.parts := by
  cases s <;> simp [parts]

/-- The variable that a statement brings in. -/
def Stmt.binds : Stmt → List String
  | .declare _ x _ _ => [x]
  | .loop _ x _ _ _ => [x]
  | _ => []

/-- The variable that a statement assigns. -/
def Stmt.sets : Stmt → List String
  | .assign _ x _ => [x]
  | _ => []

/-- The variables of a function besides its parameters. -/
def Function.locals (f : Function) : List String := (Stmt.partsAll f.body).flatMap Stmt.binds

def Function.assigned (f : Function) : List String := (Stmt.partsAll f.body).flatMap Stmt.sets

/-- None of the parameters, the variables and what is assigned has one of the given names. -/
def Function.Avoids (f : Function) (names : List String) : Prop :=
  ∀ x ∈ f.params.map Param.name ++ f.locals ++ f.assigned, x ∉ names

instance (f : Function) (names : List String) : Decidable (f.Avoids names) :=
  inferInstanceAs (Decidable (∀ x ∈ _, x ∉ names))

end Surface

namespace Direct

/-! ## Stores -/

/-- Named things in nested frames, innermost first, and around them the globals. -/
structure Store (α : Type) where
  globals : Dictionary α
  frames : List (Dictionary α)
deriving Repr

namespace Store

variable {α : Type}

def findIn (globals : Dictionary α) : List (Dictionary α) → String → Option α
  | [], x => globals.get? x
  | f :: fs, x =>
    match f.get? x with
    | some a => some a
    | none => findIn globals fs x

/-- What a name means, from the innermost frame out. -/
def find? (s : Store α) (x : String) : Option α := findIn s.globals s.frames x

def push (s : Store α) : Store α := { s with frames := [] :: s.frames }

def pop (s : Store α) : Store α := { s with frames := s.frames.tail }

/-- Puts a name into the innermost frame. -/
def declare (s : Store α) (x : String) (a : α) : Store α :=
  match s.frames with
  | [] => s
  | f :: fs => { s with frames := f.insert x a :: fs }

/-- Changes what a name means, where it is found. -/
def setIn (globals : Dictionary α) (x : String) (a : α) : List (Dictionary α) → Store α
  | [] => ⟨globals.insert x a, []⟩
  | f :: fs =>
    if f.contains x then ⟨globals, f.insert x a :: fs⟩
    else { setIn globals x a fs with frames := f :: (setIn globals x a fs).frames }

def set (s : Store α) (x : String) (a : α) : Store α := setIn s.globals x a s.frames

end Store

/-- A variable: its type and, once it is assigned, its value. -/
structure Cell where
  type : ValueType
  value : Option Value
deriving DecidableEq, Repr

/-- A value and its type. -/
structure Typed where
  type : ValueType
  value : Value
deriving DecidableEq, Repr

/-- A value as a constant of a specification. -/
def Typed.const (v : Typed) : DataMarks.Expr := .const v.type v.value

/-! ## Runs -/

inductive Event
  | vertex (v : Vertex)
  | call (d : Definition)

def vertices (trace : List Event) : List Vertex :=
  trace.filterMap fun
    | .vertex v => some v
    | .call _ => none

def calls (trace : List Event) : List Definition :=
  trace.filterMap fun
    | .vertex _ => none
    | .call d => some d

/-- How a run ends. -/
inductive Result (α : Type)
  | done (a : α) (store : Store Cell) (trace : List Event)
  | discarded (trace : List Event)
  | stuck

/-- Puts events in front of those of a result. -/
def Result.after {α : Type} (trace : List Event) : Result α → Result α
  | done a store rest => done a store (trace ++ rest)
  | discarded rest => discarded (trace ++ rest)
  | stuck => stuck

def Run (α : Type) := Store Cell → Result α

namespace Run

variable {α : Type}

instance : Monad Run where
  pure a := fun s => .done a s []
  bind x f := fun s =>
    match x s with
    | .done a s' trace => (f a s').after trace
    | .discarded trace => .discarded trace
    | .stuck => .stuck

section Bind

variable {β : Type} {x : Run α} {f : α → Run β} {s s' : Store Cell} {trace : List Event}

theorem bind_apply : (x >>= f) s =
    match x s with
    | .done a s' trace => (f a s').after trace
    | .discarded trace => .discarded trace
    | .stuck => .stuck := rfl

theorem bind_of_done {a : α} (h : x s = .done a s' trace) :
    (x >>= f) s = (f a s').after trace := by
  rw [bind_apply, h]

theorem bind_of_discarded (h : x s = .discarded trace) : (x >>= f) s = .discarded trace := by
  rw [bind_apply, h]

theorem bind_of_stuck (h : x s = .stuck) : (x >>= f) s = .stuck := by
  rw [bind_apply, h]

end Bind

def stuck : Run α := fun _ => .stuck

def discard : Run α := fun _ => .discarded []

def store : Run (Store Cell) := fun s => .done s s []

def update (f : Store Cell → Store Cell) : Run Unit := fun s => .done () (f s) []

def note (e : Event) : Run Unit := fun s => .done () s [e]

def ofOption : Option α → Run α
  | some a => pure a
  | none => stuck

/-- A run inside a frame of its own. -/
def inFrame (x : Run α) : Run α := do
  update Store.push
  let a ← x
  update Store.pop
  return a

end Run

open Run

/-! ## Expressions -/

/-- The value of an expression without variables. -/
def evaluate (e : DataMarks.Expr) : Run Typed :=
  match e.eval [] with
  | .ok v => return ⟨e.type, v⟩
  | .error _ => stuck

/-- A value as one of another type. -/
def convert (v : Typed) (t : ValueType) : Run Typed :=
  match v.const.coerce? t with
  | some (e, _) => evaluate e
  | none => stuck

def evaluateAll : List DataMarks.Expr → Run (List Typed)
  | [] => return []
  | e :: es => do
    let v ← evaluate e
    return v :: (← evaluateAll es)

/-- How a call of a function with a body is run; gives the value it returns, if any. -/
abbrev Invoker := Resolver → Definition → List Typed → Run (Option Typed)

/-- A call with evaluated arguments. -/
def call (invoke : Invoker) (r : Resolver) (name : String) (positional : List Typed)
    (keywords : List (String × Typed)) : Run (Option Typed) :=
  match r.resolve name ⟨positional.map Typed.const, keywords.map fun k => (k.1, k.2.const)⟩ with
  | .error _ => stuck
  | .ok (.intrinsic f, fit) => do
    return some (← evaluate (.call f.returns f.internalName fit.args))
  | .ok (.defined d, fit) => do
    invoke r d (← evaluateAll fit.args)

/-- A call that has to give a value. -/
def callValue (invoke : Invoker) (r : Resolver) (name : String) (positional : List Typed)
    (keywords : List (String × Typed)) : Run Typed := do
  ofOption (← call invoke r name positional keywords)

/-- The value of a variable. -/
def read (x : String) : Run Typed := do
  let c ← ofOption ((← store).find? x)
  return ⟨c.type, ← ofOption c.value⟩

/-- A field of a value. -/
def field (v : Typed) (f : String) : Run Typed := do
  return ⟨← ofOption (Catalog.fieldType? v.type f), .scalar (← ofOption (v.value.field? f))⟩

section Bodies

variable (invoke : Invoker) (r : Resolver)

mutual

def expr : Surface.Expr → Run Typed
  | .literal _ t v => return ⟨t, v⟩
  | .name _ x =>
    match Catalog.constant? x with
    | some c => return ⟨c.type, c.value⟩
    | none => read x
  | .field _ base f => do
    field (← expr base) f
  | .call _ name args keywords => do
    let positional ← exprs args
    let keywords ← keywordExprs keywords
    callValue invoke r name positional keywords
  | .unary _ op arg => do
    let arg ← expr arg
    callValue invoke r (Intrinsic.operatorName op.text) [arg] []
  | .binary _ op lhs rhs => do
    let lhs ← expr lhs
    let rhs ← expr rhs
    callValue invoke r (Intrinsic.operatorName op.text) [lhs, rhs] []

def exprs : List Surface.Expr → Run (List Typed)
  | [] => return []
  | e :: es => do
    let v ← expr e
    return v :: (← exprs es)

def keywordExprs : List (String × Surface.Expr) → Run (List (String × Typed))
  | [] => return []
  | (k, e) :: es => do
    let v ← expr e
    return (k, v) :: (← keywordExprs es)

end

/-! ## Statements -/

/-- The attributes of a vertex; the last one of a name counts. -/
def attributes : List Surface.Attribute → Vertex → Run Vertex
  | [], done => return done
  | a :: rest, done => do
    let v ← expr invoke r a.value
    attributes rest (done.insert a.name v.value)

def emit : List (List Surface.Attribute) → Run Unit
  | [] => return ()
  | v :: rest => do
    note (.vertex (← attributes invoke r v []))
    emit rest

/-- The type that a type's name means, if one is given. -/
def typeOf (t : Option Surface.TypeName) : Run (Option ValueType) :=
  ofOption (t.mapM fun n => ValueType.ofName? n.name)

def declaration (x : String) (type : Option Surface.TypeName) (init : Option Surface.Expr) :
    Run Unit := do
  match ← typeOf type, init with
  | t, some init =>
    let v ← expr invoke r init
    let v ← convert v (t.getD v.type)
    update fun s => s.declare x ⟨v.type, some v.value⟩
  | some t, none => update fun s => s.declare x ⟨t, none⟩
  | none, none => stuck

def assignment (x : String) (value : Surface.Expr) : Run Unit := do
  let v ← expr invoke r value
  let c ← ofOption ((← store).find? x)
  let v ← convert v c.type
  update fun s => s.set x ⟨v.type, some v.value⟩

/-- Runs one of two branches. -/
def condition (test : Surface.Expr) (thenRun elseRun : Run Unit) : Run Unit := do
  let v ← expr invoke r test
  let v ← convert v .bool
  if v.value.truthy then thenRun else elseRun

/-- Runs `body` for `i`, `i + 1`, ..., so many times. -/
def rounds (body : Int → Run Unit) : Nat → Int → Run Unit
  | 0, _ => return ()
  | n + 1, i => do
    body i
    rounds body n (i + 1)

mutual

def stmt : Surface.Stmt → Run Unit
  | .expr (.call _ name args keywords) => do
    let positional ← exprs invoke r args
    let keywords ← keywordExprs invoke r keywords
    let _ ← call invoke r name positional keywords
  | .expr e => do
    let _ ← expr invoke r e
  | .declare _ x type init => declaration invoke r x type init
  | .assign _ x value => assignment invoke r x value
  | .return_ _ _ => stuck
  | .discard _ => discard
  | .emit _ vs => emit invoke r vs
  | .loop _ x first last body =>
    rounds (fun i => inFrame do
        update fun s => s.declare x ⟨.int, some (.scalar (Float.ofInt i))⟩
        stmt body)
      (loopRounds first last) first
  | .branch _ test body rest =>
    condition invoke r test (inFrame (stmt body)) (alternatives rest)
  | .block _ body => inFrame (stmts body)

def alternatives : Surface.Alternatives → Run Unit
  | .none => return ()
  | .otherwise body => inFrame (stmt body)
  | .elseIf test body rest =>
    condition invoke r test (inFrame (stmt body)) (alternatives rest)

def stmts : List Surface.Stmt → Run Unit
  | [] => return ()
  | s :: ss => do
    stmt s
    stmts ss

end

/-- The statements of a function up to its first `return`, and the value returned there. -/
def body : List Surface.Stmt → Run (Option Typed)
  | [] => return none
  | .return_ _ e :: _ => do return some (← expr invoke r e)
  | s :: ss => do
    stmt invoke r s
    body ss

end Bodies

/-! ## Functions and marks -/

/-- The cells of parameters. -/
def bindParams : List (Surface.Param × Typed) → Dictionary Cell → Dictionary Cell
  | [], done => done
  | (p, v) :: rest, done => bindParams rest (done.insert p.name ⟨v.type, some v.value⟩)

/-- A run that sees the globals and the given cells only. -/
def inCallee {α : Type} (cells : Dictionary Cell) (x : Run α) : Run α := do
  let caller ← store
  update fun s => { s with frames := [cells] }
  let a ← x
  update fun s => { s with frames := caller.frames }
  return a

/-- Calls of functions, nested so many levels deep at most. -/
def invoke : Nat → Invoker
  | 0, _, _, _ => stuck
  | depth + 1, r, d, args => do
    note (.call d)
    let returns ← typeOf d.function.returns
    let inner := r.enter d.module
    let value ← inCallee (bindParams (d.function.params.zip args) [])
      (body (invoke depth) inner d.function.body)
    match value, returns with
    | some v, some t => return some (← convert v t)
    | _, _ => return value

/-- The cell of an input: it has the value that is given, or else its default. -/
def inputCell (given : Dictionary Value) (name : String) (type : Surface.TypeName)
    (default : Option Value) : Option (String × Cell) := do
  let input ← inputOf? type default
  let v ← given.get? name <|> input.default
  return (name, ⟨input.type, some v⟩)

/-- The store in which a mark starts. -/
def inputStore (globals : List Surface.Global) (params : List Surface.Param)
    (given : Dictionary Value) : Option (Store Cell) := do
  let globals ← globals.mapM fun g => inputCell given g.name g.type g.default
  let params ← params.mapM fun p => inputCell given p.name p.type p.default
  return ⟨globals, [params]⟩

/-- Runs a mark of a file on given inputs. -/
def run (depth : Nat) (file : Surface.File) (f : Surface.Function) (given : Dictionary Value) :
    Result Unit :=
  match inputStore file.globals f.params given with
  | some s => inFrame (stmts (invoke depth) { functions := file.definitions } f.body) s
  | none => .stuck

namespace Result

variable {α : Type}

/-- The vertices that a run leaves; a run that is discarded leaves none. -/
def vertices? : Result α → Option (List Vertex)
  | done _ _ trace => some (vertices trace)
  | discarded _ => some []
  | stuck => none

/-- The functions that a run called. -/
def called : Result α → List Definition
  | done _ _ trace => calls trace
  | discarded trace => calls trace
  | stuck => []

end Result

end Direct

end DataMarks
