/-
  Scopes: which variable a name of the source means, and under which unique name
  it goes in the specification.

  A scope is a stack of frames. The frame of an expanded function sends each
  parameter to the name that holds its argument in the frames around it.
-/
import DataMarks.Dictionary
import DataMarks.Name.Fresh
import DataMarks.ValueType

namespace DataMarks

/-- A variable of the source and its unique name in the specification. -/
structure Variable where
  name : String
  type : ValueType
  unique : String
deriving DecidableEq, Repr

inductive ScopeError
  | duplicate (name : String)
  | undefined (name : String)
deriving DecidableEq, Repr

def ScopeError.message : ScopeError → String
  | duplicate x => s!"variable `{x}` is already declared"
  | undefined x => s!"variable `{x}` is undefined"

structure Frame where
  vars : Dictionary Variable := []
  /-- The parameters of an expanded function, each with a name of the frames around. -/
  formals : Dictionary String := []
deriving Repr, Inhabited

namespace Frame

/-- The names that a frame gives a meaning. -/
def names (f : Frame) : List String := f.vars.keys ++ f.formals.keys

def binds (f : Frame) (x : String) : Bool := f.vars.contains x || f.formals.contains x

end Frame

structure Scope where
  /-- The frames above the outermost one, innermost first. -/
  inner : List Frame := []
  outermost : Frame := {}
  /-- Every name given out so far with its type, in order. -/
  issued : Dictionary ValueType := []
deriving Repr, Inhabited

namespace Scope

/-- Enters a frame. -/
def push (s : Scope) (formals : Dictionary String) : Scope :=
  { s with inner := { formals } :: s.inner }

/-- Leaves the innermost frame; the outermost one stays. -/
def pop (s : Scope) : Scope := { s with inner := s.inner.tail }

/-- The frames from the outermost to the innermost one. -/
def frames (s : Scope) : List Frame := s.outermost :: s.inner.reverse

/-- The frame that local variables go to. -/
def current (s : Scope) : Frame := s.inner.headD s.outermost

/-- Changes the innermost frame. -/
def modifyCurrent (s : Scope) (f : Frame → Frame) : Scope :=
  match s.inner with
  | [] => { s with outermost := f s.outermost }
  | frame :: rest => { s with inner := f frame :: rest }

/-- The frame that a variable is declared in. -/
inductive Placement
  | innermost
  | outermost
deriving DecidableEq, Repr

def frame (s : Scope) : Placement → Frame
  | .innermost => s.current
  | .outermost => s.outermost

def modify (s : Scope) (f : Frame → Frame) : Placement → Scope
  | .innermost => s.modifyCurrent f
  | .outermost => { s with outermost := f s.outermost }

/-- Declares a variable, under the first free name after its own. The scope is the one that is left,
also where this fails. -/
def add (s : Scope) (place : Placement) (x : String) (t : ValueType) :
    Except ScopeError Variable × Scope :=
  if (s.frame place).binds x then (.error (.duplicate x), s)
  else
    let v : Variable := { name := x, type := t, unique := Name.fresh x s.issued.keys }
    let s := s.modify (fun f => { f with vars := f.vars.insert x v }) place
    (.ok v, { s with issued := s.issued.insert v.unique t })

/-- The variable of a declaration that does not fail, and the scope behind it. -/
def declared (r : Except ScopeError Variable × Scope) : Except ScopeError (Variable × Scope) :=
  r.1.map fun v => (v, r.2)

/-- Declares a variable in the current frame. -/
def declare (s : Scope) (x : String) (t : ValueType) : Except ScopeError (Variable × Scope) :=
  declared (s.add .innermost x t)

/-- Declares a variable in the outermost frame. -/
def declareGlobal (s : Scope) (x : String) (t : ValueType) :
    Except ScopeError (Variable × Scope) :=
  declared (s.add .outermost x t)

/-- Declares a temporary in the current frame, under a name that is not given out and that no
frame binds. -/
def temporary (s : Scope) (t : ValueType) : Variable × Scope :=
  let x := Name.fresh "tmp" (s.issued.keys ++ s.frames.flatMap Frame.names)
  let v : Variable := { name := x, type := t, unique := x }
  let s := s.modifyCurrent fun f => { f with vars := f.vars.insert x v }
  (v, { s with issued := s.issued.insert x t })

/-- Looks a name up from the innermost frame out. A parameter is looked up by its argument's name
in the frames around. -/
def lookup (outermost : Frame) : List Frame → String → Option Variable
  | [], x => outermost.vars.get? x
  | f :: fs, x =>
    match f.vars.get? x with
    | some v => some v
    | none =>
      match f.formals.get? x with
      | some y => lookup outermost fs y
      | none => lookup outermost fs x

def get? (s : Scope) (x : String) : Option Variable := lookup s.outermost s.inner x

/-- The variable that a name means. -/
def find (s : Scope) (x : String) : Except ScopeError Variable :=
  match s.get? x with
  | some v => .ok v
  | none => .error (.undefined x)

/-- The names that some frame binds. -/
def visible (s : Scope) : List String := s.frames.flatMap Frame.names

end Scope

end DataMarks
