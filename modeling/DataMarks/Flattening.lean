/-
  Flattening: from a specification that emits many vertices to one that emits the
  single vertex with a given index.

  The flattened body runs for every index while a cursor counts the emits passed
  so far, and only the emit at the index fires. A loop is not unrolled: the one
  iteration that holds the index is computed by division, and the body runs for
  it alone. Counts are bounds: a condition counts as its larger branch.
-/
import DataMarks.Name.Fresh
import DataMarks.Specification

namespace DataMarks

inductive FlattenError
  | tooManyEmits
deriving DecidableEq, Repr

namespace Flattening

/-- The most emits a flattened specification may have. -/
def maxEmits : Nat := 2147483647

end Flattening

def FlattenError.message : FlattenError → String
  | tooManyEmits => s!"specification emits more than {Flattening.maxEmits} vertices"

/-- A specification for one vertex at a time. -/
structure Flattened where
  specification : Specification
  /-- How many indices there are. -/
  count : Nat
  /-- The input that takes the index. -/
  index : String
deriving Repr

namespace Flattening

/-- Names that are taken, and those given to starts of loops. -/
structure Names where
  taken : List String
  loopStarts : List String := []
deriving Repr

abbrev Flattener := StateT Names (Except FlattenError)

def freshName (base : String) : Flattener String := do
  let names ← get
  let name := Name.fresh base names.taken
  set { names with taken := name :: names.taken }
  return name

/-- The variables that hold the index of the wanted vertex and the number of emits passed. -/
structure Counters where
  vertex : String
  cursor : String
deriving Repr

namespace Counters

def vertexExpr (c : Counters) : Expr := .var .int c.vertex

def cursorExpr (c : Counters) : Expr := .var .int c.cursor

/-- Emits if the cursor is at the wanted vertex, and moves the cursor on. -/
def guardEmit (c : Counters) (attributes : Dictionary Expr) : List Stmt :=
  [.condition (.test "==" c.vertexExpr c.cursorExpr) [.emit attributes] [],
   .assign c.cursor (.binary "+" c.cursorExpr (.int 1))]

/-- Runs a flattened loop body of `perRound` emits for the iteration that holds the wanted vertex,
if the loop of `total` emits holds it at all. `start` is where the loop found the cursor. -/
def window (c : Counters) (start x : String) (first : Int) (perRound total : Nat)
    (body : List Stmt) : List Stmt :=
  let startExpr : Expr := .var .int start
  let stop : Expr := .binary "+" startExpr (.int total)
  let inside : Expr :=
    .test "&&" (.test "<=" startExpr c.vertexExpr) (.test "<" c.vertexExpr stop)
  let round : Expr := .binary "/" (.binary "-" c.vertexExpr startExpr) (.int perRound)
  let roundStart : Expr :=
    .binary "+" startExpr
      (.binary "*" (.binary "-" (.var .int x) (.int first)) (.int perRound))
  [.assign start c.cursorExpr,
   .condition inside
    ([.assign x (.binary "+" (.int first) round), .assign c.cursor roundStart] ++ body
      ++ [.assign c.cursor stop])
    [.assign c.cursor stop]]

end Counters

/-- A count that is not too large. -/
def checkCount (n : Nat) : Flattener Nat :=
  if n ≤ maxEmits then return n else throw .tooManyEmits

/-- The greatest distance of two loop bounds. -/
def maxDistance : Int := 9223372036854775807

/-- How often a loop runs. Bounds that are too far apart count as an empty loop. -/
def tripCount (first last : Int) : Nat :=
  if last - first ≤ maxDistance then loopRounds first last else 0

mutual

/-- The flattened form of a statement, and how many vertices it emits at most. -/
def stmt (c : Counters) : Stmt → Flattener (List Stmt × Nat)
  | .emit attributes => return (c.guardEmit attributes, 1)
  | .condition test thenBody elseBody => do
    let (thenBody, thenCount) ← stmtsFrom c 0 thenBody
    let (elseBody, elseCount) ← stmtsFrom c 0 elseBody
    return ([.condition test thenBody elseBody], max thenCount elseCount)
  | .loop x first last body => do
    let trips := tripCount first last
    let (flat, perRound) ← stmtsFrom c 0 body
    if perRound = 0 ∨ trips = 0 then
      return ([.loop x first last body], 0)
    let total ← checkCount (perRound * trips)
    let start ← freshName "s3loop"
    modify fun names => { names with loopStarts := names.loopStarts ++ [start] }
    return (c.window start x first perRound total flat, total)
  | .assign x e => return ([.assign x e], 0)
  | .discard => return ([.discard], 0)

/-- The flattened form of statements behind others that emit `count` vertices at most, and how many
all of them emit. -/
def stmtsFrom (c : Counters) (count : Nat) : List Stmt → Flattener (List Stmt × Nat)
  | [] => return ([], count)
  | s :: ss => do
    let (first, n) ← stmt c s
    let count ← checkCount (count + n)
    let (rest, total) ← stmtsFrom c count ss
    return (first ++ rest, total)

end

end Flattening

namespace Specification

open Flattening in
def flattenWith (s : Specification) : Flattener Flattened := do
  let index ← freshName "s3idx"
  let vertex ← freshName "s3vidx"
  let cursor ← freshName "s3emitidx"
  let (body, count) ← Flattening.stmtsFrom { vertex, cursor } 0 s.statements
  let loopStarts := (← get).loopStarts
  let prologue : List Stmt :=
    [.assign vertex (.intrinsic "int" [.var .float index] .int), .assign cursor (.int 0)]
  let declare (d : Dictionary ValueType) (x : String) := d.insert x .int
  return {
    specification := { s with
      inputs := s.inputs.insert index { type := .float, default := some (.scalar 0) }
      locals := (vertex :: cursor :: loopStarts).foldl declare s.locals
      statements := prologue ++ body }
    count, index }

/-- The specification that emits one vertex of `s` for each value of its index input. -/
def flatten (s : Specification) : Except FlattenError Flattened :=
  (s.flattenWith.run { taken := s.declared }).map Prod.fst

end Specification

end DataMarks
