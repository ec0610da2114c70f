/-
  Suggestions for misspelled names, by edit distance.
-/

namespace DataMarks.Name

/-- A row of the distance table from the row above it. `left` is the entry to the left and
`diagonal` the one above that. -/
def nextRow (c : Char) (left diagonal : Nat) : List Char → List Nat → List Nat
  | t :: ts, above :: row =>
    let here := min (min left above + 1) (if c = t then diagonal else diagonal + 1)
    here :: nextRow c here above ts row
  | _, _ => []

/-- The rows of the table: entry `j` after reading `s` is the distance from `s` to the first `j`
characters of `target`. -/
def distanceRow (target : List Char) (s : List Char) : List Nat :=
  s.foldl
    (fun row c =>
      match row with
      | [] => []
      | first :: rest => (first + 1) :: nextRow c (first + 1) first target rest)
    (List.range (target.length + 1))

/-- The least number of characters to insert, delete or replace to get from one name to the
other. -/
def editDistance (a b : String) : Nat :=
  (distanceRow b.toList a.toList).getLastD 0

/-- The first of the closest candidates, among those one or two edits away. -/
def suggest (name : String) (candidates : List String) : Option String :=
  let close := candidates.filterMap fun c =>
    let d := editDistance name c
    if 1 ≤ d ∧ d ≤ 2 then some (c, d) else none
  (close.find? (·.2 = 1) <|> close.head?).map Prod.fst

end DataMarks.Name
