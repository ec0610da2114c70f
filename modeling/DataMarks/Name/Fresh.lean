/-
  Fresh names: a name itself if it is free, else the name followed by the least
  number 1, 2, ... that makes it free.
-/

namespace DataMarks.Name

/-- The names tried in turn for `base`. -/
def candidate (base : String) : Nat → String
  | 0 => base
  | n + 1 => base ++ Nat.repr (n + 1)

/-- The number of the last candidate that can be tried. The counter has 32 bits with a sign and is
counted on before a candidate is tried, which overflows at 2147483647. -/
def lastNumber : Nat := 2147483646

/-- The first free candidate from the `n`-th on, after at most `tests` that are taken. There is none
if they are taken up to the number `last`, where the counter overflows. -/
def firstFree (used : List String) (base : String) (last : Nat) : (tests n : Nat) → Option String
  | 0, n => some (candidate base n)
  | tests + 1, n =>
    if candidate base n ∈ used then
      if n < last then firstFree used base last tests (n + 1) else none
    else some (candidate base n)

/-- The first candidate that is not used. As candidates differ, no more of them can be taken than
there are used names. -/
def attempt (base : String) (used : List String) : Option String :=
  firstFree used base lastNumber used.length 0

/-- The first candidate that is not used, also where the search for it ends in an overflow: the
numbers of names go on there. -/
def fresh (base : String) (used : List String) : String :=
  (attempt base used <|> firstFree used base used.length used.length 0).getD base

end DataMarks.Name
