/-
  Decimal text of double-precision numbers. A number is written with the fewest
  digits that read back to it, never with an exponent; of two such decimals the
  nearer one is taken, and the greater one if both are equally near.
-/
import DataMarks.Number.Binary

namespace DataMarks.Number

/-- A positive real `value / unit` and the ends of the interval of reals that round to it. -/
structure Neighbourhood where
  low : Nat
  value : Nat
  high : Nat
  unit : Nat
  /-- Whether the ends round to the value too. -/
  closed : Bool
deriving DecidableEq, Repr

/-- The reals that round to a magnitude. Below a power of two the doubles lie twice as dense. -/
def Magnitude.neighbourhood (m : Magnitude) : Neighbourhood :=
  let below := if m.mantissa = Nat.pow 2 52 ∧ -1074 < m.exponent then 1 else 2
  let factor := Nat.pow 2 (m.exponent - 2).toNat
  { low := (4 * m.mantissa - below) * factor
    value := 4 * m.mantissa * factor
    high := (4 * m.mantissa + 2) * factor
    unit := Nat.pow 2 (2 - m.exponent).toNat
    closed := m.mantissa % 2 = 0 }

/-- A decimal `digits * 10 ^ exponent`. -/
structure Decimal where
  digits : Nat
  exponent : Int
deriving DecidableEq, Repr

namespace Neighbourhood

/-- The same reals counted in units of `10 ^ k`. -/
def inUnits (n : Neighbourhood) (k : Int) : Neighbourhood :=
  let up := Nat.pow 10 (-k).toNat
  let down := Nat.pow 10 k.toNat
  { n with low := n.low * up, value := n.value * up, high := n.high * up, unit := n.unit * down }

/-- Whether a whole number lies in the neighbourhood. -/
def contains (n : Neighbourhood) (d : Nat) : Bool :=
  if n.closed then n.low ≤ d * n.unit && d * n.unit ≤ n.high
  else n.low < d * n.unit && d * n.unit < n.high

/-- The whole number of the neighbourhood that is nearest to its value, if it holds one next to
the value; of two the greater one. -/
def nearest? (n : Neighbourhood) : Option Nat :=
  let d := n.value / n.unit
  match n.contains d, n.contains (d + 1) with
  | true, true => some (if 2 * (n.value % n.unit) < n.unit then d else d + 1)
  | true, false => some d
  | false, true => some (d + 1)
  | false, false => none

/-- The exponent of the leading decimal digit of the value. -/
def leading (n : Neighbourhood) : Int :=
  let atLeast (k : Int) : Bool := n.unit * Nat.pow 10 k.toNat ≤ n.value * Nat.pow 10 (-k).toNat
  let guess := ((n.value.log2 : Int) - n.unit.log2) * 30103 / 100000
  if atLeast (guess + 1) then guess + 1 else if atLeast guess then guess else guess - 1

/-- The first decimal that reads back, trying one digit more each time from exponent `k` down. -/
def search (n : Neighbourhood) : Nat → Int → Decimal
  | 0, k => ⟨n.value * Nat.pow 10 (-k).toNat / (n.unit * Nat.pow 10 k.toNat), k⟩
  | fuel + 1, k =>
    match (n.inUnits k).nearest? with
    | some d => ⟨d, k⟩
    | none => search n fuel (k - 1)

/-- The shortest decimal of the neighbourhood. Seventeen digits always suffice. -/
def shortest (n : Neighbourhood) : Decimal := n.search 17 n.leading

end Neighbourhood

namespace Decimal

/-- Drops zeros at the end of the fraction. -/
def trim (digits places : Nat) : Nat × Nat :=
  match places with
  | 0 => (digits, 0)
  | p + 1 => if digits % 10 = 0 then trim (digits / 10) p else (digits, p + 1)

/-- Positional text, with a point only if there is a fraction. -/
def text (d : Decimal) : String :=
  if 0 ≤ d.exponent then Nat.repr (d.digits * Nat.pow 10 d.exponent.toNat)
  else
    match trim d.digits (-d.exponent).toNat with
    | (digits, 0) => Nat.repr digits
    | (digits, places) =>
      let cs := (Nat.repr digits).toList
      let padded := List.replicate (places + 1 - cs.length) '0' ++ cs
      String.ofList (padded.take (padded.length - places)) ++ "."
        ++ String.ofList (padded.drop (padded.length - places))

end Decimal

/-- The text of a number. -/
def text (x : Float) : String :=
  if x.isNaN then "NaN"
  else
    let sign := if isNegative x then "-" else ""
    if x.isInf then sign ++ "inf"
    else
      let m := magnitude x
      if m.mantissa = 0 then sign ++ "0" else sign ++ m.neighbourhood.shortest.text

/-- The number nearest to `digits * 10 ^ exponent`. -/
def ofDecimal (d : Decimal) : Float :=
  if 0 ≤ d.exponent then Float.ofScientific d.digits false d.exponent.toNat
  else Float.ofScientific d.digits true (-d.exponent).toNat

/-- The value of a list of decimal digits. -/
def digitsValue (cs : List Char) : Nat := cs.foldl (fun n c => 10 * n + (c.toNat - '0'.toNat)) 0

/-- Reads digits, perhaps with a fraction and an exponent, as the nearest number. -/
def ofDigits (cs : List Char) : Float :=
  let whole := cs.takeWhile Char.isDigit
  let rest := cs.dropWhile Char.isDigit
  let (fraction, rest) := match rest with
    | '.' :: r => (r.takeWhile Char.isDigit, r.dropWhile Char.isDigit)
    | _ => ([], rest)
  let exponent : Int := match rest.drop 1 with
    | '-' :: r => -(digitsValue r : Int)
    | '+' :: r => digitsValue r
    | r => digitsValue r
  ofDecimal ⟨digitsValue (whole ++ fraction), exponent - fraction.length⟩

end DataMarks.Number
