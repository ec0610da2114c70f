/-
  The scale of a double-precision number: its sign, and its magnitude as a
  whole number of units of a power of two. Rounding to whole numbers and the
  remainder of a division are defined on it, so that proofs can see them.
-/

namespace DataMarks.Number

/-- Whether the sign bit is set; true of negative zero. -/
def isNegative (x : Float) : Bool := x.toBits >>> 63 == 1

/-- The magnitude of a finite number as `mantissa * 2 ^ exponent`. -/
structure Magnitude where
  mantissa : Nat
  exponent : Int
deriving DecidableEq, Repr

/-- The magnitude of `x`; of no meaning for infinities and what is not a number. -/
def magnitude (x : Float) : Magnitude :=
  let bits := x.toBits.toNat
  let fraction := bits % Nat.pow 2 52
  match bits / Nat.pow 2 52 % Nat.pow 2 11 with
  | 0 => ⟨fraction, -1074⟩
  | biased => ⟨Nat.pow 2 52 + fraction, (biased : Int) - 1075⟩

/-- The number with a magnitude that a double holds exactly. -/
def Magnitude.toFloat (m : Magnitude) : Float :=
  if m.mantissa = 0 then 0
  else
    let top : Int := m.mantissa.log2 + m.exponent
    let shifted (unit : Int) : Nat :=
      if unit ≤ m.exponent then m.mantissa * Nat.pow 2 (m.exponent - unit).toNat
      else m.mantissa / Nat.pow 2 (unit - m.exponent).toNat
    let bits :=
      if top < -1022 then shifted (-1074)
      else (top + 1023).toNat * Nat.pow 2 52 + (shifted (top - 52) - Nat.pow 2 52)
    Float.ofBits bits.toUInt64

/-- `x` with the sign of `s`. -/
def withSign (s x : Float) : Float := if isNegative s then -x.abs else x.abs

/-- The whole number next to `x` on the side of zero, with the sign of `x`. -/
def trunc (x : Float) : Float :=
  if x.abs < 9007199254740992 then withSign x x.abs.toUInt64.toFloat else x

/-- The greatest whole number that is not above `x`. -/
def floor (x : Float) : Float :=
  let t := trunc x
  if x < t then t - 1 else t

/-- The least whole number that is not below `x`. -/
def ceil (x : Float) : Float := -floor (-x)

/-- What is left of `a` after taking away `b` as often as fits, with the sign of `a`. -/
def remainder (a b : Float) : Float :=
  if a.isNaN || b.isNaN || a.isInf || b == 0 then 0 / 0
  else if b.isInf then a
  else
    let ma := magnitude a
    let mb := magnitude b
    let unit := min ma.exponent mb.exponent
    let units (m : Magnitude) : Nat := m.mantissa * Nat.pow 2 (m.exponent - unit).toNat
    withSign a (Magnitude.toFloat ⟨units ma % units mb, unit⟩)

/-- The lesser number; the other one if one of them is not a number. -/
def minimum (a b : Float) : Float :=
  if a.isNaN then b else if b.isNaN then a else if b < a then b else a

/-- The greater number; the other one if one of them is not a number. -/
def maximum (a b : Float) : Float :=
  if a.isNaN then b else if b.isNaN then a else if a < b then b else a

/-- The sum of a list. The empty sum is negative zero, which adds to nothing else. -/
def sum (xs : List Float) : Float := xs.foldl (· + ·) (-0.0)

end DataMarks.Number
