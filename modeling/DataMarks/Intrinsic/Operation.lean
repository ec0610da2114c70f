/-
  What intrinsic functions compute. An operation gets its arguments as they are,
  whatever their number and shape, and gives nothing for arguments outside of its
  domain.
-/
import DataMarks.Value

namespace DataMarks

inductive Arithmetic
  | add | sub | mul | div
deriving DecidableEq, Repr

def Arithmetic.apply : Arithmetic → Float → Float → Float
  | add => (· + ·)
  | sub => (· - ·)
  | mul => (· * ·)
  | div => (· / ·)

inductive Comparison
  | lt | le | gt | ge | eq | ne
deriving DecidableEq, Repr

def Comparison.holds : Comparison → Float → Float → Bool
  | lt, x, y => x < y
  | le, x, y => x ≤ y
  | gt, x, y => y < x
  | ge, x, y => y ≤ x
  | eq, x, y => x == y
  | ne, x, y => x != y

/-- Functions of one number. -/
inductive Elementary
  | abs | sqrt | exp | log | sin | cos | tan | asin | acos | atan | ceil | floor | trunc
deriving DecidableEq, Repr

def Elementary.apply : Elementary → Float → Float
  | abs => Float.abs
  | sqrt => Float.sqrt
  | exp => Float.exp
  | log => Float.log
  | sin => Float.sin
  | cos => Float.cos
  | tan => Float.tan
  | asin => Float.asin
  | acos => Float.acos
  | atan => Float.atan
  | ceil => Number.ceil
  | floor => Number.floor
  | trunc => Number.trunc

inductive Operation
  /-- Component by component; a number goes with every component of a vector. -/
  | arithmetic (op : Arithmetic)
  /-- The same on two numbers only. -/
  | scalarArithmetic (op : Arithmetic)
  /-- The quotient without its fraction; there is none by zero. -/
  | quotient
  /-- What the quotient leaves, with the sign of the dividend; there is none by zero. -/
  | remainder
  /-- What is above the greatest multiple that is not greater. -/
  | modulo
  | identity
  | negate
  | compare (c : Comparison)
  | not
  | and
  | or
  /-- The vector of the arguments that are numbers. -/
  | construct
  /-- An opaque color from its red, green and blue. -/
  | opaqueColor
  /-- A gray from its brightness and opacity. -/
  | gray
  /-- An opaque gray. -/
  | opaqueGray
  | elementary (f : Elementary)
  | atan2
  | minimum
  | maximum
  | clamp
  | mix
  | dot
  | length
  | normalize
  | cross
  /-- The first argument, read as another type. -/
  | convert
deriving DecidableEq, Repr

namespace Operation

open Value (scalar vector)

def run : Operation → List Value → Option Value
  | arithmetic op, [a, b] => Value.zipWith? op.apply a b
  | scalarArithmetic op, [scalar x, scalar y] => some (scalar (op.apply x y))
  | quotient, [scalar x, scalar y] => if y == 0 then none else some (scalar (Number.trunc (x / y)))
  | remainder, [scalar x, scalar y] =>
    if y == 0 then none else some (scalar (Number.remainder x y))
  | modulo, [scalar x, scalar y] => some (scalar (x - y * Number.floor (x / y)))
  | identity, [a] => some a
  | negate, [a] => some (a.map (-·))
  | compare c, [scalar x, scalar y] => some (.ofBool (c.holds x y))
  | not, [a] => some (.ofBool (!a.truthy))
  | and, [a, b] => some (.ofBool (a.truthy && b.truthy))
  | or, [a, b] => some (.ofBool (a.truthy || b.truthy))
  | construct, args => some (vector (args.filterMap Value.scalar?))
  | opaqueColor, [scalar r, scalar g, scalar b] => some (vector [r, g, b, 1])
  | gray, [scalar v, scalar a] => some (vector [v, v, v, a])
  | opaqueGray, [scalar v] => some (vector [v, v, v, 1])
  | elementary f, [scalar x] => some (scalar (f.apply x))
  | atan2, [scalar y, scalar x] => some (scalar (Float.atan2 y x))
  | minimum, [scalar x, scalar y] => some (scalar (Number.minimum x y))
  | maximum, [scalar x, scalar y] => some (scalar (Number.maximum x y))
  | clamp, [scalar x, scalar lo, scalar hi] =>
    some (scalar (Number.minimum (Number.maximum x lo) hi))
  | mix, [a, b, scalar t] => Value.zipWith? (fun x y => x + (y - x) * t) a b
  | dot, [a, b] => some (scalar (a.dot b))
  | length, [a] => some (scalar (a.dot a).sqrt)
  | normalize, [a] => some (a.map (· / (a.dot a).sqrt))
  | cross, [a, b] =>
    match a.components, b.components with
    | [a₀, a₁, a₂], [b₀, b₁, b₂] =>
      some (vector [a₁ * b₂ - a₂ * b₁, a₂ * b₀ - a₀ * b₂, a₀ * b₁ - a₁ * b₀])
    | _, _ => none
  | convert, args => args.head?
  | _, _ => none

end Operation

end DataMarks
