/-
  Constant values: a number, or a vector of numbers. Integers and truth values
  are numbers too, with 0 and 1 for false and true.
-/
import DataMarks.Number.Decimal
import DataMarks.ValueType

namespace DataMarks

inductive Value
  | scalar (x : Float)
  | vector (xs : List Float)
deriving DecidableEq, Repr, Inhabited

namespace Value

def ofBool (b : Bool) : Value := scalar (if b then 1 else 0)

def components : Value → List Float
  | scalar x => [x]
  | vector xs => xs

def scalar? : Value → Option Float
  | scalar x => some x
  | vector _ => none

/-- A value is true if one of its components is not zero. -/
def truthy (v : Value) : Bool := v.components.any (· != 0)

def text : Value → String
  | scalar x => Number.text x
  | vector xs => "[" ++ ", ".intercalate (xs.map Number.text) ++ "]"

/-- Applies `f` to every component. -/
def map (f : Float → Float) : Value → Value
  | scalar x => scalar (f x)
  | vector xs => vector (xs.map f)

/-- Combines components pairwise; a number goes with every component of a vector. -/
def zipWith? (f : Float → Float → Float) : Value → Value → Option Value
  | scalar x, scalar y => some (scalar (f x y))
  | vector xs, scalar y => some (vector (xs.map (f · y)))
  | scalar x, vector ys => some (vector (ys.map (f x)))
  | vector xs, vector ys =>
    if xs.length = ys.length then some (vector (List.zipWith f xs ys)) else none

/-- The sum of the products of components at the same place. -/
def dot (a b : Value) : Float := Number.sum (List.zipWith (· * ·) a.components b.components)

end Value

namespace ValueType

/-- What an input takes if nothing is said; textures have no such value. -/
def defaultValue? : ValueType → Option Value
  | bool | int | float => some (.scalar 0)
  | vector2 => some (.vector [0, 0])
  | vector3 => some (.vector [0, 0, 0])
  | vector4 => some (.vector [0, 0, 0, 0])
  | quaternion | color => some (.vector [0, 0, 0, 1])
  | _ => none

/-- Whether a value has the shape of the type. -/
def accepts (t : ValueType) : Value → Bool
  | .scalar _ => t.components == 1 && !t.isTexture
  | .vector xs => !t.isTexture && 1 < t.components && xs.length == t.components

theorem accepts_defaultValue? {t : ValueType} {v : Value} (h : t.defaultValue? = some v) :
    t.accepts v = true := by
  cases t <;> simp [defaultValue?] at h <;> subst h <;> rfl

end ValueType

end DataMarks
