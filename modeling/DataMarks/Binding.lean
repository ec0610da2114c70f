/-
  Bindings: where an input of a mark takes its values from, and the buffers of
  numbers that a drawing platform gets for them.
-/
import DataMarks.BindingError
import DataMarks.Texture

namespace DataMarks

variable {δ : Type}

/-- Where values come from, for data of type `δ`. -/
inductive Source (δ : Type)
  | literal (v : Value)
  /-- A value for a datum and its index. -/
  | function (f : δ → Nat → Value)
  /-- A texture, or one with nothing in it yet. -/
  | texture (t : Option Texture)

namespace Source

def number (x : Float) : Source δ := literal (.scalar x)

def isFunction : Source δ → Bool
  | function _ => true
  | literal _ | texture _ => false

def literal? : Source δ → Option Value
  | literal v => some v
  | function _ | texture _ => none

end Source

structure Binding (δ : Type) where
  type : ValueType
  source : Source δ

namespace Binding

def isFunction (b : Binding δ) : Bool := b.source.isFunction

def literal? (b : Binding δ) : Option Value := b.source.literal?

/-- The value for each datum. -/
def values (b : Binding δ) (data : List δ) : Except BindingError (List Value) :=
  match b.source with
  | .literal v => .ok (data.map fun _ => v)
  | .function f => .ok (data.zipIdx.map fun (x, i) => f x i)
  | .texture _ => .error .textureIteration

/-- As many components of a value as a type has; those that are not there are zero. -/
def components (t : ValueType) (v : Value) : List Float :=
  (List.range t.components).map fun i => v.components.getD i 0

/-- The components of the value for each datum, `times` over, in the number format of the
buffer. -/
def buffer {α : Type} (format : Float → α) (b : Binding δ) (data : List δ) (times : Nat) :
    Except BindingError (List α) :=
  (b.values data).map fun vs =>
    vs.flatMap fun v => (List.replicate times ((components b.type v).map format)).flatten

/-- Buffers of single precision numbers. -/
def floats : Binding δ → List δ → Nat → Except BindingError (List Float32) :=
  buffer Float.toFloat32

/-- Buffers of 32-bit integers: fractions are dropped and values out of range go to its ends. -/
def ints : Binding δ → List δ → Nat → Except BindingError (List Int32) :=
  buffer Float.toInt32

end Binding

/-- The value of an input for a neighbour of the datum. -/
structure Shift where
  base : String
  offset : Int
deriving DecidableEq, Repr

/-- The endings of the names of inputs that are taken from a neighbour, with its offset. -/
def Shift.suffixes : List (String × Int) := [("_pp", -2), ("_p", -1), ("_n", 1), ("_nn", 2)]

end DataMarks
