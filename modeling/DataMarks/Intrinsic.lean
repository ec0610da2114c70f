/-
  Intrinsic functions: operators, constructors, mathematics and conversions that
  need no definition in a source text.
-/
import DataMarks.Intrinsic.Operation

namespace DataMarks

/-- A function with no body. One without an operation can only run where marks are drawn. -/
structure Intrinsic where
  /-- The name at call sites. -/
  name : String
  params : List ValueType
  returns : ValueType
  operation : Option Operation
deriving DecidableEq, Repr

namespace Intrinsic

/-- The name that tells an overload from all others. -/
def signature (name : String) (params : List ValueType) (returns : ValueType) : String :=
  "@" ++ name ++ ":" ++ ",".intercalate (params.map ValueType.name) ++ ":" ++ returns.name

def internalName (f : Intrinsic) : String := signature f.name f.params f.returns

/-- The call name of an operator. -/
def operatorName (op : String) : String := "@" ++ op

/-- The call name of a conversion, which no source text can spell. -/
def conversionName (source target : ValueType) : String :=
  "cast:" ++ source.name ++ ":" ++ target.name

end Intrinsic

/-- An implicit conversion. Those of lower rank are preferred. -/
structure Conversion where
  source : ValueType
  target : ValueType
  rank : Nat
deriving DecidableEq, Repr

namespace Conversion

/-- The intrinsic that does the conversion. -/
def intrinsic (c : Conversion) : Intrinsic :=
  { name := Intrinsic.conversionName c.source c.target
    params := [c.source], returns := c.target, operation := some .convert }

def internalName (c : Conversion) : String := c.intrinsic.internalName

end Conversion

/-- A named constant. -/
structure Constant where
  name : String
  type : ValueType
  value : Value
deriving DecidableEq, Repr

end DataMarks
