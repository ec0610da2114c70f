/-
  The catalog: all intrinsics in their order of declaration, the implicit
  conversions, the named constants and the fields of values.
-/
import DataMarks.Intrinsic

namespace DataMarks.Catalog

open ValueType

/-! ## Intrinsics -/

def operator (op : String) (params : List ValueType) (returns : ValueType) (o : Operation) :
    Intrinsic :=
  { name := Intrinsic.operatorName op, params, returns, operation := some o }

def function (name : String) (params : List ValueType) (returns : ValueType) (o : Operation) :
    Intrinsic :=
  { name, params, returns, operation := some o }

/-- A function of the drawing platform. -/
def external (name : String) (params : List ValueType) (returns : ValueType) : Intrinsic :=
  { name, params, returns, operation := none }

def vectors : List ValueType := [vector2, vector3, vector4]

/-- The overloads of an arithmetic operator on two values of one type. -/
def homogeneous (symbol : String) (op : Arithmetic) (onInts : Operation) : List Intrinsic :=
  [operator symbol [float, float] float (.arithmetic op),
   operator symbol [int, int] int onInts]
  ++ vectors.map fun v => operator symbol [v, v] v (.arithmetic op)

def arithmetic : List Intrinsic :=
  homogeneous "+" .add (.scalarArithmetic .add)
  ++ homogeneous "-" .sub (.scalarArithmetic .sub)
  ++ homogeneous "*" .mul (.scalarArithmetic .mul)
  ++ homogeneous "/" .div .quotient
  ++ vectors.flatMap (fun v =>
    [operator "*" [v, float] v (.arithmetic .mul),
     operator "*" [float, v] v (.arithmetic .mul),
     operator "/" [v, float] v (.arithmetic .div)])
  ++ [operator "%" [float, float] float .modulo,
      operator "%" [int, int] int .remainder]
  ++ ([float, int] ++ vectors).flatMap fun t =>
    [operator "+" [t] t .identity, operator "-" [t] t .negate]

def comparisons : List Intrinsic :=
  [float, int].flatMap (fun t =>
    [operator "<" [t, t] bool (.compare .lt),
     operator "<=" [t, t] bool (.compare .le),
     operator ">" [t, t] bool (.compare .gt),
     operator ">=" [t, t] bool (.compare .ge)])
  ++ [bool, float, int].flatMap fun t =>
    [operator "==" [t, t] bool (.compare .eq),
     operator "!=" [t, t] bool (.compare .ne)]

def logic : List Intrinsic :=
  [operator "!" [bool] bool .not,
   operator "&&" [bool, bool] bool .and,
   operator "||" [bool, bool] bool .or]

def constructors : List Intrinsic :=
  [function "Vector2" [float, float] vector2 .construct,
   function "Vector3" [float, float, float] vector3 .construct,
   function "Vector4" [float, float, float, float] vector4 .construct,
   function "Quaternion" [float, float, float, float] quaternion .construct,
   function "Color" [float, float, float, float] color .construct,
   function "Color" [float, float, float] color .opaqueColor,
   function "Color" [float, float] color .gray,
   function "Color" [float] color .opaqueGray,
   function "int" [float] int (.elementary .trunc),
   function "float" [int] float .identity]

def scalarMath : List Intrinsic :=
  [function "abs" [float] float (.elementary .abs),
   function "sqrt" [float] float (.elementary .sqrt),
   function "exp" [float] float (.elementary .exp),
   function "log" [float] float (.elementary .log),
   function "sin" [float] float (.elementary .sin),
   function "cos" [float] float (.elementary .cos),
   function "tan" [float] float (.elementary .tan),
   function "asin" [float] float (.elementary .asin),
   function "acos" [float] float (.elementary .acos),
   function "atan" [float] float (.elementary .atan),
   function "ceil" [float] float (.elementary .ceil),
   function "floor" [float] float (.elementary .floor),
   function "abs" [int] int (.elementary .abs),
   function "atan2" [float, float] float .atan2]
  ++ [float, int].flatMap (fun t =>
    [function "min" [t, t] t .minimum, function "max" [t, t] t .maximum])
  ++ [function "clamp" [float, float, float] float .clamp]
  ++ ([float] ++ vectors ++ [color]).map fun t => function "mix" [t, t, float] t .mix

def vectorMath : List Intrinsic :=
  vectors.map (fun v => function "dot" [v, v] float .dot)
  ++ (vectors ++ [quaternion]).flatMap (fun v =>
    [function "length" [v] float .length, function "normalize" [v] v .normalize])
  ++ [function "cross" [vector3, vector3] vector3 .cross]

def externals : List Intrinsic :=
  [external "quat_mul" [quaternion, quaternion] quaternion,
   external "quat_conj" [quaternion] quaternion,
   external "quat_slerp" [quaternion, quaternion, float] quaternion,
   external "quat_rotate" [quaternion, vector3] vector3,
   external "quat_rotation" [vector3, float] quaternion,
   external "lab2rgb" [color] color,
   external "hcl2rgb" [color] color,
   external "array" [floatArray, float] float,
   external "array" [vector2Array, float] vector2,
   external "array" [vector3Array, float] vector3,
   external "array" [vector4Array, float] vector4,
   external "array" [colorArray, float] color,
   external "image" [image, vector2] color,
   external "image" [floatImage, vector2] float,
   external "image" [vector2Image, vector2] vector2,
   external "image" [vector3Image, vector2] vector3,
   external "image" [vector4Image, vector2] vector4,
   external "get_camera_direction" [vector3] vector3]

/-! ## Conversions -/

/-- The implicit conversions; none of them loses precision. -/
def conversions : List Conversion :=
  [⟨bool, int, 1⟩, ⟨int, float, 1⟩, ⟨quaternion, vector4, 0⟩, ⟨vector4, quaternion, 0⟩,
   ⟨color, vector4, 0⟩, ⟨vector4, color, 0⟩, ⟨vector4Array, colorArray, 0⟩,
   ⟨colorArray, vector4Array, 0⟩, ⟨vector4Array2D, image, 0⟩, ⟨image, vector4Image, 0⟩]

def conversion? (source target : ValueType) : Option Conversion :=
  conversions.find? fun c => c.source = source ∧ c.target = target

/-! ## The whole catalog -/

/-- All intrinsics, in order of declaration. -/
def intrinsics : List Intrinsic :=
  arithmetic ++ comparisons ++ logic ++ constructors ++ scalarMath ++ vectorMath ++ externals
  ++ conversions.map Conversion.intrinsic

/-- The overloads of a call name, in order of declaration. -/
def named (name : String) : List Intrinsic := intrinsics.filter (·.name == name)

/-- All intrinsics by their internal names. -/
def directory : List (String × Intrinsic) := intrinsics.map fun f => (f.internalName, f)

/-- The intrinsic with an internal name. -/
def find? (internalName : String) : Option Intrinsic := directory.lookup internalName

/-! ## Constants and fields -/

def constants : List Constant :=
  [⟨"PI", float, .scalar 3.141592653589793⟩,
   ⟨"RED", color, .vector [1, 0, 0, 1]⟩,
   ⟨"SQRT1_2", float, .scalar 0.7071067811865476⟩,
   ⟨"SQRT2", float, .scalar 1.4142135623730951⟩]

def constant? (name : String) : Option Constant := constants.find? (·.name == name)

def constantNames : List String := constants.map Constant.name

/-- The fields of a type in alphabetical order; each of them is a number. -/
def fieldNames : ValueType → List String
  | vector2 => ["x", "y"]
  | vector3 => ["b", "g", "r", "x", "y", "z"]
  | vector4 => ["a", "b", "g", "r", "w", "x", "y", "z"]
  | quaternion => ["w", "x", "y", "z"]
  | color => ["a", "b", "g", "r"]
  | _ => []

def fieldType? (base : ValueType) (field : String) : Option ValueType :=
  if field ∈ fieldNames base then some float else none

/-- The place of a field among the components. -/
def fieldIndex? : String → Option Nat
  | "x" | "r" => some 0
  | "y" | "g" => some 1
  | "z" | "b" => some 2
  | "w" | "a" => some 3
  | _ => none

end DataMarks.Catalog
