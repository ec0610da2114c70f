/-
  The catalog of value types: their names in source texts, their size, and the
  components they are made of.
-/

namespace DataMarks

/-- How the components of a type are stored. -/
inductive Storage
  | float
  | int
  /-- A handle to a texture, read through lookups only. -/
  | texture
deriving DecidableEq, Repr

def Storage.name : Storage → String
  | float => "float"
  | int => "int"
  | texture => "texture"

/-- The types of the mark language. A quaternion is stored as `x, y, z, w`, a color as
`r, g, b, a`, and a truth value as an integer. -/
inductive ValueType
  | bool | int | float | vector2 | vector3 | vector4 | quaternion | color
  | floatArray | vector2Array | vector3Array | vector4Array | colorArray | vector4Array2D
  | image | floatImage | vector2Image | vector3Image | vector4Image
deriving DecidableEq, Repr, Inhabited

namespace ValueType

/-- All types, in catalog order. -/
def all : List ValueType :=
  [bool, int, float, vector2, vector3, vector4, quaternion, color, floatArray, vector2Array,
   vector3Array, vector4Array, colorArray, vector4Array2D, image, floatImage, vector2Image,
   vector3Image, vector4Image]

/-- The name of a type in source texts. -/
def name : ValueType → String
  | bool => "bool"
  | int => "int"
  | float => "float"
  | vector2 => "Vector2"
  | vector3 => "Vector3"
  | vector4 => "Vector4"
  | quaternion => "Quaternion"
  | color => "Color"
  | floatArray => "FloatArray"
  | vector2Array => "Vector2Array"
  | vector3Array => "Vector3Array"
  | vector4Array => "Vector4Array"
  | colorArray => "ColorArray"
  | vector4Array2D => "Vector4Array2D"
  | image => "Image"
  | floatImage => "FloatImage"
  | vector2Image => "Vector2Image"
  | vector3Image => "Vector3Image"
  | vector4Image => "Vector4Image"

/-- The name of a type as a title: that of a scalar type starts with a capital too. -/
def title : ValueType → String
  | bool => "Bool"
  | int => "Int"
  | float => "Float"
  | t => t.name

def ofName? (s : String) : Option ValueType :=
  all.find? (·.name == s)

def storage : ValueType → Storage
  | bool | int => .int
  | float | vector2 | vector3 | vector4 | quaternion | color => .float
  | _ => .texture

/-- The number of components of a value, or of a texel of a texture. -/
def components : ValueType → Nat
  | bool | int | float | floatArray | floatImage => 1
  | vector2 | vector2Array | vector2Image => 2
  | vector3 | vector3Array | vector3Image => 3
  | _ => 4

def isTexture (t : ValueType) : Bool := t.storage == .texture

/-- The size of a value in bytes; textures take no room of their own. -/
def size (t : ValueType) : Nat := if t.isTexture then 0 else 4 * t.components

theorem mem_all (t : ValueType) : t ∈ all := by cases t <;> decide

theorem components_pos (t : ValueType) : 0 < t.components := by cases t <;> decide

end ValueType

end DataMarks
