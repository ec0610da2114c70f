/-
  Textures that hold one texel per datum, for marks that look values up.
-/
import DataMarks.Value

namespace DataMarks

/-- The contents of a texture. Every texel stores four numbers. -/
structure Texture where
  width : Nat
  height : Nat
  dimensions : Nat
  /-- How many of the four numbers are in use. -/
  components : Nat
  texels : List Float32
deriving Repr

/-- The four numbers of a value's texel: its first components, then zeros. -/
def Value.texel (v : Value) : List Float32 :=
  ((v.components.map Float.toFloat32).take 4 ++ List.replicate 4 0).take 4

/-- Data, and the function that makes a texel of a datum, its index and all data. -/
structure DataTexture (τ : Type) where
  data : List τ := []
  value : Option (τ → Nat → List τ → Value) := none

namespace DataTexture

variable {τ : Type}

/-- The values of the texels in order. -/
def values (t : DataTexture τ) : List Value :=
  match t.value with
  | none => []
  | some f => t.data.zipIdx.map fun (x, i) => f x i t.data

/-- A texture that is one texel high; nothing if there is no texel. The first value tells how
many components are in use. -/
def contents (t : DataTexture τ) : Option Texture :=
  match t.values with
  | [] => none
  | v :: vs =>
    some {
      width := (v :: vs).length
      height := 1
      dimensions := 1
      components := min v.components.length 4
      texels := (v :: vs).flatMap Value.texel }

end DataTexture

end DataMarks
