/-
  What is wrong with the binding of an input.
-/
import DataMarks.CompileError

namespace DataMarks

inductive BindingError
  | undefinedAttribute (name : String)
  | mismatchedValue (name : String) (value : Value) (type : ValueType)
  /-- A texture has no value for a single datum. -/
  | textureIteration
  | mismatchedScale (name : String) (found expected : ValueType)
  | invalidScale (e : CompileError)
  | unresolvedScale (signature : String)
deriving DecidableEq, Repr

def BindingError.message : BindingError → String
  | undefinedAttribute n => s!"attribute `{n}` is undefined"
  | mismatchedValue n v t =>
    s!"value `{v.text}` does not fit attribute `{n}` of type `{t.name}`"
  | textureIteration => "texture bindings cannot be evaluated per element"
  | mismatchedScale n t u => s!"scale bound to `{n}` produces `{t.name}`, expected `{u.name}`"
  | invalidScale e => s!"invalid scale expression: {e.message}"
  | unresolvedScale s => s!"no overload matches scale `{s}`"

end DataMarks
