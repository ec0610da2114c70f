/-
  The library: modules of functions that source files can import.
-/
import DataMarks.Library.Sources
import DataMarks.Surface.Parser

namespace DataMarks

/-- A named collection of functions. -/
structure Module where
  name : String
  functions : List Surface.Function
deriving Repr

/-- The functions of a module with a name, in order. -/
def Module.named (m : Module) (name : String) : List Surface.Function :=
  m.functions.filter (·.name == name)

def Module.functionNames (m : Module) : List String := m.functions.map Surface.Function.name

namespace Library

/-- The module that a source text holds. -/
def read (file : Nat) (name source : String) : Module :=
  { name
    functions :=
      match Surface.File.parse file source with
      | .ok f => f.functions
      | .error _ => [] }

def modules : List Module :=
  sources.zipIdx.map fun ((name, source), file) => read file name source

def module? (name : String) : Option Module := modules.find? (·.name == name)

def moduleNames : List String := modules.map Module.name

/-- The functions of a module with a name; none if there is no such module. -/
def functions (module name : String) : List Surface.Function :=
  match module? module with
  | some m => m.named name
  | none => []

/-- How many functions the modules hold. -/
def size : Nat := (modules.flatMap Module.functions).length

/-- The number of the first file that is not a module. -/
def firstFile : Nat := sources.length

end Library

end DataMarks
