/-
  From source files to specifications.
-/
import DataMarks.Compilation.Body

namespace DataMarks

namespace Compile

/-! ## Loading -/

def loadParams : List Surface.Param → Compile Unit
  | [] => return ()
  | p :: ps => do
    let t ← valueType p.type
    let _ ← defaultValue p.span t p.default
    loadParams ps

def addFunctions (module : Option String) (fs : List Surface.Function) : Compile Unit :=
  update fun s => { s with resolver := s.resolver.addAll module fs }

/-- Adds the functions of a module with the given names. -/
def importNames (m : Module) : List (Span × String) → Compile Unit
  | [] => return ()
  | (span, name) :: rest => do
    match m.named name with
    | [] => fail (.undefinedFunction span name (Name.suggest name m.functionNames))
    | fs =>
      addFunctions (some m.name) fs
      importNames m rest

def loadImport (i : Surface.Import) : Compile Unit :=
  match Library.module? i.module with
  | none => fail (.undefinedModule i.span i.module (Name.suggest i.module Library.moduleNames))
  | some m =>
    match i.names with
    | none => addFunctions (some m.name) m.functions
    | some names => importNames m names

def loadBlock : Surface.Block → Compile Unit
  | .function f => do
    loadParams f.params
    let _ ← valueType? f.returns
    addFunctions none [f]
  | .global g => do
    let _ ← valueType g.type
    update fun s => { s with globals := s.globals ++ [g] }
  | .import_ i => loadImport i

def loadBlocks : List Surface.Block → Compile Unit
  | [] => return ()
  | b :: bs => do
    loadBlock b
    loadBlocks bs

/-- Makes the functions, globals and imports of a file available. -/
def load (file : Surface.File) : Compile Unit := loadBlocks file.blocks

/-! ## Functions -/

def globalInputs : List Surface.Global → Dictionary Input → Compile (Dictionary Input)
  | [], done => return done
  | g :: gs, done => do
    let type ← valueType g.type
    declareGlobal g.span g.name type
    let default ← defaultValue g.span type g.default
    globalInputs gs (done.insert g.name { type, default })

def paramInputs : List Surface.Param → Dictionary Input → Compile (Dictionary Input)
  | [], done => return done
  | p :: ps, done => do
    let type ← valueType p.type
    let _ ← declare p.span p.name type
    let default ← defaultValue p.span type p.default
    paramInputs ps (done.insert p.name { type, default })

/-- The specification of a function, with calls expanded so many levels deep. Nothing is left of
what was compiled before but the loaded functions and globals. -/
def functionWithin (levels : Nat) (f : Surface.Function) : Compile Specification := do
  update fun s => { s with scope := {}, outputs := [], callStack := [(none, f.name)] }
  let inputs ← globalInputs (← state).globals []
  let inputs ← paramInputs f.params inputs
  let statements ← capture (inBlock (stmts (expander levels) f.body))
  let s ← state
  return {
    isShader := f.kind = .shader
    inputs
    outputs := s.outputs.map fun (name, type, _) => (name, type)
    locals := s.scope.issued.filter fun (name, _) => !inputs.contains name
    statements }

/-- The specification of a function. -/
def function (f : Surface.Function) : Compile Specification := do
  functionWithin (depth (← state)) f

/-- The specifications of all marks and shaders among functions; the last one of a name counts. -/
def functions : List Surface.Function → Dictionary Specification →
    Compile (Dictionary Specification)
  | [], done => return done
  | f :: fs, done => do
    if f.isRenderable then
      let spec ← function f
      functions fs (done.insert f.name spec)
    else
      functions fs done

end Compile

/-- The specifications of the marks and shaders of a file. -/
def Surface.File.compile (file : Surface.File) : Except CompileError (Dictionary Specification) :=
  let steps : Compile (Dictionary Specification) := do
    Compile.load file
    Compile.functions file.functions []
  (steps {}).result

/-- Why a source text has no specifications. -/
inductive SourceError
  | parse (e : ParseError)
  | compile (e : CompileError)
deriving DecidableEq, Repr

def SourceError.diagnostic : SourceError → Diagnostic
  | parse e => e.diagnostic
  | compile e => e.diagnostic

/-- Reads and compiles a source text that is the file with a number. -/
def compileSource (file : Nat) (source : String) :
    Except SourceError (Dictionary Specification) :=
  match Surface.File.parse file source with
  | .error e => .error (.parse e)
  | .ok f =>
    match f.compile with
    | .error e => .error (.compile e)
    | .ok specs => .ok specs

end DataMarks
