/-
  Sessions: source texts that are checked, compiled and evaluated one after the
  other. Once something has failed, no later command of the session succeeds.
-/
import DataMarks.Compilation
import DataMarks.Evaluation
import DataMarks.Flattening
import DataMarks.Specification.Printer

namespace DataMarks

/-- Why the text of a file is not to be had. -/
inductive ReadError
  | notFound
  | invalidEncoding
  | other (reason : String)
deriving DecidableEq, Repr

def ReadError.message : ReadError → String
  | notFound => "No such file or directory (os error 2)"
  | invalidEncoding => "stream did not contain valid UTF-8"
  | other reason => reason

/-- What a command prints, and what is wrong if it stops early. -/
structure Report where
  output : List Document := []
  failure : Option Diagnostic := none
deriving Repr

namespace Report

def fail (d : Diagnostic) : Report := { failure := some d }

/-- One report after the other; a failure of the first is the end. -/
def andThen (r : Report) (next : Report) : Report :=
  match r.failure with
  | some _ => r
  | none => { next with output := r.output ++ next.output }

/-- The reports for all items up to the first that fails. -/
def all {α : Type} (report : α → Report) (xs : List α) : Report :=
  xs.foldr (fun x rest => (report x).andThen rest) {}

end Report

structure Session where
  /-- The names and texts of files; a file's number is its place. -/
  files : List (String × String) := Library.sources.map fun (n, text) => ("<" ++ n ++ ">", text)
  /-- How wide a page is. -/
  width : Nat := 18446744073709551615
  failed : Bool := false

/-- What a command ends with. -/
structure Session.Outcome where
  code : Nat
  out : String
  diagnostics : List Diagnostic
deriving Repr

namespace Session

/-! ## Files -/

/-- Adds a file and tells its number. -/
def load (s : Session) (name text : String) : Session × Nat :=
  ({ s with files := s.files ++ [(name, text)] }, s.files.length)

/-- The text that bytes spell. -/
def decode (bytes : ByteArray) : Except ReadError String :=
  match String.fromUTF8? bytes with
  | some text => .ok text
  | none => .error .invalidEncoding

/-- Adds a file with contents as they were found. -/
def read (s : Session) (name : String) (contents : Except ReadError ByteArray) :
    Session × Except Diagnostic Nat :=
  match contents >>= decode with
  | .ok text =>
    let (s, file) := s.load name text
    (s, .ok file)
  | .error e =>
    ({ s with failed := true },
      .error { message := s!"couldn't read `{name}`: {e.message}" })

/-! ## Commands -/

/-- The specifications of a file. -/
def compile (s : Session) (file : Nat) : Except Diagnostic (Dictionary Specification) :=
  match s.files[file]? with
  | none => .error { severity := .bug, message := "missing source: file missing" }
  | some (_, text) => (compileSource file text).mapError SourceError.diagnostic

/-- The specification with a name, or all of them. -/
def select (specs : Dictionary Specification) :
    Option String → Except Diagnostic (List (String × Specification))
  | none => .ok specs
  | some mark =>
    match specs.get? mark with
    | some s => .ok [(mark, s)]
    | none =>
      let help := (Name.suggest mark specs.keys).toList.map fun n => s!"help: did you mean `{n}`?"
      .error { message := s!"no mark named `{mark}`", notes := help }

/-- The report of a command on the specifications of a file. -/
def onSpecifications (s : Session) (file : Nat) (mark : Option String)
    (report : List (String × Specification) → Report) : Report :=
  match s.compile file >>= fun specs => select specs mark with
  | .ok specs => report specs
  | .error d => .fail d

/-- The report on the flattened form of a specification. -/
def onFlattened (name : String) (spec : Specification) (report : Flattened → Report) : Report :=
  match spec.flatten with
  | .ok f => report f
  | .error e => .fail { message := s!"failed to flatten `{name}`: {e.message}" }

def evaluationFailure (name : String) (e : EvalError) : Report :=
  .fail { message := s!"failed to evaluate `{name}`: {e.message}" }

/-- Compiles a file and prints nothing. -/
def check (s : Session) (file : Nat) : Report := s.onSpecifications file none fun _ => {}

/-- Prints specifications, in their flattened form if asked to. -/
def print (s : Session) (file : Nat) (mark : Option String) (flatten : Bool) : Report :=
  s.onSpecifications file mark (Report.all fun (name, spec) =>
    if flatten then
      onFlattened name spec fun f =>
        { output :=
            [.text s!"// {f.count} emits, indexed by `{f.index}`", f.specification.document name] }
    else
      { output := [spec.document name] })

/-- Values for all inputs: their own defaults, or else those of their types. -/
def defaults : Dictionary Input → Except EvalError (Dictionary Value)
  | [] => .ok []
  | (n, i) :: inputs =>
    match i.default <|> i.type.defaultValue? with
    | some v => return (n, v) :: (← defaults inputs)
    | none => .error (.missingInput n)

/-- Prints the vertices of a flattened specification at all its indices. -/
def vertices (name : String) (f : Flattened) : Report :=
  match defaults f.specification.inputs with
  | .error e => evaluationFailure name e
  | .ok given =>
    Report.all (fun index =>
      match f.specification.evaluate (given.insert f.index (.scalar (Float.ofNat index))) with
      | .ok vs => { output := vs.map (Vertex.document index) }
      | .error e => evaluationFailure name e) (List.range f.count)

/-- Evaluates a mark at its defaults and prints its vertices. -/
def eval (s : Session) (file : Nat) (mark : String) : Report :=
  s.onSpecifications file (some mark) (Report.all fun (name, spec) =>
    onFlattened name spec (vertices name))

/-- Ends a command. -/
def conclude (s : Session) (r : Report) : Session × Outcome :=
  let failed := s.failed || r.failure.isSome
  ({ s with failed },
    { code := if failed then 1 else 0
      out := String.join (r.output.map fun d => d.render s.width ++ "\n")
      diagnostics := r.failure.toList })

end Session

end DataMarks
