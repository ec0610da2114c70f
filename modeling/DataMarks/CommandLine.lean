/-
  The command line: `check FILE`, `compile FILE [--mark NAME] [--flatten]` and
  `eval FILE --mark NAME`. The file `-` is standard input. Options go before or
  after the file; `--` ends them.
-/
import DataMarks.Session

namespace DataMarks.CommandLine

inductive Command
  | check
  | compile (mark : Option String) (flatten : Bool)
  | eval (mark : String)
deriving DecidableEq, Repr

/-- A command and the file it is about. -/
structure Invocation where
  command : Command
  file : String
deriving DecidableEq, Repr

/-! ## Arguments -/

/-- The arguments after the name of the command. -/
structure Arguments where
  file : Option String := none
  mark : Option String := none
  flatten : Bool := false
deriving DecidableEq, Repr

namespace Arguments

/-- There can be only one file, and each option only once. -/
def setFile (a : Arguments) (file : String) : Option Arguments :=
  if a.file.isSome then none else some { a with file := some file }

def setMark (a : Arguments) (mark : String) : Option Arguments :=
  if a.mark.isSome then none else some { a with mark := some mark }

def setFlatten (a : Arguments) : Option Arguments :=
  if a.flatten then none else some { a with flatten := true }

/-- Whether an argument is no file and no value of an option. -/
def isOption (arg : String) : Bool := arg.startsWith "-" && arg != "-"

/-- The value in `--mark=NAME`. -/
def markValue? (arg : String) : Option String := (arg.dropPrefix? "--mark=").map (·.toString)

/-- Reads arguments. -/
def read : Arguments → List String → Option Arguments
  | a, [] => some a
  | a, "--" :: files => files.foldlM setFile a
  | a, "--mark" :: mark :: rest =>
    if isOption mark then none else (a.setMark mark).bind (read · rest)
  | a, "--flatten" :: rest => a.setFlatten.bind (read · rest)
  | a, arg :: rest =>
    match markValue? arg with
    | some mark => (a.setMark mark).bind (read · rest)
    | none => if isOption arg then none else (a.setFile arg).bind (read · rest)

end Arguments

/-- Reads a command line; nothing if it is not understood. -/
def parse : List String → Option Invocation
  | [] => none
  | name :: rest => do
    let a ← Arguments.read {} rest
    let file ← a.file
    match name, a.mark, a.flatten with
    | "check", none, false => return { command := .check, file }
    | "compile", mark, flatten => return { command := .compile mark flatten, file }
    | "eval", some mark, false => return { command := .eval mark, file }
    | _, _, _ => none

/-! ## Running -/

/-- How wide the page is. -/
def pageWidth : Nat := 80

def standardInput : String := "-"

/-- The name of a file in messages. -/
def displayName (file : String) : String := if file = standardInput then "<stdin>" else file

def report (s : Session) (file : Nat) : Command → Report
  | .check => s.check file
  | .compile mark flatten => s.print file mark flatten
  | .eval mark => s.eval file mark

/-- Runs a command on the contents of its file. -/
def run (i : Invocation) (contents : Except ReadError ByteArray) : Session.Outcome :=
  let s : Session := { width := pageWidth }
  match s.read (displayName i.file) contents with
  | (s, .ok file) => (s.conclude (report s file i.command)).2
  | (_, .error d) => { code := 1, out := "", diagnostics := [d] }

end DataMarks.CommandLine
