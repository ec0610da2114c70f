/-
  Why a file or expression has no specification.
-/
import DataMarks.Diagnostic
import DataMarks.Value

namespace DataMarks

inductive CompileError
  | duplicateDeclaration (span : Span) (name : String)
  | undefinedVariable (span : Span) (name : String) (suggestion : Option String)
  | undefinedFunction (span : Span) (name : String) (suggestion : Option String)
  | undefinedField (span : Span) (type : ValueType) (field : String) (suggestion : Option String)
  | undefinedType (span : Span) (name : String) (suggestion : Option String)
  | undefinedModule (span : Span) (name : String) (suggestion : Option String)
  | unresolvedCall (span : Span) (signature : String)
  | mismatchedTypes (span : Span) (found expected : ValueType)
  | mismatchedDefault (span : Span) (value : Value) (type : ValueType)
  /-- An output is emitted with a type other than the one it was first emitted with. -/
  | conflictingOutput (span firstSpan : Span) (name : String) (first second : ValueType)
  | misplacedReturn (span : Span)
  | missingReturnValue (span : Span) (name : String)
  | untypedDeclaration (span : Span) (name : String)
  | recursiveCall (span : Span) (name : String)
deriving DecidableEq, Repr

namespace CompileError

def span : CompileError → Span
  | duplicateDeclaration s .. | undefinedVariable s .. | undefinedFunction s ..
  | undefinedField s .. | undefinedType s .. | undefinedModule s .. | unresolvedCall s ..
  | mismatchedTypes s .. | mismatchedDefault s .. | conflictingOutput s .. | misplacedReturn s
  | missingReturnValue s .. | untypedDeclaration s .. | recursiveCall s .. => s

/-- A name that may have been meant. -/
def suggestion : CompileError → Option String
  | undefinedVariable _ _ n | undefinedFunction _ _ n | undefinedField _ _ _ n
  | undefinedType _ _ n | undefinedModule _ _ n => n
  | _ => none

def message : CompileError → String
  | duplicateDeclaration _ n => s!"`{n}` is already declared in this scope"
  | undefinedVariable _ n _ => s!"cannot find variable `{n}` in scope"
  | undefinedFunction _ n _ => s!"cannot find function `{n}`"
  | undefinedField _ t f _ => s!"no field `{f}` on type `{t.name}`"
  | undefinedType _ n _ => s!"cannot find type `{n}`"
  | undefinedModule _ n _ => s!"cannot find module `{n}`"
  | unresolvedCall _ s => s!"unable to resolve call `{s}`"
  | mismatchedTypes _ t u => s!"cannot convert type `{t.name}` to `{u.name}`"
  | mismatchedDefault _ v t => s!"default value `{v.text}` does not fit type `{t.name}`"
  | conflictingOutput _ _ n t u =>
    s!"output `{n}` has conflicting types `{t.name}` and `{u.name}`"
  | misplacedReturn _ => "`return` outside of the top level of a function body"
  | missingReturnValue _ n => s!"call to `{n}` does not return a value"
  | untypedDeclaration _ n => s!"cannot infer the type of `{n}`"
  | recursiveCall _ n => s!"recursive call to `{n}`"

def labels : CompileError → List Label
  | conflictingOutput s s' _ t u =>
    [{ primary := true, span := s, message := s!"emitted as {u.name}" },
     { primary := false, span := s', message := s!"first emitted as {t.name}" }]
  | e =>
    let text := match e with
      | duplicateDeclaration .. => "redeclared here"
      | undefinedVariable .. => "unbound name"
      | undefinedFunction .. => "unknown function"
      | undefinedField _ t _ _ => s!"expression of type {t.name}"
      | undefinedType .. => "unknown type"
      | undefinedModule .. => "unknown module"
      | unresolvedCall .. => "no matching overload"
      | mismatchedTypes _ _ expected => s!"expected {expected.name}"
      | mismatchedDefault .. => ""
      | conflictingOutput .. => ""
      | misplacedReturn _ => "unexpected return"
      | missingReturnValue .. => "used as a value here"
      | untypedDeclaration .. => "needs a type or an initializer"
      | recursiveCall .. => "function is already being inlined"
    [{ primary := true, span := e.span, message := text }]

def notes (e : CompileError) : List String :=
  match e.suggestion, e with
  | some n, _ => [s!"help: did you mean `{n}`?"]
  | none, recursiveCall .. => ["recursion cannot be expanded statically"]
  | none, _ => []

def diagnostic (e : CompileError) : Diagnostic :=
  { message := e.message, labels := e.labels, notes := e.notes }

end CompileError

end DataMarks
