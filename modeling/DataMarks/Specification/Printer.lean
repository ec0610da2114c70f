/-
  The printed form of specifications and of the vertices they emit.
-/
import DataMarks.Document
import DataMarks.Specification

namespace DataMarks

open Document

namespace Printer

/-- The depth of a block. -/
def indent : Nat := 4

/-- Items on lines of their own between two delimiters, or all on one line. -/
def delimited (opening : Document) (gap : Document) (items : List Document) (closing : String) :
    Document :=
  group (concat
    [opening, nest indent (gap ++ join (text "," ++ space) items), gap, text closing])

/-- Lines between braces, deeper by one step. -/
def block (body : Document) : Document :=
  concat [text "\x7b", nest indent (hardLine ++ body), hardLine, text "\x7d"]

def declaration (name : String) (t : ValueType) : Document :=
  concat [text name, text ": ", text t.name]

/-- A constant; a float that is whole is marked as a float. -/
def constant (t : ValueType) (v : Value) : String :=
  match t, v with
  | .float, .scalar x => if x - Number.trunc x == 0 then v.text ++ ".0" else v.text
  | _, _ => v.text

mutual

def expr : Expr → Document
  | .const t v => text (constant t v)
  | .var _ n => text n
  | .field _ base f => expr base ++ text "." ++ text f
  | .call _ f args => delimited (text f ++ text "(") softBreak (exprs args) ")"

def exprs : List Expr → List Document
  | [] => []
  | e :: es => expr e :: exprs es

end

mutual

def stmt : Stmt → Document
  | .assign x e => group (concat [text x, text " =", nest indent (space ++ expr e), text ";"])
  | .emit attributes =>
    let attr (a : String × Expr) := concat [text a.1, text ": ", expr a.2]
    delimited (text "emit \x7b") space (attributes.map attr) "\x7d;"
  | .condition test thenBody elseBody =>
    let first := concat [text "if (", expr test, text ") ", block (join hardLine (stmts thenBody))]
    match elseBody with
    | [] => first
    | _ :: _ => first ++ text " else " ++ block (join hardLine (stmts elseBody))
  | .loop x first last body =>
    concat [text ("for (" ++ x ++ " in " ++ toString first ++ ".." ++ toString last ++ ") "),
      block (join hardLine (stmts body))]
  | .discard => text "discard;"

def stmts : List Stmt → List Document
  | [] => []
  | s :: ss => stmt s :: stmts ss

end

end Printer

/-- A specification under a name. -/
def Specification.document (name : String) (s : Specification) : Document :=
  let input (i : String × Input) :=
    let default := match i.2.default with
      | some v => text " = " ++ text v.text
      | none => empty
    concat [text "input ", Printer.declaration i.1 i.2.type, default, text ";"]
  let output (o : String × ValueType) :=
    concat [text "output ", Printer.declaration o.1 o.2, text ";"]
  let var (v : String × ValueType) :=
    concat [text "var ", Printer.declaration v.1 v.2, text ";"]
  let repeats := s.repeats.toList.map fun (before, after) =>
    text ("repeat " ++ toString before ++ ".." ++ toString after ++ ";")
  let lines := s.inputs.map input ++ s.outputs.map output ++ s.locals.map var ++ repeats
    ++ Printer.stmts s.statements
  concat [text s.keyword, text " ", text name, text " ",
    Printer.block (join hardLine lines)]

/-- A vertex behind its index. -/
def Vertex.document (index : Nat) (v : Vertex) : Document :=
  let attr (a : String × Value) := concat [text a.1, text ": ", text a.2.text]
  Printer.delimited (text (toString index ++ ": \x7b")) space (v.map attr) "\x7d"

end DataMarks
