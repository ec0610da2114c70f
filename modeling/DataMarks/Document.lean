/-
  Documents with a choice of layout. A group is laid out on one line if it fits
  there together with what follows it up to the next line break; otherwise all
  the breaks that belong to it are taken.
-/
import DataMarks.Text.Cluster

namespace DataMarks

open Text (columns)

inductive Document
  | empty
  | text (s : String)
  /-- A line break in a group that is broken, and `flat` in one that is not. -/
  | line (flat : String)
  /-- A line break in any case. -/
  | hardLine
  | append (a b : Document)
  /-- Indents the lines after breaks inside by so much more. -/
  | nest (indent : Nat) (d : Document)
  | group (d : Document)
deriving DecidableEq, Repr, Inhabited

namespace Document

instance : Append Document := ⟨append⟩

/-- A break that is a space on one line. -/
def space : Document := line " "

/-- A break that is nothing on one line. -/
def softBreak : Document := line ""

def concat (ds : List Document) : Document := ds.foldr append empty

/-- The documents with a separator between each two. -/
def join (separator : Document) : List Document → Document
  | [] => empty
  | [d] => d
  | d :: ds => append d (append separator (join separator ds))

/-- Whether the group around a part of the document is on one line. -/
inductive Mode
  | flat
  | broken
deriving DecidableEq, Repr

/-- How far a piece of a line reaches. -/
inductive Extent
  /-- Past the page. -/
  | overfull
  /-- Up to a line break. -/
  | ended
  /-- Up to a column, with more to come. -/
  | upTo (column : Nat)
deriving DecidableEq, Repr

/-- The extent of a document that starts at a column. -/
def extent (width : Nat) (mode : Mode) : Document → Nat → Extent
  | empty, column => .upTo column
  | text s, column =>
    if column + columns s ≤ width then .upTo (column + columns s) else .overfull
  | line s, column =>
    match mode with
    | .broken => .ended
    | .flat =>
      if s.isEmpty then .upTo column
      else if column + columns s ≤ width then .upTo (column + columns s)
      else .overfull
  | hardLine, _ => .ended
  | append a b, column =>
    match extent width mode a column with
    | .upTo c => extent width mode b c
    | e => e
  | nest _ d, column => extent width mode d column
  | group d, column => extent width mode d column

/-- Whether documents in broken groups, one after the other, stay on the page up to the first line
break. -/
def restFits (width : Nat) : List Document → Nat → Bool
  | [], _ => true
  | d :: ds, column =>
    match extent width .broken d column with
    | .overfull => false
    | .ended => true
    | .upTo c => restFits width ds c

/-- Whether a document on one line, and what follows it, stay on the page. -/
def fits (width : Nat) (d : Document) (rest : List Document) (column : Nat) : Bool :=
  match extent width .flat d column with
  | .overfull => false
  | .ended => true
  | .upTo c => restFits width rest c

/-- The text written so far and the column reached. -/
structure Page where
  text : String := ""
  column : Nat := 0
deriving DecidableEq, Repr

def Page.write (p : Page) (s : String) : Page := ⟨p.text ++ s, p.column + columns s⟩

def Page.newLine (p : Page) (indent : Nat) : Page :=
  ⟨p.text ++ "\n" ++ String.ofList (List.replicate indent ' '), indent⟩

/-- Writes a document on a page; `rest` is what will follow it. -/
def layout (width : Nat) : Mode → Nat → List Document → Document → Page → Page
  | _, _, _, empty, p => p
  | _, _, _, text s, p => p.write s
  | mode, indent, _, line s, p =>
    match mode with
    | .flat => p.write s
    | .broken => p.newLine indent
  | _, indent, _, hardLine, p => p.newLine indent
  | mode, indent, rest, append a b, p =>
    layout width mode indent rest b (layout width mode indent (b :: rest) a p)
  | mode, indent, rest, nest n d, p => layout width mode (indent + n) rest d p
  | mode, indent, rest, group d, p =>
    match mode with
    | .flat => layout width .flat indent rest d p
    | .broken =>
      let inner := if fits width d rest p.column then .flat else .broken
      layout width inner indent rest d p

/-- The text of a document on a page of a width. -/
def render (width : Nat) (d : Document) : String := (layout width .broken 0 [] d {}).text

end Document

end DataMarks
