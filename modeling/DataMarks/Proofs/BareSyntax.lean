/-
  Syntax apart from where it stands. `bare` puts one and the same span everywhere, so that two
  trees are the same up to their places exactly if their bare trees are equal.
-/
import DataMarks.Surface

namespace DataMarks.Surface

open List

/-- The span that bare syntax has everywhere. -/
def nowhere : Span := ⟨0, 0, 0⟩

def TypeName.bare (t : TypeName) : TypeName := { t with span := nowhere }

mutual

def Expr.bare : Expr → Expr
  | .literal _ t v => .literal nowhere t v
  | .name _ x => .name nowhere x
  | .field _ base f => .field nowhere base.bare f
  | .call _ f args keywords => .call nowhere f (Expr.bareAll args) (Expr.bareKeywords keywords)
  | .unary _ op arg => .unary nowhere op arg.bare
  | .binary _ op lhs rhs => .binary nowhere op lhs.bare rhs.bare

def Expr.bareAll : List Expr → List Expr
  | [] => []
  | e :: es => e.bare :: Expr.bareAll es

def Expr.bareKeywords : List (String × Expr) → List (String × Expr)
  | [] => []
  | (k, e) :: es => (k, e.bare) :: Expr.bareKeywords es

end

theorem Expr.bareAll_eq_map (es : List Expr) : Expr.bareAll es = es.map Expr.bare := by
  induction es with
  | nil => rfl
  | cons e es ih => rw [Expr.bareAll, ih, map_cons]

theorem Expr.bareKeywords_eq_map (es : List (String × Expr)) :
    Expr.bareKeywords es = es.map fun e => (e.1, e.2.bare) := by
  induction es with
  | nil => rfl
  | cons e es ih => rw [Expr.bareKeywords, ih, map_cons]

def Attribute.bare (a : Attribute) : Attribute :=
  { span := nowhere, name := a.name, value := a.value.bare }

mutual

def Stmt.bare : Stmt → Stmt
  | .expr e => .expr e.bare
  | .declare _ x t init => .declare nowhere x (t.map TypeName.bare) (init.map Expr.bare)
  | .assign _ x value => .assign nowhere x value.bare
  | .return_ _ value => .return_ nowhere value.bare
  | .discard _ => .discard nowhere
  | .emit _ vertices => .emit nowhere (vertices.map fun v => v.map Attribute.bare)
  | .loop _ x first last body => .loop nowhere x first last body.bare
  | .branch _ test body rest => .branch nowhere test.bare body.bare rest.bare
  | .block _ body => .block nowhere (Stmt.bareAll body)

def Alternatives.bare : Alternatives → Alternatives
  | .none => .none
  | .otherwise body => .otherwise body.bare
  | .elseIf test body rest => .elseIf test.bare body.bare rest.bare

def Stmt.bareAll : List Stmt → List Stmt
  | [] => []
  | s :: ss => s.bare :: Stmt.bareAll ss

end

theorem Stmt.bareAll_eq_map (ss : List Stmt) : Stmt.bareAll ss = ss.map Stmt.bare := by
  induction ss with
  | nil => rfl
  | cons s ss ih => rw [Stmt.bareAll, ih, map_cons]

def Param.bare (p : Param) : Param := { p with span := nowhere, type := p.type.bare }

def Function.bare (f : Function) : Function :=
  { f with
    span := nowhere
    params := f.params.map Param.bare
    returns := f.returns.map TypeName.bare
    body := f.body.map Stmt.bare }

def Global.bare (g : Global) : Global := { g with span := nowhere, type := g.type.bare }

def Import.bare (i : Import) : Import :=
  { i with
    span := nowhere
    names := i.names.map fun names => names.map fun n => (nowhere, n.2) }

def Block.bare : Block → Block
  | .function f => .function f.bare
  | .global g => .global g.bare
  | .import_ i => .import_ i.bare

def File.bare (file : File) : File := ⟨file.blocks.map Block.bare⟩

end DataMarks.Surface
