/-
  The names that source code mentions: those of variables, and those of the functions that
  it calls. Operators are called by their names too.

  Names that start with `tmp` are kept for temporaries. A name that does not is plain, and so
  are all names that are tried for it (`Name.Plain.candidate`). The library mentions plain
  variables only, and calls few functions (`Library.mentioned_of_mem`).
-/
import DataMarks.Proofs.Loading

namespace DataMarks

open List

namespace Name

/-- A name that does not start like those of temporaries. -/
def Plain (x : String) : Prop := ¬ "tmp".toList <+: x.toList

instance (x : String) : Decidable (Plain x) := inferInstanceAs (Decidable (¬ _))

theorem not_plain_candidate (n : Nat) : ¬ Plain (candidate "tmp" n) := by
  rw [Plain, not_not]
  cases n with
  | zero => exact prefix_rfl
  | succ n =>
    rw [candidate, String.toList_append]
    exact prefix_append _ _

/-- Behind a name come digits, and none of these is in `tmp`. -/
theorem Plain.candidate {x : String} (h : Plain x) (n : Nat) : Plain (candidate x n) := by
  cases n with
  | zero => exact h
  | succ n =>
    rw [Plain, Name.candidate, String.toList_append, Nat.toList_repr]
    intro hprefix
    by_cases hlength : 3 ≤ x.toList.length
    · exact h (prefix_of_prefix_length_le hprefix (prefix_append _ _) hlength)
    · obtain ⟨rest, hrest⟩ := hprefix
      have hshort : x.toList.length ≤ 2 := by omega
      have hp : 'p' ∈ Nat.toDigits 10 (n + 1) := by
        have hget : (x.toList ++ Nat.toDigits 10 (n + 1))[2]? = some 'p' := by
          rw [← hrest]
          rfl
        rw [getElem?_append_right hshort] at hget
        exact mem_of_getElem? hget
      exact absurd (Nat.isDigit_of_mem_toDigits (by decide) (by decide) hp) (by decide)

end Name

namespace Surface

/-- A name that source code uses, by what it is a name of. -/
inductive Mention
  | variable (name : String)
  | function (name : String)
deriving DecidableEq, Repr

mutual

def Expr.mentions : Expr → List Mention
  | .literal .. => []
  | .name _ x => [.variable x]
  | .field _ base _ => base.mentions
  | .call _ f args keywords =>
    .function f :: (Expr.mentionsAll args ++ Expr.mentionsKeywords keywords)
  | .unary _ op arg => .function (Intrinsic.operatorName op.text) :: arg.mentions
  | .binary _ op lhs rhs =>
    .function (Intrinsic.operatorName op.text) :: (lhs.mentions ++ rhs.mentions)

def Expr.mentionsAll : List Expr → List Mention
  | [] => []
  | e :: es => e.mentions ++ Expr.mentionsAll es

def Expr.mentionsKeywords : List (String × Expr) → List Mention
  | [] => []
  | (_, e) :: es => e.mentions ++ Expr.mentionsKeywords es

end

mutual

def Stmt.mentions : Stmt → List Mention
  | .expr e => e.mentions
  | .declare _ x _ init => .variable x :: (init.toList.flatMap Expr.mentions)
  | .assign _ x value => .variable x :: value.mentions
  | .return_ _ value => value.mentions
  | .discard _ => []
  | .emit _ vs => vs.flatMap fun v => v.flatMap fun a => a.value.mentions
  | .loop _ x _ _ body => .variable x :: body.mentions
  | .branch _ test body rest => test.mentions ++ (body.mentions ++ rest.mentions)
  | .block _ body => Stmt.mentionsAll body

def Alternatives.mentions : Alternatives → List Mention
  | .none => []
  | .otherwise body => body.mentions
  | .elseIf test body rest => test.mentions ++ (body.mentions ++ rest.mentions)

def Stmt.mentionsAll : List Stmt → List Mention
  | [] => []
  | s :: ss => s.mentions ++ Stmt.mentionsAll ss

end

def Function.mentions (f : Function) : List Mention :=
  f.params.map (fun p => .variable p.name) ++ Stmt.mentionsAll f.body

/-- What the functions of a file mention, and its globals. -/
def File.mentions (file : File) : List Mention :=
  file.globals.map (fun g => .variable g.name) ++ file.functions.flatMap Function.mentions

/-- Variables have plain names. -/
def Mention.Plain : Mention → Prop
  | .variable x => Name.Plain x
  | .function _ => True

instance : (m : Mention) → Decidable m.Plain
  | .variable x => inferInstanceAs (Decidable (Name.Plain x))
  | .function _ => inferInstanceAs (Decidable True)

end Surface

namespace Library

/-- The functions that the library calls. -/
def called : List String :=
  ["@+", "@-", "@*", "@/", "Vector2", "Vector3", "cos", "sin", "normalize", "cross",
    "get_camera_direction", "Triangle", "Rectangle"]

/-- A mention of a plain variable, or of a function that the library calls. -/
def Mentioned : Surface.Mention → Prop
  | .variable x => Name.Plain x
  | .function f => f ∈ called

instance : DecidablePred Mentioned
  | .variable x => inferInstanceAs (Decidable (Name.Plain x))
  | .function f => inferInstanceAs (Decidable (f ∈ called))

theorem mentioned_plane : ∀ f ∈ (read 0 "P2D" plane).functions, ∀ m ∈ f.mentions, Mentioned m := by
  rw [functions_read, plane, String.toList_ofList]
  decide +kernel

theorem mentioned_solid : ∀ f ∈ (read 1 "P3D" solid).functions, ∀ m ∈ f.mentions, Mentioned m := by
  rw [functions_read, solid, String.toList_ofList]
  decide +kernel

theorem mentioned_of_mem {m : Module} (hm : m ∈ modules) {f : Surface.Function}
    (hf : f ∈ m.functions) : ∀ mention ∈ f.mentions, Mentioned mention := by
  rw [modules_eq] at hm
  rcases mem_cons.mp hm with rfl | hm
  · exact mentioned_plane f hf
  · obtain rfl := mem_singleton.mp hm
    exact mentioned_solid f hf

theorem plain_of_mem {m : Module} (hm : m ∈ modules) {f : Surface.Function}
    (hf : f ∈ m.functions) : ∀ mention ∈ f.mentions, mention.Plain := by
  intro mention hmention
  have hmentioned := mentioned_of_mem hm hf mention hmention
  cases mention with
  | «variable» x => exact hmentioned
  | function f => trivial

end Library

end DataMarks
