/-
  Well-typed specifications, and what intrinsics do to the shapes of values.

  Whether a type accepts a value depends on the shape of the value alone: one number, or
  so many numbers in a vector. `Operation.shape?` runs an operation on shapes, and
  `Operation.run_of_shape?` says that it does so rightly. Over the whole catalog, the shape
  that an operation gives is the one its intrinsic declares (`Catalog.shape?_operation`).
-/
import DataMarks.Evaluation
import Mathlib.Data.List.Basic

namespace DataMarks

open List Value

/-! ## Well-typed code -/

namespace Expr

mutual

/-- Every constant has the shape of its type, every field is one of its base, and every call goes
to an intrinsic of the catalog with arguments of the types of its parameters. -/
def WellTyped : Expr → Prop
  | const t v => t.accepts v = true
  | var .. => True
  | field t base f => base.WellTyped ∧ Catalog.fieldType? base.type f = some t
  | call t f args =>
    WellTypedAll args ∧ ∃ i ∈ Catalog.find? f, i.params = args.map type ∧ i.returns = t

def WellTypedAll : List Expr → Prop
  | [] => True
  | e :: es => e.WellTyped ∧ WellTypedAll es

end

mutual

def decidableWellTyped : (e : Expr) → Decidable e.WellTyped
  | const t v => inferInstanceAs (Decidable (t.accepts v = true))
  | var .. => inferInstanceAs (Decidable True)
  | field t base f =>
    have := decidableWellTyped base
    inferInstanceAs (Decidable (base.WellTyped ∧ Catalog.fieldType? base.type f = some t))
  | call t f args =>
    have := decidableWellTypedAll args
    inferInstanceAs (Decidable
      (WellTypedAll args ∧ ∃ i ∈ Catalog.find? f, i.params = args.map type ∧ i.returns = t))

def decidableWellTypedAll : (es : List Expr) → Decidable (WellTypedAll es)
  | [] => inferInstanceAs (Decidable True)
  | e :: es =>
    have := decidableWellTyped e
    have := decidableWellTypedAll es
    inferInstanceAs (Decidable (e.WellTyped ∧ WellTypedAll es))

end

instance (e : Expr) : Decidable e.WellTyped := decidableWellTyped e

end Expr

namespace Stmt

mutual

/-- The expressions that a statement evaluates. -/
def exprs : Stmt → List Expr
  | assign _ e => [e]
  | emit attributes => attributes.map Prod.snd
  | condition test thenBody elseBody => test :: (exprsAll thenBody ++ exprsAll elseBody)
  | loop _ _ _ body => exprsAll body
  | discard => []

def exprsAll : List Stmt → List Expr
  | [] => []
  | s :: ss => s.exprs ++ exprsAll ss

end

mutual

/-- The tests of conditions. -/
def tests : Stmt → List Expr
  | assign .. | emit _ | discard => []
  | condition test thenBody elseBody => test :: (testsAll thenBody ++ testsAll elseBody)
  | loop _ _ _ body => testsAll body

def testsAll : List Stmt → List Expr
  | [] => []
  | s :: ss => s.tests ++ testsAll ss

end

end Stmt

/-- Variables are used at the types they are declared with, expressions and defaults are well
typed, and what is emitted has the type of its output. -/
structure Specification.WellTyped (s : Specification) : Prop where
  declared : s.undeclared = []
  exprs : ∀ e ∈ Stmt.exprsAll s.statements, e.WellTyped
  defaults : ∀ x input v, s.inputs.get? x = some input → input.default = some v →
    input.type.accepts v = true
  emitted : ∀ attributes ∈ Stmt.emitsAll s.statements, ∀ a ∈ attributes,
    s.outputs.get? a.1 = some a.2.type

/-! ## Shapes -/

inductive Shape
  | scalar
  | vector (n : Nat)
deriving DecidableEq, Repr

def Value.shape : Value → Shape
  | scalar _ => .scalar
  | vector xs => .vector xs.length

/-- The shape of the values of a type; textures have none. -/
def ValueType.shape? (t : ValueType) : Option Shape :=
  if t.isTexture then none
  else if t.components = 1 then some .scalar
  else some (.vector t.components)

theorem ValueType.accepts_iff {t : ValueType} {v : Value} :
    t.accepts v = true ↔ t.shape? = some v.shape := by
  have hpos := t.components_pos
  cases ht : t.isTexture with
  | true => cases v <;> simp [accepts, shape?, ht]
  | false =>
    by_cases hone : t.components = 1
    · cases v <;> simp [accepts, shape?, shape, ht, hone]
    · have hmany : 1 < t.components := by omega
      cases v with
      | scalar x => simp [accepts, shape?, shape, ht, hone]
      | vector xs =>
        have haccepts : t.accepts (.vector xs) = (xs.length == t.components) := by
          simp [accepts, ht, hmany]
        have hshape : t.shape? = some (.vector t.components) := by simp [shape?, ht, hone]
        rw [haccepts, hshape, beq_iff_eq, Option.some.injEq, shape, Shape.vector.injEq]
        exact eq_comm

theorem Value.eq_scalar_of_shape {v : Value} (h : v.shape = .scalar) : ∃ x, v = scalar x := by
  cases v with
  | scalar x => exact ⟨x, rfl⟩
  | vector xs => cases h

theorem Value.eq_vector_of_shape {v : Value} {n : Nat} (h : v.shape = .vector n) :
    ∃ xs, v = vector xs ∧ xs.length = n := by
  cases v with
  | scalar x => cases h
  | vector xs =>
    cases h
    exact ⟨xs, rfl, rfl⟩

theorem Value.shape_map (f : Float → Float) (v : Value) : (v.map f).shape = v.shape := by
  cases v with
  | scalar x => rfl
  | vector xs => exact congrArg Shape.vector (length_map f)

/-- The shape of what two values combine to, component by component. -/
def Shape.zip? : Shape → Shape → Option Shape
  | scalar, s => some s
  | s, scalar => some s
  | vector m, vector n => if m = n then some (vector m) else none

theorem Value.zipWith?_of_shape {f : Float → Float → Float} {a b : Value} {s : Shape}
    (h : a.shape.zip? b.shape = some s) : ∃ v, zipWith? f a b = some v ∧ v.shape = s := by
  cases a with
  | scalar x =>
    cases b with
    | scalar y => exact ⟨_, rfl, by cases h; rfl⟩
    | vector ys => exact ⟨_, rfl, by cases h; exact congrArg Shape.vector (length_map _)⟩
  | vector xs =>
    cases b with
    | scalar y => exact ⟨_, rfl, by cases h; exact congrArg Shape.vector (length_map _)⟩
    | vector ys =>
      simp only [shape, Shape.zip?] at h
      split at h
      · rename_i hlen
        cases h
        refine ⟨_, if_pos hlen, ?_⟩
        simp [shape, hlen]
      · cases h

/-- One shape, given that the arguments have given ones. -/
def Shape.expect (params : List Shape) (result : Shape) (args : List Shape) : Option Shape :=
  if args = params then some result else none

theorem Shape.expect_eq_some {params args : List Shape} {result s : Shape} :
    expect params result args = some s ↔ args = params ∧ result = s := by
  unfold expect
  split
  · rename_i h
    simp [h]
  · rename_i h
    simp [h]

namespace Operation

open Shape (expect)

/-- The shape of what an operation gives for arguments of given shapes. -/
def shape? (o : Operation) (args : List Shape) : Option Shape :=
  match o with
  | arithmetic _ =>
    match args with
    | [a, b] => a.zip? b
    | _ => none
  | mix =>
    match args with
    | [a, b, .scalar] => a.zip? b
    | _ => none
  | identity | negate | normalize | convert =>
    match args with
    | [a] => some a
    | _ => none
  | not | length => if args.length = 1 then some .scalar else none
  | and | or | dot => if args.length = 2 then some .scalar else none
  | elementary _ => expect [.scalar] .scalar args
  | scalarArithmetic _ | quotient | remainder | modulo | compare _ | atan2 | minimum | maximum =>
    expect [.scalar, .scalar] .scalar args
  | clamp => expect [.scalar, .scalar, .scalar] .scalar args
  | opaqueColor => expect [.scalar, .scalar, .scalar] (.vector 4) args
  | gray => expect [.scalar, .scalar] (.vector 4) args
  | opaqueGray => expect [.scalar] (.vector 4) args
  | cross => expect [.vector 3, .vector 3] (.vector 3) args
  | construct => expect (List.replicate args.length .scalar) (.vector args.length) args

/-- The operations that have no result for some numbers. -/
def Partial (o : Operation) : Prop := o = quotient ∨ o = remainder

section Run

variable {args : List Value} {a b c : Shape}

theorem args₁ (h : args.map shape = [a]) : ∃ v, args = [v] ∧ v.shape = a := by
  obtain ⟨v, rest, rfl, hv, hrest⟩ := map_eq_cons_iff.mp h
  obtain rfl := map_eq_nil_iff.mp hrest
  exact ⟨v, rfl, hv⟩

theorem args₂ (h : args.map shape = [a, b]) :
    ∃ v w, args = [v, w] ∧ v.shape = a ∧ w.shape = b := by
  obtain ⟨v, rest, rfl, hv, hrest⟩ := map_eq_cons_iff.mp h
  obtain ⟨w, rfl, hw⟩ := args₁ hrest
  exact ⟨v, w, rfl, hv, hw⟩

theorem args₃ (h : args.map shape = [a, b, c]) :
    ∃ v w x, args = [v, w, x] ∧ v.shape = a ∧ w.shape = b ∧ x.shape = c := by
  obtain ⟨v, rest, rfl, hv, hrest⟩ := map_eq_cons_iff.mp h
  obtain ⟨w, x, rfl, hw, hx⟩ := args₂ hrest
  exact ⟨v, w, x, rfl, hv, hw, hx⟩

theorem scalars₁ (h : args.map shape = [.scalar]) : ∃ x, args = [.scalar x] := by
  obtain ⟨v, rfl, hv⟩ := args₁ h
  obtain ⟨x, rfl⟩ := eq_scalar_of_shape hv
  exact ⟨x, rfl⟩

theorem scalars₂ (h : args.map shape = [.scalar, .scalar]) :
    ∃ x y, args = [.scalar x, .scalar y] := by
  obtain ⟨v, w, rfl, hv, hw⟩ := args₂ h
  obtain ⟨x, rfl⟩ := eq_scalar_of_shape hv
  obtain ⟨y, rfl⟩ := eq_scalar_of_shape hw
  exact ⟨x, y, rfl⟩

theorem scalars₃ (h : args.map shape = [.scalar, .scalar, .scalar]) :
    ∃ x y z, args = [.scalar x, .scalar y, .scalar z] := by
  obtain ⟨u, v, w, rfl, hu, hv, hw⟩ := args₃ h
  obtain ⟨x, rfl⟩ := eq_scalar_of_shape hu
  obtain ⟨y, rfl⟩ := eq_scalar_of_shape hv
  obtain ⟨z, rfl⟩ := eq_scalar_of_shape hw
  exact ⟨x, y, z, rfl⟩

theorem length_filterMap_scalar? (h : ∀ v ∈ args, v.shape = .scalar) :
    (args.filterMap scalar?).length = args.length := by
  induction args with
  | nil => rfl
  | cons v rest ih =>
    obtain ⟨x, rfl⟩ := eq_scalar_of_shape (h v mem_cons_self)
    have hrest := ih fun w hw => h w (mem_cons_of_mem _ hw)
    show (x :: rest.filterMap scalar?).length = _
    rw [length_cons, length_cons, hrest]

/-- An operation gives a value of the shape that is due, or it is one of those that have no result
for some numbers. -/
theorem run_of_shape? {o : Operation} {s : Shape} (h : o.shape? (args.map shape) = some s) :
    (∃ v, o.run args = some v ∧ v.shape = s) ∨ o.Partial ∧ o.run args = none := by
  cases o with
  | arithmetic op =>
    left
    simp only [shape?] at h
    split at h
    · rename_i a b hargs
      obtain ⟨v, w, rfl, rfl, rfl⟩ := args₂ hargs
      exact zipWith?_of_shape h
    · cases h
  | mix =>
    left
    simp only [shape?] at h
    split at h
    · rename_i a b hargs
      obtain ⟨v, w, x, rfl, rfl, rfl, hx⟩ := args₃ hargs
      obtain ⟨t, rfl⟩ := eq_scalar_of_shape hx
      exact zipWith?_of_shape h
    · cases h
  | identity | convert =>
    left
    simp only [shape?] at h
    split at h
    · rename_i a hargs
      obtain ⟨v, rfl, rfl⟩ := args₁ hargs
      cases h
      exact ⟨v, rfl, rfl⟩
    · cases h
  | negate | normalize =>
    left
    simp only [shape?] at h
    split at h
    · rename_i a hargs
      obtain ⟨v, rfl, rfl⟩ := args₁ hargs
      cases h
      exact ⟨_, rfl, shape_map _ v⟩
    · cases h
  | not | length =>
    left
    simp only [shape?, length_map] at h
    split at h
    · rename_i hlen
      obtain ⟨v, rfl⟩ := length_eq_one_iff.mp hlen
      cases h
      exact ⟨_, rfl, rfl⟩
    · cases h
  | and | or | dot =>
    left
    simp only [shape?, length_map] at h
    split at h
    · rename_i hlen
      obtain ⟨v, w, rfl⟩ := length_eq_two.mp hlen
      cases h
      exact ⟨_, rfl, rfl⟩
    · cases h
  | elementary f =>
    obtain ⟨hargs, rfl⟩ := Shape.expect_eq_some.mp h
    obtain ⟨x, rfl⟩ := scalars₁ hargs
    exact .inl ⟨_, rfl, rfl⟩
  | opaqueGray =>
    obtain ⟨hargs, rfl⟩ := Shape.expect_eq_some.mp h
    obtain ⟨x, rfl⟩ := scalars₁ hargs
    exact .inl ⟨_, rfl, rfl⟩
  | scalarArithmetic _ | modulo | compare _ | atan2 | minimum | maximum | gray =>
    obtain ⟨hargs, rfl⟩ := Shape.expect_eq_some.mp h
    obtain ⟨x, y, rfl⟩ := scalars₂ hargs
    exact .inl ⟨_, rfl, rfl⟩
  | quotient =>
    obtain ⟨hargs, rfl⟩ := Shape.expect_eq_some.mp h
    obtain ⟨x, y, rfl⟩ := scalars₂ hargs
    simp only [run]
    split
    · exact .inr ⟨.inl rfl, rfl⟩
    · exact .inl ⟨_, rfl, rfl⟩
  | remainder =>
    obtain ⟨hargs, rfl⟩ := Shape.expect_eq_some.mp h
    obtain ⟨x, y, rfl⟩ := scalars₂ hargs
    simp only [run]
    split
    · exact .inr ⟨.inr rfl, rfl⟩
    · exact .inl ⟨_, rfl, rfl⟩
  | clamp | opaqueColor =>
    obtain ⟨hargs, rfl⟩ := Shape.expect_eq_some.mp h
    obtain ⟨x, y, z, rfl⟩ := scalars₃ hargs
    exact .inl ⟨_, rfl, rfl⟩
  | cross =>
    obtain ⟨hargs, rfl⟩ := Shape.expect_eq_some.mp h
    obtain ⟨v, w, rfl, hv, hw⟩ := args₂ hargs
    obtain ⟨xs, rfl, hxs⟩ := eq_vector_of_shape hv
    obtain ⟨ys, rfl, hys⟩ := eq_vector_of_shape hw
    obtain ⟨x₀, x₁, x₂, rfl⟩ := length_eq_three.mp hxs
    obtain ⟨y₀, y₁, y₂, rfl⟩ := length_eq_three.mp hys
    exact .inl ⟨_, rfl, rfl⟩
  | construct =>
    obtain ⟨hargs, rfl⟩ := Shape.expect_eq_some.mp h
    rw [length_map] at hargs ⊢
    refine .inl ⟨_, rfl, ?_⟩
    show Shape.vector (args.filterMap scalar?).length = _
    rw [length_filterMap_scalar?]
    intro v hv
    have hmem : v.shape ∈ args.map shape := mem_map_of_mem hv
    rw [hargs] at hmem
    exact eq_of_mem_replicate hmem

end Run

end Operation

/-! ## The catalog -/

/-- The operation of an intrinsic gives, for arguments of the shapes of the parameters, the shape
of the declared result. One with a texture among its parameters is never run. -/
def Intrinsic.WellShaped (i : Intrinsic) : Prop :=
  ∀ o ∈ i.operation, ∀ shapes ∈ i.params.mapM ValueType.shape?,
    o.shape? shapes = i.returns.shape? ∧ i.returns.shape?.isSome

instance (i : Intrinsic) : Decidable i.WellShaped :=
  inferInstanceAs (Decidable (∀ o ∈ i.operation, ∀ shapes ∈ i.params.mapM ValueType.shape?, _))

instance (o : Operation) : Decidable o.Partial := inferInstanceAs (Decidable (_ ∨ _))

namespace Catalog

theorem wellShaped_of_mem : ∀ i ∈ intrinsics, i.WellShaped := by decide +kernel

/-- The quotient and the remainder of integers. -/
def partialNames : List String :=
  [Intrinsic.signature (Intrinsic.operatorName "/") [.int, .int] .int,
   Intrinsic.signature (Intrinsic.operatorName "%") [.int, .int] .int]

theorem mem_partialNames : ∀ i ∈ intrinsics, ∀ o ∈ i.operation, o.Partial →
    i.internalName ∈ partialNames := by decide +kernel

theorem mem_of_find? {f : String} {i : Intrinsic} (h : find? f = some i) :
    i ∈ intrinsics ∧ i.internalName = f := by
  obtain ⟨before, after, hsplit, -⟩ := lookup_eq_some_iff.mp h
  have hmem : (f, i) ∈ directory := by
    rw [hsplit]
    exact mem_append_right _ mem_cons_self
  obtain ⟨j, hj, heq⟩ := mem_map.mp hmem
  cases heq
  exact ⟨hj, rfl⟩

/-- A field of a type is there in every value of the type. -/
theorem fieldIndex?_of_mem : ∀ t ∈ ValueType.all, ∀ f ∈ fieldNames t,
    t.shape? = some (.vector t.components) ∧ ∃ i ∈ fieldIndex? f, i < t.components := by
  decide +kernel

theorem field?_of_accepts {base t : ValueType} {f : String} {v : Value}
    (hf : fieldType? base f = some t) (hv : base.accepts v = true) :
    ∃ x, v.field? f = some x ∧ t.accepts (.scalar x) = true := by
  unfold fieldType? at hf
  split at hf
  · rename_i hmem
    cases hf
    obtain ⟨hshape, i, hi, hlt⟩ := fieldIndex?_of_mem base base.mem_all f hmem
    rw [ValueType.accepts_iff, hshape, Option.some.injEq] at hv
    obtain ⟨xs, rfl, hlen⟩ := eq_vector_of_shape hv.symm
    have hxs : i < xs.length := by omega
    have hget : (vector xs).field? f = some xs[i] := by
      unfold field?
      rw [hi]
      exact getElem?_eq_getElem hxs
    exact ⟨_, hget, rfl⟩
  · cases hf

end Catalog

end DataMarks
