/-
  What the source does with names while a mark is compiled.

  The source declares a variable under a name, or mentions one by it; where a call is
  expanded, so does the body of the function. `Surface.File.uses` lists all this in order, up
  to the step that fails if there is one. Each use stands at a `Site`: the names that the
  source binds around it, and those that its own block has declared before it. Nothing of the
  scopes of the compilation is in a site, so temporaries are in none.

  `Judges` says that a step is rejected for a use of a name exactly where the sites say so.
-/
import DataMarks.Proofs.AcceptedFiles
import DataMarks.Proofs.FreeNames

namespace DataMarks

open List

inductive UseKind
  | mention
  | declaration
deriving DecidableEq, Repr

/-- A place of the source where a name is used. -/
structure Use where
  kind : UseKind
  span : Span
  name : String
deriving DecidableEq, Repr

/-- What the source binds around a place. -/
structure Site where
  binders : Binders
  /-- The names that the block around the place has declared before it. At the top level of a
  function that is expanded, the parameters of the function are among them. -/
  block : List String
deriving Repr

namespace Site

/-- The place behind declarations. -/
def add (p : Site) (new : List String) : Site := ⟨p.binders.add new, new ++ p.block⟩

/-- The start of a block at the place. -/
def nested (p : Site) : Site := { p with block := [] }

/-- The body of a function that is expanded at the place. -/
def enter (p : Site) (params : List String) : Site := ⟨p.binders.enter params, params⟩

/-- What the source says of a use at a place: a name is not to be declared twice in a block, and
not to be mentioned without any binding. -/
def Rejects (globals : List String) (p : Site) : UseKind → String → Prop
  | .mention, x => x ∉ p.binders.names ∧ x ∉ globals
  | .declaration, x => x ∈ p.block

end Site

/-- The use of a name that an error is about. -/
def CompileError.use? : CompileError → Option Use
  | duplicateDeclaration span x => some ⟨.declaration, span, x⟩
  | undefinedVariable span x _ => some ⟨.mention, span, x⟩
  | _ => none

/-- The use of a name that a result is an error about. -/
def rejected {α : Type} : Except CompileError α → Option Use
  | .ok _ => none
  | .error e => e.use?

section Rejected

variable {α : Type} {r : Except CompileError α} {u : Use} {span : Span} {x : String}

theorem rejected_eq_some_iff :
    rejected r = some u ↔ ∃ e : CompileError, e.use? = some u ∧ r = .error e := by
  cases r with
  | ok a => exact iff_of_false (fun h => by cases h) fun h => by obtain ⟨e, -, h⟩ := h; cases h
  | error e =>
    refine ⟨fun h => ⟨e, h, rfl⟩, fun h => ?_⟩
    obtain ⟨_, he, h⟩ := h
    cases h
    exact he

theorem rejected_declaration_iff :
    rejected r = some ⟨.declaration, span, x⟩ ↔ r = .error (.duplicateDeclaration span x) := by
  rw [rejected_eq_some_iff]
  refine ⟨fun h => ?_, fun h => ⟨_, rfl, h⟩⟩
  obtain ⟨e, he, rfl⟩ := h
  cases e <;> cases he
  rfl

theorem rejected_mention_iff : rejected r = some ⟨.mention, span, x⟩ ↔
    ∃ suggestion, r = .error (.undefinedVariable span x suggestion) := by
  rw [rejected_eq_some_iff]
  constructor
  · rintro ⟨e, he, rfl⟩
    cases e <;> cases he
    exact ⟨_, rfl⟩
  · rintro ⟨suggestion, h⟩
    exact ⟨_, rfl, h⟩

end Rejected

/-! ## Uses in the order they are compiled -/

namespace Compile

/-- The uses of names in an expanded call with compiled arguments. -/
abbrev UseTracer := Site → Definition → List Expr → Compiler → List (Use × Site)

def callUses (trace : UseTracer) (p : Site) (name : String) (args : Arguments) (s : Compiler) :
    List (Use × Site) :=
  match s.resolver.resolve name args with
  | .ok (.defined d, fit) => trace p d fit.args s
  | _ => []

mutual

def exprUses (expand : Expander) (trace : UseTracer) (p : Site) :
    Surface.Expr → Compiler → List (Use × Site)
  | .literal .., _ => []
  | .name span x, _ => if (Catalog.constant? x).isSome then [] else [(⟨.mention, span, x⟩, p)]
  | .field _ base _, s => exprUses expand trace p base s
  | .call _ name args keywords, s =>
    exprsUses expand trace p args s ++
      after (exprs expand args) s fun positional s₁ =>
        keywordUses expand trace p keywords s₁ ++
          after (keywordExprs expand keywords) s₁ fun keywords s₂ =>
            callUses trace p name { positional, keywords } s₂
  | .unary _ op arg, s =>
    exprUses expand trace p arg s ++
      after (expr expand arg) s fun e s₁ =>
        callUses trace p (Intrinsic.operatorName op.text) { positional := [e] } s₁
  | .binary _ op lhs rhs, s =>
    exprUses expand trace p lhs s ++
      after (expr expand lhs) s fun l s₁ =>
        exprUses expand trace p rhs s₁ ++
          after (expr expand rhs) s₁ fun r s₂ =>
            callUses trace p (Intrinsic.operatorName op.text) { positional := [l, r] } s₂

def exprsUses (expand : Expander) (trace : UseTracer) (p : Site) :
    List Surface.Expr → Compiler → List (Use × Site)
  | [], _ => []
  | e :: es, s =>
    exprUses expand trace p e s ++
      after (expr expand e) s fun _ s₁ => exprsUses expand trace p es s₁

def keywordUses (expand : Expander) (trace : UseTracer) (p : Site) :
    List (String × Surface.Expr) → Compiler → List (Use × Site)
  | [], _ => []
  | (_, e) :: es, s =>
    exprUses expand trace p e s ++
      after (expr expand e) s fun _ s₁ => keywordUses expand trace p es s₁

end

def attributesUses (expand : Expander) (trace : UseTracer) (p : Site) :
    List Surface.Attribute → Compiler → List (Use × Site)
  | [], _ => []
  | a :: rest, s =>
    exprUses expand trace p a.value s ++
      after (expr expand a.value) s fun e s₁ =>
        after (recordOutput a.span a.name e.type) s₁ fun _ s₂ =>
          attributesUses expand trace p rest s₂

def verticesUses (expand : Expander) (trace : UseTracer) (p : Site) :
    List (List Surface.Attribute) → Compiler → List (Use × Site)
  | [], _ => []
  | v :: rest, s =>
    attributesUses expand trace p v s ++
      after (attributes expand v []) s fun _ s₁ => verticesUses expand trace p rest s₁

/-- The uses in a condition whose branches are given as steps. -/
def conditionUses (expand : Expander) (trace : UseTracer) (p : Site) (test : Surface.Expr)
    (thenStep : Compile Unit) (thenUses elseUses : Compiler → List (Use × Site)) (s : Compiler) :
    List (Use × Site) :=
  exprUses expand trace p test s ++
    after (expr expand test) s fun e s₁ =>
      after (coerce test.span e .bool) s₁ fun _ s₂ =>
        thenUses s₂ ++ after (capture thenStep) s₂ fun _ s₃ => elseUses s₃

mutual

def stmtUses (expand : Expander) (trace : UseTracer) :
    Surface.Stmt → Site → Compiler → List (Use × Site)
  | .expr e, p, s => exprUses expand trace p e s
  | .declare span x type none, p, s =>
    after (valueType? type) s fun t _ => if t.isSome then [(⟨.declaration, span, x⟩, p)] else []
  | .declare span x type (some init), p, s =>
    after (valueType? type) s fun _ s₁ =>
      exprUses expand trace p init s₁ ++
        after (expr expand init) s₁ fun _ _ => [(⟨.declaration, span, x⟩, p)]
  | .assign span x value, p, s =>
    exprUses expand trace p value s ++
      after (expr expand value) s fun _ _ => [(⟨.mention, span, x⟩, p)]
  | .return_ .., _, _ => []
  | .discard _, _, _ => []
  | .emit _ vs, p, s => verticesUses expand trace p vs s
  | .loop span x _ _ body, p, s =>
    [(⟨.declaration, span, x⟩, p.nested)] ++
      after (declare span x .int) (s.push []) fun _ s₁ =>
        stmtUses expand trace body (p.nested.add [x]) s₁
  | .branch _ test body rest, p, s =>
    conditionUses expand trace p test (inBlock (stmt expand body))
      (fun s₁ => stmtUses expand trace body p.nested (s₁.push []))
      (fun s₂ => alternativesUses expand trace rest p s₂) s
  | .block _ body, p, s =>
    stmtsUses expand trace body p.nested (s.push [])

def alternativesUses (expand : Expander) (trace : UseTracer) :
    Surface.Alternatives → Site → Compiler → List (Use × Site)
  | .none, _, _ => []
  | .otherwise body, p, s =>
    stmtUses expand trace body p.nested (s.push [])
  | .elseIf test body rest, p, s =>
    conditionUses expand trace p test (inBlock (stmt expand body))
      (fun s₁ => stmtUses expand trace body p.nested (s₁.push []))
      (fun s₂ => alternativesUses expand trace rest p s₂) s

def stmtsUses (expand : Expander) (trace : UseTracer) :
    List Surface.Stmt → Site → Compiler → List (Use × Site)
  | [], _, _ => []
  | st :: ss, p, s =>
    stmtUses expand trace st p s ++
      after (stmt expand st) s fun _ s₁ => stmtsUses expand trace ss (p.add st.declares) s₁

end

def bodyUses (expand : Expander) (trace : UseTracer) :
    List Surface.Stmt → Site → Compiler → List (Use × Site)
  | [], _, _ => []
  | .return_ _ e :: _, p, s => exprUses expand trace p e s
  | st :: ss, p, s =>
    stmtUses expand trace st p s ++
      after (stmt expand st) s fun _ s₁ => bodyUses expand trace ss (p.add st.declares) s₁

/-- The uses in calls that are expanded so many levels deep. -/
def useTracer : Nat → UseTracer
  | 0, _, _, _, _ => []
  | depth + 1, p, d, args, s =>
    if s.callStack.contains d.key then [] else
      after (valueType? d.function.returns) s fun _ s₁ =>
        after (temporaries (d.function.params.zip args) []) s₁ fun formals s₂ =>
          bodyUses (expander depth) (useTracer depth) d.function.body
            (p.enter (d.function.params.map Surface.Param.name))
            (s₂.enter d formals)

/-- The declaration of an input, and the uses behind it. -/
def inputUses {β : Type} (declare : Span → String → ValueType → Compile β) (span : Span)
    (x : String) (type : Surface.TypeName) (default : Option Value)
    (rest : Site → Compiler → List (Use × Site)) (p : Site) (s : Compiler) : List (Use × Site) :=
  after (valueType type) s fun t s₁ =>
    [(⟨.declaration, span, x⟩, p)] ++
      after (declare span x t) s₁ fun _ s₂ =>
        after (defaultValue span t default) s₂ fun _ s₃ => rest (p.add [x]) s₃

def globalUses : List Surface.Global → Site → Compiler → List (Use × Site)
  | [], _, _ => []
  | g :: gs, p, s => inputUses declareGlobal g.span g.name g.type g.default (globalUses gs) p s

def paramUses : List Surface.Param → Site → Compiler → List (Use × Site)
  | [], _, _ => []
  | q :: qs, p, s => inputUses declare q.span q.name q.type q.default (paramUses qs) p s

/-- The uses of names in a mark: those of its inputs, which stand in one block, and those of its
body. -/
def functionUses (levels : Nat) (f : Surface.Function) (s : Compiler) : List (Use × Site) :=
  let start : Site := ⟨{ own := [] }, []⟩
  let s₀ : Compiler := s.start f
  globalUses s.globals start s₀ ++
    after (globalInputs s.globals []) s₀ fun inputs s₁ =>
      paramUses f.params (start.add (s.globals.map Surface.Global.name)) s₁ ++
        after (paramInputs f.params inputs) s₁ fun _ s₂ =>
          stmtsUses (expander levels) (useTracer levels) f.body
            ⟨{ own := f.params.map Surface.Param.name }, []⟩ (s₂.push [])

end Compile

/-- The uses of names in a mark of a file. -/
def Surface.File.uses (file : Surface.File) (f : Surface.Function) : List (Use × Site) :=
  Compile.functionUses (Compile.depth file.loaded) f file.loaded

/-! ## Steps that are rejected for a use of a name -/

namespace Compile

section Rules

variable {α β : Type} {globals : List String} {x : Compile α} {s t : Compiler}
  {us : List (Use × Site)}
variable {f : α → Compile β}

/-- A step fails because of a use of a name exactly if one of the given uses is rejected at its
site, names of temporaries aside. -/
def Judges (globals : List String) (x : Compile α) (s : Compiler) (us : List (Use × Site)) :
    Prop :=
  ∀ u : Use, ¬ Scope.IsTemporary u.name →
    (rejected (x s).result = some u ↔
      ∃ p : Site, (u, p) ∈ us ∧ p.Rejects globals u.kind u.name)

/-- A step does not fail because of a use of a name. -/
def Silent (x : Compile α) : Prop := ∀ s, rejected (x s).result = none

theorem Judges.nil (h : rejected (x s).result = none) : Judges globals x s [] := by
  intro u _
  rw [h]
  refine iff_of_false (fun h => by cases h) fun hu => ?_
  obtain ⟨p, hp, -⟩ := hu
  exact absurd hp not_mem_nil

theorem Silent.judges (h : Silent x) : Judges globals x s [] := .nil (h s)

theorem Silent.pure (a : α) : Silent (Pure.pure a) := fun _ => rfl

theorem Silent.fail {e : CompileError} (h : e.use? = none) : Silent (fail e : Compile α) :=
  fun _ => h

theorem Silent.write (st : Stmt) : Silent (write st) := fun _ => rfl

theorem Silent.bind (hx : Silent x) (hf : ∀ a, Silent (f a)) : Silent (x >>= f) := by
  intro s
  have hs := hx s
  cases hxs : x s with
  | mk result s₁ c =>
    rw [hxs] at hs
    cases result with
    | error e =>
      rw [bind_of_error hxs]
      exact hs
    | ok a =>
      rw [bind_of_ok hxs]
      exact hf a s₁

/-- What follows may look at the state. -/
theorem Silent.of_state {f : Compiler → Compile β} (h : ∀ s, Silent (f s)) :
    Silent (state >>= f) :=
  fun s => h s s

/-- What is rejected in one step is rejected in another one with the same result. -/
theorem Judges.congr {y : Compile β} (h : Judges globals x s us)
    (hresult : rejected (y t).result = rejected (x s).result) : Judges globals y t us := by
  intro u hu
  rw [hresult]
  exact h u hu

theorem Judges.of_update {f : Compiler → Compiler} {k : Unit → Compile α}
    (h : Judges globals (k ()) (f s) us) : Judges globals (update f >>= k) s us :=
  h.congr rfl

theorem Judges.of_state {k : Compiler → Compile α} (h : Judges globals (k s) s us) :
    Judges globals (state >>= k) s us :=
  h.congr rfl

theorem Judges.bind {next : α → Compiler → List (Use × Site)} (hx : Judges globals x s us)
    (hf : ∀ a s₁ code, Runs x s a s₁ code → Judges globals (f a) s₁ (next a s₁)) :
    Judges globals (x >>= f) s (us ++ after x s next) := by
  intro u hu
  have hu' := hx u hu
  cases hxs : x s with
  | mk result s₁ c =>
    rw [hxs] at hu'
    cases result with
    | error e =>
      rw [bind_of_error hxs, after, hxs, append_nil]
      exact hu'
    | ok a =>
      rw [bind_of_ok hxs, Runs.after_eq hxs]
      -- The step succeeds, so none of its own uses is rejected.
      have hnone : ¬ ∃ p : Site, (u, p) ∈ us ∧ p.Rejects globals u.kind u.name := by
        intro hp
        cases hu'.mpr hp
      refine (hf a s₁ c hxs u hu).trans (exists_congr fun p => and_congr_left fun hp => ?_)
      rw [mem_append]
      exact (or_iff_right fun hmem => hnone ⟨p, hmem, hp⟩).symm

/-- A step behind one that uses no names. -/
theorem Silent.bind_judges {next : α → Compiler → List (Use × Site)} (hx : Silent x)
    (hf : ∀ a s₁ code, Runs x s a s₁ code → Judges globals (f a) s₁ (next a s₁)) :
    Judges globals (x >>= f) s (after x s next) :=
  hx.judges.bind hf

/-- A step in front of one that uses no names. -/
theorem Judges.bind_silent (hx : Judges globals x s us) (hf : ∀ a, Silent (f a)) :
    Judges globals (x >>= f) s us := by
  refine hx.congr ?_
  cases hxs : x s with
  | mk result s₁ c =>
    cases result with
    | error e =>
      rw [bind_of_error hxs]
      rfl
    | ok a =>
      rw [bind_of_ok hxs]
      exact hf a s₁

theorem Judges.capture {x : Compile Unit} (h : Judges globals x s us) :
    Judges globals (capture x) s us := by
  refine h.congr ?_
  show rejected ((x s).result.map fun _ => (x s).code) = _
  cases (x s).result <;> rfl

theorem Judges.inFrame {formals : Dictionary String}
    (h : Judges globals x (s.push formals) us) :
    Judges globals (inFrame formals x) s us :=
  h.congr rfl

theorem Judges.inBody {d : Definition} {formals : Dictionary String}
    (h : Judges globals x (s.enter d formals) us) :
    Judges globals (inBody d formals x) s us :=
  h.congr rfl

end Rules

/-! ## Steps that use no names -/

section Silent

theorem silent_valueType (t : Surface.TypeName) : Silent (valueType t) := by
  unfold valueType
  split
  · exact .pure _
  · exact .fail rfl

theorem silent_valueType? (t : Option Surface.TypeName) : Silent (valueType? t) := by
  cases t with
  | none => exact .pure _
  | some t => exact (silent_valueType t).bind fun _ => .pure _

theorem silent_defaultValue (span : Span) (t : ValueType) (v : Option Value) :
    Silent (defaultValue span t v) := by
  unfold defaultValue
  split
  · exact .pure _
  · split
    · exact .pure _
    · exact .fail rfl

theorem silent_coerce (span : Span) (e : Expr) (t : ValueType) : Silent (coerce span e t) := by
  unfold coerce
  split
  · exact .pure _
  · exact .fail rfl

theorem silent_access (e : Expr) (span : Span) (f : String) : Silent (lift (e.access span f)) := by
  intro s
  unfold lift Expr.access
  split <;> rfl

theorem silent_recordOutput (span : Span) (x : String) (t : ValueType) :
    Silent (recordOutput span x t) := by
  refine .of_state fun s => ?_
  split
  · exact fun _ => rfl
  · split
    · exact .pure _
    · exact .fail rfl

theorem silent_temporaries (bound : List (Surface.Param × Expr)) (done : Dictionary String) :
    Silent (temporaries bound done) := by
  induction bound generalizing done with
  | nil => exact .pure _
  | cons b bound ih =>
    have htemporary : Silent (temporary b.2.type) := fun _ => rfl
    exact htemporary.bind fun v => (Silent.write _).bind fun _ => ih _

theorem silent_unresolved {α : Type} (e : ResolveError) (r : Resolver) (span : Span)
    (name : String) (args : Arguments) :
    Silent (fail (e.toCompileError r span name args) : Compile α) := by
  cases e <;> exact .fail rfl

end Silent

end Compile

end DataMarks
