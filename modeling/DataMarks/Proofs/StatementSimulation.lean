/-
  Compiled statements do what a direct run of the source does.

  Statements keep the variables of a given list, which are those of the caller while a
  function is expanded and none in a mark. The proof follows the source: one lemma for each
  kind of statement, of which blocks and branches leave the layout as it was, and rounds of
  a loop start and end with the same one.
-/
import DataMarks.Proofs.Simulation

namespace DataMarks.Direct

open Run Dictionary List Simulates Compile Stmt

/-! ## Places between statements -/

theorem runAll_assign {names : List String} {env : Env} {e : Expr} {a : Typed} {x : String}
    (h : Denotes names env e a) :
    runAll [.assign x e] env = .ok (.finished (env.insert x a.value) []) := by
  rw [runAll_singleton, run_assign_finished_iff]
  exact ⟨a.value, h.eval, rfl, rfl⟩

section Places

variable (r : Resolver) (globals : Dictionary Variable) (fs : List (Dictionary Variable))
  (guarded : List String)

/-- A place where some variables, all given out before, stand for no cell of the frames. -/
structure Guarded (s : Compiler) (env : Env) (store : Store Cell) : Prop extends
    Linked r globals fs s env store where
  avoids : ∀ f ∈ fs, ∀ x v, f.get? x = some v → v.unique ∉ guarded
  issued : guarded ⊆ s.scope.issued.keys

/-- A statement ends with the frames that it started with. -/
structure Settled (env : Env) (s' : Compiler) (store' : Store Cell) (env' : Env) : Prop where
  kept : Kept guarded env env'
  place : Guarded r globals fs guarded s' env' store'

/-- A statement ends with the frames that it started with, but for the current one. -/
def Ran (env : Env) (s' : Compiler) (store' : Store Cell) (env' : Env) : Prop :=
  ∃ fs', fs'.tail = fs.tail ∧ Settled r globals fs' guarded env s' store' env'

/-- A step writes code that does what a direct run does, and ends with the frames that it started
with. -/
def Settles (x : Compile Unit) (run : Run Unit) : Prop :=
  ∀ ⦃s s' env store code⦄, Guarded r globals fs guarded s env store →
    Compile.Runs x s () s' code → Simulates (Spares globals) (Stmt.runAll code env)
      (fun _ => Settled r globals fs guarded env s') (run store)

/-- A step writes code that does what a direct run does, and may declare in the current frame. -/
def Proceeds (x : Compile Unit) (run : Run Unit) : Prop :=
  ∀ ⦃s s' env store code⦄, Guarded r globals fs guarded s env store →
    Compile.Runs x s () s' code → Simulates (Spares globals) (Stmt.runAll code env)
      (fun _ => Ran r globals fs guarded env s') (run store)

variable {r globals fs guarded} {s s₁ s' : Compiler} {env env₁ env' : Env}
  {store store' : Store Cell}

theorem Linked.step (h : Linked r globals fs s env store) (hstep : Compiler.Step [] s s') :
    Linked r globals fs s' env store where
  resolver := hstep.resolver.trans h.resolver
  inner := hstep.inner_ne_nil h.inner
  fits := h.fits.step h.inner hstep
  holds := h.holds

theorem Guarded.step (h : Guarded r globals fs guarded s env store)
    (hstep : Compiler.Step [] s s') : Guarded r globals fs guarded s' env store where
  toLinked := h.toLinked.step hstep
  avoids := h.avoids
  issued := fun _ hx => hstep.keys_issued (h.issued hx)

theorem Guarded.settled (h : Guarded r globals fs guarded s env store)
    (hreached : Reached r globals fs s env s' store' env') :
    Settled r globals fs guarded env s' store' env' where
  kept := hreached.kept.mono h.issued
  place := {
    toLinked := hreached.linked
    avoids := h.avoids
    issued := fun _ hx => hreached.grows (h.issued hx) }

theorem Guarded.push (h : Guarded r globals fs guarded s env store) :
    Guarded r globals ([] :: fs) guarded (s.push []) env store.push where
  resolver := h.resolver
  inner := cons_ne_nil _ _
  fits := h.fits.push
  holds := h.holds.push
  avoids := by
    intro f hf x v hx
    rcases mem_cons.mp hf with rfl | hf
    · cases hx
    · exact h.avoids f hf x v hx
  issued := h.issued

/-- A variable of the source is declared under a name not given out, and it may get a value. -/
theorem Guarded.declare (h : Guarded r globals fs guarded s env store) {span : Span} {x y : String}
    {t : ValueType} (hdeclare : Compile.Runs (declare span x t) s y s' [])
    (hglobal : globals.get? x = none) :
    y ∉ s.scope.issued.keys ∧
      ∀ {env' : Env} {c : Cell}, Kept s.scope.issued.keys env env' → c.type = t →
        (∀ a ∈ c.value, env'.get? y = some a) →
        ∃ fs', fs'.tail = fs.tail ∧
          Guarded r globals fs' guarded s' env' (store.declare x c) := by
  have hstep := advances_declare span x t s y s' [] h.inner hdeclare
  obtain ⟨v, scope, hok, rfl, rfl, -⟩ := runs_declare_iff.mp hdeclare
  obtain ⟨f, below, hf⟩ := exists_cons_of_ne_nil h.inner
  obtain ⟨-, -, htype, hfree, -⟩ := Scope.declare_ok hf hok
  have hnew : v.unique ∉ s.scope.issued.keys := (not_mem_keys_iff _ _).mpr hfree
  refine ⟨hnew, ?_⟩
  intro env' c hkept hc hvalue
  obtain ⟨d, ds, rfl⟩ := exists_cons_of_ne_nil h.fits.frames
  have hholds : Layout.Holds ⟨globals, d :: ds⟩ env' store :=
    h.holds.congr fun w hw => hkept w.unique (h.fits.issued w hw)
  refine ⟨d.insert x v :: ds, rfl, ?_⟩
  exact {
    resolver := h.resolver
    inner := hstep.inner_ne_nil h.inner
    fits := h.fits.declare h.inner hok hglobal
    holds := hholds.declare ⟨htype.trans hc.symm, hvalue⟩
    avoids := by
      intro g hg z w hw
      rcases mem_cons.mp hg with rfl | hg
      · rcases get?_insert_cases hw with ⟨-, rfl⟩ | hw
        · exact fun hguarded => hnew (h.issued hguarded)
        · exact h.avoids d mem_cons_self z w hw
      · exact h.avoids g (mem_cons_of_mem _ hg) z w hw
    issued := fun z hz => hstep.keys_issued (h.issued hz) }

theorem Settled.ran (h : Settled r globals fs guarded env s' store' env') :
    Ran r globals fs guarded env s' store' env' :=
  ⟨fs, rfl, h⟩

theorem Settles.proceeds {x : Compile Unit} {run : Run Unit}
    (h : Settles r globals fs guarded x run) : Proceeds r globals fs guarded x run :=
  fun _ _ _ _ _ hplace hx => (h hplace hx).mono fun _ _ _ hpost => hpost.ran

theorem Settled.trans (hkept : Kept guarded env env₁)
    (h : Settled r globals fs guarded env₁ s' store' env') :
    Settled r globals fs guarded env s' store' env' :=
  ⟨hkept.trans h.kept, h.place⟩

/-! ## Blocks, branches and rounds -/

variable {expand : Compile.Expander} {invoke : Invoker} {code : List Stmt}

/-- What a block declares is gone behind it. -/
theorem inFrame_settles (h : Guarded r globals fs guarded s env store)
    (hstep : Compiler.Step [] s s') {o : Except EvalError Outcome} {x : Run Unit}
    (hx : Simulates (Spares globals) o (fun _ => Ran r globals ([] :: fs) guarded env s₁)
      (x store.push)) :
    Simulates (Spares globals) o (fun _ => Settled r globals fs guarded env s')
      (inFrame x store) := by
  refine inFrame (hx.mono ?_)
  rintro _ store₁ env₁ ⟨fs', htail, hkept, hplace⟩
  obtain rfl : fs'.tail = fs := htail
  exact ⟨hkept, { h.step hstep with holds := hplace.holds.pop }⟩

theorem block_settles {x : Compile Unit} {new : List String} (hadvances : Compile.Advances new x)
    {run : Run Unit} (hrun : Proceeds r globals ([] :: fs) guarded x run) :
    Settles r globals fs guarded (inBlock x) (inFrame run) := by
  intro s s' env store code h hx
  obtain ⟨s₁, hinner, -⟩ := runs_inFrame_iff.mp hx
  exact inFrame_settles h (hadvances.inFrame s () s' code h.inner hx) (hrun h.push hinner)

theorem condition_settles (hfollows : Follows expand invoke) {test : Surface.Expr}
    {thenStep elseStep : Compile Unit} {thenRun elseRun : Run Unit}
    (hthenStep : Compile.Advances [] thenStep) (helseStep : Compile.Advances [] elseStep)
    (hthen : Settles r globals fs guarded thenStep thenRun)
    (helse : Settles r globals fs guarded elseStep elseRun) :
    Settles r globals fs guarded (Compile.condition expand test thenStep elseStep)
      (condition invoke r test thenRun elseRun) := by
  intro s s' env store code h hrun
  obtain ⟨e, s₁, c, e', rank, s₂, thenBody, elseBody, htest, hcoerce, hthenRun, helseRun, rfl⟩ :=
    Compile.runs_condition hrun
  unfold condition
  refine append (expr_evaluates hfollows test h.toLinked htest) ?_
  rintro v store₁ env₁ ⟨hreached, hv⟩
  have hsettled := h.settled hreached
  have hstep₂ := hthenStep s₁ () s₂ thenBody hreached.linked.inner hthenRun
  have hplace₂ := hsettled.place.step hstep₂
  have hstep' := helseStep s₂ () s' elseBody hplace₂.inner helseRun
  refine bind_done (hv.convert hcoerce store₁) ?_
  rw [Stmt.runAll_singleton, Stmt.run, (hv.coerce hcoerce).eval]
  show Simulates _ (if v.value.truthy then Stmt.runAll thenBody env₁ else _) _
    ((if v.value.truthy then thenRun else elseRun) store₁)
  split
  · refine (hthen hsettled.place hthenRun).mono ?_
    intro _ store₂ env₂ h₂
    exact ⟨hsettled.kept.trans h₂.kept, h₂.place.step hstep'⟩
  · refine (helse hplace₂ helseRun).mono ?_
    intro _ store₂ env₂ h₂
    exact .trans hsettled.kept h₂

/-- A round of a loop: the variable gets its value in a frame of its own. -/
theorem round_settles (h : Guarded r globals fs guarded s env store) {span : Span} {x y : String}
    {s₂ : Compiler} (hglobal : globals.get? x = none)
    (hdeclare : Compile.Runs (declare span x .int) (s.push []) y
      s₁ []) {body : Run Unit}
    (hbody : ∀ {fs env store}, Guarded r globals fs guarded s₁ env store →
      Simulates (Spares globals) (runAll code env)
        (fun _ => Ran r globals fs guarded env s₂) (body store)) (i : Int) :
    Simulates (Spares globals) (runAll code (env.insert y (.scalar (Float.ofInt i))))
      (fun _ => Settled r globals fs guarded env s)
      (inFrame (do
        update fun st => st.declare x ⟨.int, some (.scalar (Float.ofInt i))⟩
        body) store) := by
  obtain ⟨hnew, hdeclared⟩ := h.push.declare hdeclare hglobal
  obtain ⟨fs', htail, hplace⟩ := hdeclared (c := ⟨.int, some (.scalar (Float.ofInt i))⟩)
    (Kept.insert hnew) rfl (fun a ha => by
      cases ha
      exact get?_insert_self y _ env)
  have hinsert : Kept guarded env (env.insert y (.scalar (Float.ofInt i))) :=
    Kept.insert fun hy => hnew (h.push.issued hy)
  have hinner := (hbody hplace).mono fun _ store₂ env₂ hpost => by
    obtain ⟨fs₂, htail₂, hkept, hplace₂⟩ := hpost
    exact (⟨fs₂, htail₂.trans htail, hinsert.trans hkept, hplace₂⟩ :
      Ran r globals ([] :: fs) guarded env s₂ store₂ env₂)
  exact inFrame_settles h (.refl s) (bind_done rfl hinner)

/-- Rounds that each end where they start. -/
theorem rounds_settle {written : Int → Env → Except EvalError Outcome} {body : Int → Run Unit}
    (hbody : ∀ i env store, Guarded r globals fs guarded s env store →
      Simulates (Spares globals) (written i env) (fun _ => Settled r globals fs guarded env s)
        (body i store)) (n : Nat) (i : Int) (h : Guarded r globals fs guarded s env store) :
    Simulates (Spares globals) (iterate written n i env)
      (fun _ => Settled r globals fs guarded env s) (rounds body n i store) := by
  induction n generalizing i env store with
  | zero => exact finished ⟨.refl _ _, h⟩
  | succ n ih =>
    rw [iterate, rounds]
    refine (hbody i env store h).bind ?_
    intro _ store₁ env₁ h₁
    refine (ih (i + 1) h₁.place).mono ?_
    intro _ store₂ env₂ h₂
    exact .trans h₁.kept h₂

end Places

/-! ## Emitted vertices -/

section Emits

variable {names : List String} {env : Env}

/-- The attributes of a vertex and their values. -/
def Attributes (names : List String) (env : Env) (attributes : Dictionary Expr) (v : Vertex) :
    Prop :=
  Forall₂ (fun a b => a.1 = b.1 ∧ Denotes names env a.2 ⟨a.2.type, b.2⟩) attributes v

theorem Attributes.insert {attributes : Dictionary Expr} {v : Vertex}
    (h : Attributes names env attributes v) {name : String} {e : Expr} {a : Typed}
    (ha : Denotes names env e a) :
    Attributes names env (attributes.insert name e) (v.insert name a.value) := by
  have ha : Denotes names env e ⟨e.type, a.value⟩ := ⟨rfl, ha.eval, ha.reads⟩
  induction h with
  | nil => exact .cons ⟨rfl, ha⟩ .nil
  | @cons x y xs ys hxy hrest ih =>
    obtain ⟨k, e'⟩ := x
    obtain ⟨k', b⟩ := y
    obtain rfl : k = k' := hxy.1
    unfold Attributes
    rw [Dictionary.insert, Dictionary.insert]
    split
    · exact .cons ⟨rfl, ha⟩ hrest
    · exact .cons hxy ih

theorem Attributes.emitVertex {attributes : Dictionary Expr} {v : Vertex}
    (h : Attributes names env attributes v) : emitVertex env attributes = .ok v := by
  induction h with
  | nil => rfl
  | @cons x y xs ys hxy hrest ih =>
    obtain ⟨k, e⟩ := x
    obtain ⟨k', b⟩ := y
    obtain rfl : k = k' := hxy.1
    rw [emitVertex_cons, hxy.2.eval, ih]
    rfl

end Emits

section Statements

variable {expand : Compile.Expander} {invoke : Invoker} (hfollows : Follows expand invoke)
  {r : Resolver} {globals : Dictionary Variable}

include hfollows

theorem attributes_evaluates {fs : List (Dictionary Variable)} :
    ∀ (as : List Surface.Attribute) {s s' : Compiler} {env : Env} {store : Store Cell}
      {code : List Stmt} {done attrs : Dictionary Expr} {v : Vertex},
      Linked r globals fs s env store → Attributes s.scope.issued.keys env done v →
      Compile.Runs (Compile.attributes expand as done) s attrs s' code →
      Evaluates r globals fs s env s' code
        (fun names env' => Attributes names env' attrs) (attributes invoke r as v store)
  | [], s, s', env, store, code, done, attrs, v, h, hdone, hrun => by
    obtain ⟨rfl, rfl, rfl⟩ := runs_pure_iff.mp hrun
    exact .done h hdone
  | a :: as, s, s', env, store, code, done, attrs, v, h, hdone, hrun => by
    obtain ⟨e, s₁, c₁, s₂, c₂, hexpr, houtput, hrest, rfl⟩ := Compile.runs_attributes_cons hrun
    rw [attributes]
    refine (expr_evaluates hfollows a.value h hexpr).append ?_
    intro w store₁ env₁ hreached hw
    have hstep : Compiler.Step [] s₁ s₂ := advances_recordOutput a.span a.name e.type
      s₁ () s₂ [] hreached.linked.inner houtput
    have hreached₂ : Reached r globals fs s₁ env₁ s₂ store₁ env₁ :=
      ⟨hstep.keys_issued, .refl _ _, hreached.linked.step hstep⟩
    have hdone' : Attributes s₂.scope.issued.keys env₁ done v :=
      hdone.imp fun x y hxy => ⟨hxy.1, hreached₂.denotes (hreached.denotes hxy.2)⟩
    refine (attributes_evaluates as hreached₂.linked (hdone'.insert (hreached₂.denotes hw))
      hrest).mono ?_
    rintro u store₃ env₃ ⟨hreached₃, hu⟩
    exact ⟨hreached₂.trans hreached₃, hu⟩

theorem emit_evaluates {fs : List (Dictionary Variable)} :
    ∀ (vs : List (List Surface.Attribute)) {s s' : Compiler} {env : Env} {store : Store Cell}
      {code : List Stmt}, Linked r globals fs s env store →
      Compile.Runs (Compile.vertices expand vs) s () s' code →
      Evaluates r globals fs s env s' code (fun _ _ _ => True) (emit invoke r vs store)
  | [], s, s', env, store, code, h, hrun => by
    obtain ⟨-, rfl, rfl⟩ := runs_pure_iff.mp hrun
    exact .done h True.intro
  | v :: vs, s, s', env, store, code, h, hrun => by
    obtain ⟨attrs, s₁, c₁, c₂, hattrs, hrest, rfl⟩ := Compile.runs_vertices_cons hrun
    rw [emit]
    refine (attributes_evaluates hfollows v h .nil hattrs).append ?_
    intro w store₁ env₁ hreached hw
    have hemit : Evaluates r globals fs s₁ env₁ s₁ [.emit attrs] (fun _ _ _ => True)
        (note (.vertex w) store₁) := by
      intro _
      refine ⟨env₁, ?_, hreached.linked.reached, True.intro⟩
      rw [runAll_singleton, run_emit_finished_iff]
      exact ⟨w, hw.emitVertex, rfl, rfl⟩
    rw [← singleton_append]
    refine hemit.append ?_
    intro _ store₂ env₂ hreached₂ _
    exact emit_evaluates vs hreached₂.linked hrest

/-! ## Statements -/

/-- What a statement may do, by its own: it brings in no name of a global, and assigns no global
that is guarded. -/
structure Permitted (globals : Dictionary Variable) (guarded : List String) (st : Surface.Stmt) :
    Prop where
  binds : ∀ x ∈ st.binds, globals.get? x = none
  sets : ∀ x ∈ st.sets, ∀ v, globals.get? x = some v → v.unique ∉ guarded

section Statement

variable {fs : List (Dictionary Variable)} {guarded : List String} {span : Span}

theorem exprStmt_settles (e : Surface.Expr) :
    Settles r globals fs guarded (Compile.stmt expand (.expr e)) (stmt invoke r (.expr e)) := by
  intro s s' env store code h hrun
  have hother : (∀ span name args keywords, e ≠ .call span name args keywords) →
      Simulates (Spares globals) (runAll code env)
        (fun _ => Settled r globals fs guarded env s') (stmt invoke r (.expr e) store) := by
    intro he
    obtain ⟨a, ha⟩ := runs_stmt_expr he hrun
    rw [stmt]
    · refine last (expr_evaluates hfollows e h.toLinked ha) ?_
      rintro v store₁ env₁ ⟨hreached, -⟩
      exact finished (h.settled hreached)
    · exact he
  cases e with
  | call span name args keywords =>
    obtain ⟨es, s₁, c₁, ks, s₂, c₂, res, c₃, hargs, hkeywords, hcall, rfl⟩ :=
      Compile.runs_stmt_call hrun
    have hcalls : Evaluates r globals fs s env s' (c₁ ++ (c₂ ++ c₃)) (fun _ _ _ => True)
        (stmt invoke r (.expr (.call span name args keywords)) store) := by
      rw [stmt]
      refine (exprs_evaluates hfollows args h.toLinked hargs).append ?_
      intro vs store₁ env₁ hreached₁ hvs
      refine (keywordExprs_evaluates hfollows keywords hreached₁.linked hkeywords).append ?_
      intro ws store₂ env₂ hreached₂ hws
      have hvs₂ := hvs.imp fun _ _ hv => hreached₂.denotes hv
      refine (call_evaluates hfollows hreached₂.linked hvs₂ hws hcall).last ?_
      intro v store₃ env₃ hreached₃ _
      exact .done hreached₃.linked True.intro
    exact hcalls.mono fun _ _ _ hpost => h.settled hpost.1
  | literal | name | field | unary | binary => exact hother nofun

theorem declaration_proceeds {x : String} (hglobal : globals.get? x = none)
    {type : Option Surface.TypeName} {init : Option Surface.Expr} :
    Proceeds r globals fs guarded (Compile.declaration expand span x type init)
      (declaration invoke r x type init) := by
  intro s s' env store code h hrun
  obtain ⟨type', htype, ⟨value, e, s₁, c₁, y, e', rank, rfl, hexpr, hdeclare, hcoerce, rfl⟩ |
    ⟨t, y, rfl, rfl, hdeclare, rfl⟩⟩ := Compile.runs_declaration hrun
  · unfold declaration typeOf
    rw [htype]
    refine bind_done rfl ?_
    refine append (expr_evaluates hfollows value h.toLinked hexpr) ?_
    rintro v store₁ env₁ ⟨hreached, hv⟩
    have hsettled := h.settled hreached
    rw [hv.type] at hcoerce hdeclare
    obtain ⟨hnew, hdeclared⟩ := hsettled.place.declare hdeclare hglobal
    refine bind_done (hv.convert hcoerce store₁) ?_
    rw [runAll_assign (hv.coerce hcoerce)]
    obtain ⟨fs', htail, hplace⟩ := hdeclared (c := ⟨type'.getD v.type, some v.value⟩)
      (Kept.insert hnew) rfl (fun a ha => by
        cases ha
        exact get?_insert_self y v.value env₁)
    have hkept : Kept guarded env₁ (env₁.insert y v.value) :=
      Kept.insert fun hy => hnew (hsettled.place.issued hy)
    exact finished ⟨fs', htail, hsettled.kept.trans hkept, hplace⟩
  · unfold declaration typeOf
    rw [htype]
    refine bind_done rfl ?_
    obtain ⟨-, hdeclared⟩ := h.declare hdeclare hglobal
    obtain ⟨fs', htail, hplace⟩ := hdeclared (c := ⟨t, none⟩) (.refl _ _) rfl nofun
    rw [runAll]
    exact finished ⟨fs', htail, .refl _ _, hplace⟩

theorem assignment_settles {x : String}
    (hglobal : ∀ v, globals.get? x = some v → v.unique ∉ guarded) {value : Surface.Expr} :
    Settles r globals fs guarded (Compile.assignment expand span x value)
      (assignment invoke r x value) := by
  intro s s' env store code h hrun
  obtain ⟨e, c, v, e', rank, hexpr, hv, hcoerce, rfl⟩ := Compile.runs_assignment hrun
  unfold assignment
  refine append (expr_evaluates hfollows value h.toLinked hexpr) ?_
  rintro a store₁ env₁ ⟨hreached, ha⟩
  have hsettled := h.settled hreached
  have hplace := hsettled.place
  refine bind_done rfl ?_
  obtain hfind | ⟨cell, hfind, hL, hcell⟩ := hplace.cell hv
  · rw [hfind]
    exact bind_stuck rfl
  · rw [hfind]
    refine bind_done rfl ?_
    rw [hcell.1] at hcoerce
    refine bind_done (ha.convert hcoerce store₁) ?_
    rw [runAll_assign (ha.coerce hcoerce), ← hcell.1]
    have hfree : v.unique ∉ guarded := by
      rcases Store.findIn_cases hL with hglobals | ⟨f, hf, hfx⟩
      · exact hglobal v hglobals
      · exact h.avoids f hf x v hfx
    exact finished ⟨hsettled.kept.trans (Kept.insert hfree),
      { hplace with holds := hplace.holds.set hplace.fits.owned hL }⟩

end Statement

section Bodies

variable {guarded : List String}

-- Some members only pass hypotheses on.
set_option linter.unusedSectionVars false in
mutual

theorem stmt_proceeds : ∀ (st : Surface.Stmt) {fs : List (Dictionary Variable)},
    (∀ t ∈ st.parts, Permitted globals guarded t) →
    Proceeds r globals fs guarded (Compile.stmt expand st) (stmt invoke r st)
  | .expr e, fs, _ => (exprStmt_settles hfollows e).proceeds
  | .declare span x type init, fs, hparts => by
    rw [Compile.stmt, stmt]
    have hown := hparts _ (Surface.Stmt.mem_parts _)
    exact declaration_proceeds hfollows (hown.binds x (mem_singleton.mpr rfl))
  | .assign span x value, fs, hparts => by
    rw [Compile.stmt, stmt]
    have hown := hparts _ (Surface.Stmt.mem_parts _)
    exact (assignment_settles hfollows (hown.sets x (mem_singleton.mpr rfl))).proceeds
  | .return_ span e, fs, _ => by
    rw [Compile.stmt]
    exact fun _ _ _ _ _ _ hrun => absurd hrun Compile.not_runs_fail
  | .discard span, fs, _ => by
    intro s s' env store code h hrun
    rw [Compile.stmt] at hrun
    obtain ⟨rfl, rfl⟩ := Compile.runs_write_iff.mp hrun
    rw [stmt, Stmt.runAll_singleton, Stmt.run_discard]
    exact fun _ => rfl
  | .emit span vs, fs, _ => by
    rw [Compile.stmt, stmt]
    intro s s' env store code h hrun
    exact (emit_evaluates hfollows vs h.toLinked hrun).mono fun _ _ _ hpost =>
      (h.settled hpost.1).ran
  | .loop span x first last body, fs, hparts => by
    intro s s' env store code h hrun
    have hstep := Compile.advances_stmt hfollows.advancing (.loop span x first last body) s () s'
      code h.inner hrun
    obtain ⟨y, s₁, s₂, written, hdeclare, hbody, rfl, rfl⟩ := Compile.runs_loop hrun
    rw [Surface.Stmt.parts, forall_mem_cons] at hparts
    have hglobal := hparts.1.binds x (mem_singleton.mpr rfl)
    rw [stmt, Stmt.runAll_singleton, Stmt.run]
    refine Simulates.mono (rounds_settle ?_ _ first h) ?_
    · intro i env store h
      exact round_settles h hglobal hdeclare (fun h => stmt_proceeds body hparts.2 h hbody) i
    · intro _ store₁ env₁ hpost
      exact Settled.ran ⟨hpost.kept, hpost.place.step hstep⟩
  | .branch span test body rest, fs, hparts => by
    rw [Compile.stmt, stmt]
    rw [Surface.Stmt.parts, forall_mem_cons, forall_mem_append] at hparts
    have hbody := Compile.advances_stmt hfollows.advancing body
    exact (condition_settles hfollows hbody.inFrame
      (Compile.advances_alternatives hfollows.advancing rest)
      (block_settles hbody (stmt_proceeds body hparts.2.1))
      (alternatives_settle rest hparts.2.2)).proceeds
  | .block span body, fs, hparts => by
    rw [Compile.stmt, stmt]
    rw [Surface.Stmt.parts, forall_mem_cons] at hparts
    exact (block_settles (Compile.advances_stmts hfollows.advancing body)
      (stmts_proceed body hparts.2)).proceeds

theorem alternatives_settle : ∀ (rest : Surface.Alternatives) {fs : List (Dictionary Variable)},
    (∀ t ∈ rest.parts, Permitted globals guarded t) →
    Settles r globals fs guarded (Compile.alternatives expand rest) (alternatives invoke r rest)
  | .none, fs, _ => by
    intro s s' env store code h hrun
    rw [Compile.alternatives] at hrun
    obtain ⟨-, rfl, rfl⟩ := Compile.runs_pure_iff.mp hrun
    rw [alternatives, runAll]
    exact finished ⟨.refl _ _, h⟩
  | .otherwise body, fs, hparts => by
    rw [Compile.alternatives, alternatives]
    rw [Surface.Alternatives.parts] at hparts
    exact block_settles (Compile.advances_stmt hfollows.advancing body) (stmt_proceeds body hparts)
  | .elseIf test body rest, fs, hparts => by
    rw [Compile.alternatives, alternatives]
    rw [Surface.Alternatives.parts, forall_mem_append] at hparts
    have hbody := Compile.advances_stmt hfollows.advancing body
    exact condition_settles hfollows hbody.inFrame
      (Compile.advances_alternatives hfollows.advancing rest)
      (block_settles hbody (stmt_proceeds body hparts.1)) (alternatives_settle rest hparts.2)

theorem stmts_proceed : ∀ (ss : List Surface.Stmt) {fs : List (Dictionary Variable)},
    (∀ t ∈ Surface.Stmt.partsAll ss, Permitted globals guarded t) →
    Proceeds r globals fs guarded (Compile.stmts expand ss) (stmts invoke r ss)
  | [], fs, _ => by
    intro s s' env store code h hrun
    rw [Compile.stmts] at hrun
    obtain ⟨-, rfl, rfl⟩ := Compile.runs_pure_iff.mp hrun
    rw [stmts, runAll]
    exact finished (Settled.ran ⟨.refl _ _, h⟩)
  | st :: ss, fs, hparts => by
    intro s s' env store code h hrun
    obtain ⟨s₁, c₁, c₂, hfirst, hrest, rfl⟩ := Compile.runs_stmts_cons hrun
    rw [Surface.Stmt.partsAll, forall_mem_append] at hparts
    rw [stmts]
    refine (stmt_proceeds st hparts.1 h hfirst).append ?_
    rintro _ store₁ env₁ ⟨fs₁, htail₁, hkept₁, hplace₁⟩
    refine (stmts_proceed ss hparts.2 hplace₁ hrest).mono ?_
    rintro _ store₂ env₂ ⟨fs₂, htail₂, hkept₂, hplace₂⟩
    exact ⟨fs₂, htail₂.trans htail₁, hkept₁.trans hkept₂, hplace₂⟩

end

theorem body_runs : ∀ (ss : List Surface.Stmt) {fs : List (Dictionary Variable)}
    {s s' : Compiler} {env : Env} {store : Store Cell} {code : List Stmt} {res : Option Expr},
    Guarded r globals fs guarded s env store →
    (∀ t ∈ Surface.Stmt.partsAll ss, Permitted globals guarded t) →
    Compile.Runs (Compile.body expand ss) s res s' code →
    Simulates (Spares globals) (Stmt.runAll code env)
      (fun v store' env' => Ran r globals fs guarded env s' store' env' ∧
        Option.Rel (Denotes s'.scope.issued.keys env') res v)
      (body invoke r ss store)
  | [], fs, s, s', env, store, code, res, h, _, hrun => by
    obtain ⟨rfl, rfl, rfl⟩ := Compile.runs_pure_iff.mp hrun
    rw [body, Stmt.runAll]
    exact Simulates.finished ⟨Settled.ran ⟨.refl _ _, h⟩, .none⟩
  | st :: ss, fs, s, s', env, store, code, res, h, hparts, hrun => by
    rcases Compile.runs_body_cons hrun with ⟨span, e, a, rfl, he, rfl⟩ |
      ⟨hst, s₁, c₁, c₂, hfirst, hrest, rfl⟩
    · rw [body]
      refine Simulates.last (expr_evaluates hfollows e h.toLinked he) ?_
      rintro v store₁ env₁ ⟨hreached, hv⟩
      exact Simulates.finished ⟨(h.settled hreached).ran, .some hv⟩
    · rw [Surface.Stmt.partsAll, forall_mem_append] at hparts
      rw [body]
      · refine (stmt_proceeds hfollows st hparts.1 h hfirst).append ?_
        rintro _ store₁ env₁ ⟨fs₁, htail₁, hkept₁, hplace₁⟩
        refine (body_runs ss hplace₁ hparts.2 hrest).mono ?_
        rintro v store₂ env₂ ⟨⟨fs₂, htail₂, hkept₂, hplace₂⟩, hv⟩
        exact ⟨⟨fs₂, htail₂.trans htail₁, hkept₁.trans hkept₂, hplace₂⟩, hv⟩
      · exact hst

end Bodies

end Statements

end DataMarks.Direct
