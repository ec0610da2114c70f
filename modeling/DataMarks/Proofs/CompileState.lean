/-
  How the state of a compilation moves on.

  Inside a body, a step leaves the functions, the globals and all frames but the current
  one as they are; the current frame, the names given out and the outputs only grow. What
  the current frame gets are the names that the source declares there and temporaries,
  whose names no frame binds (`Step`). `Advances` says this of a step wherever it starts,
  and its rules carry it through expressions, statements and expanded calls.
-/
import DataMarks.Proofs.BodySteps
import DataMarks.Proofs.CompileStep
import DataMarks.Proofs.FreshName

namespace DataMarks

open Dictionary List

/-! ## Scopes -/

variable {vars : Dictionary Variable} {f : Frame}

namespace Scope

/-- Variables of all frames are among the names given out, with their types. -/
def Typed (s : Scope) : Prop :=
  ∀ f ∈ s.outermost :: s.inner, ∀ x v, f.vars.get? x = some v →
    s.issued.get? v.unique = some v.type

variable {x : String} {v : Variable} {s : Scope}

theorem lookup_some {outermost : Frame} {fs : List Frame} (h : lookup outermost fs x = some v) :
    ∃ f ∈ outermost :: fs, ∃ y, f.vars.get? y = some v := by
  induction fs generalizing x with
  | nil => exact ⟨outermost, mem_cons_self, x, h⟩
  | cons f fs ih =>
    have hbelow : ∀ y, lookup outermost fs y = some v →
        ∃ g ∈ outermost :: f :: fs, ∃ y, g.vars.get? y = some v := by
      intro y hy
      obtain ⟨g, hg, hget⟩ := ih hy
      rcases mem_cons.mp hg with rfl | hg
      · exact ⟨g, mem_cons_self, hget⟩
      · exact ⟨g, mem_cons_of_mem _ (mem_cons_of_mem _ hg), hget⟩
    unfold lookup at h
    split at h
    · rename_i w hw
      cases h
      exact ⟨f, mem_cons_of_mem _ mem_cons_self, x, hw⟩
    · split at h
      · exact hbelow _ h
      · exact hbelow _ h

theorem Typed.get? (hs : s.Typed) (h : s.get? x = some v) :
    s.issued.get? v.unique = some v.type := by
  obtain ⟨f, hf, y, hy⟩ := lookup_some h
  exact hs f hf y v hy

theorem Typed.push (hs : s.Typed) (formals : Dictionary String) : (s.push formals).Typed := by
  intro f hf x v hx
  rcases mem_cons.mp hf with rfl | hf
  · exact hs _ mem_cons_self x v hx
  · rcases mem_cons.mp hf with rfl | hf
    · cases hx
    · exact hs f (mem_cons_of_mem _ hf) x v hx

theorem mem_visible (hf : f ∈ s.outermost :: s.inner) (hx : x ∈ f.names) : x ∈ s.visible := by
  refine mem_flatMap.mpr ⟨f, ?_, hx⟩
  simpa [frames] using hf

/-- A name with a meaning is bound by some frame. -/
theorem mem_visible_of_get? (h : s.get? x = some v) : x ∈ s.visible := by
  have hlookup : ∀ fs, (∀ f ∈ fs, f ∈ s.inner) → lookup s.outermost fs x = some v →
      x ∈ s.visible := by
    intro fs
    induction fs with
    | nil =>
      intro _ hx
      exact mem_visible mem_cons_self (mem_append_left _ (mem_keys_of_get? hx))
    | cons f fs ih =>
      intro hfs hx
      have hf : x ∈ f.names → x ∈ s.visible := mem_visible (mem_cons_of_mem _ (hfs f mem_cons_self))
      have hbelow := ih fun g hg => hfs g (mem_cons_of_mem _ hg)
      unfold lookup at hx
      split at hx
      · rename_i w hw
        exact hf (mem_append_left _ (mem_keys_of_get? hw))
      · split at hx
        · rename_i y hy
          exact hf (mem_append_right _ (mem_keys_of_get? hy))
        · exact hbelow hx
  exact hlookup s.inner (fun _ hf => hf) h

section Lookup

variable {outermost f : Frame} {below : List Frame} {x y : String} {v : Variable}

theorem lookup_vars (h : f.vars.get? x = some v) : lookup outermost (f :: below) x = some v := by
  rw [lookup, h]

theorem lookup_formals (h : f.vars.get? x = none) (hformal : f.formals.get? x = some y) :
    lookup outermost (f :: below) x = lookup outermost below y := by
  rw [lookup, h, hformal]

theorem lookup_below (h : f.vars.get? x = none) (hformal : f.formals.get? x = none) :
    lookup outermost (f :: below) x = lookup outermost below x := by
  rw [lookup, h, hformal]

/-- Only what the variables of a frame say about a name matters for it. -/
theorem lookup_congr (h : vars.get? x = f.vars.get? x) :
    lookup outermost ({ f with vars } :: below) x = lookup outermost (f :: below) x := by
  rw [lookup, lookup, h]

end Lookup

/-- A name that a temporary may have. -/
def IsTemporary (x : String) : Prop := ∃ n, x = Name.candidate "tmp" n

section Names

variable {s s' : Scope} {x : String} {t : ValueType} {v : Variable} {f : Frame}
  {below : List Frame}

theorem issued_modify (s : Scope) (f : Frame → Frame) (place : Placement) :
    (s.modify f place).issued = s.issued := by
  cases place with
  | outermost => rfl
  | innermost =>
    unfold modify modifyCurrent
    dsimp only
    split <;> rfl

theorem declared_ok_iff {place : Placement} :
    declared (s.add place x t) = .ok (v, s') ↔ (s.frame place).binds x = false ∧
      v = ⟨x, t, Name.fresh x s.issued.keys⟩ ∧
      s' = { s.modify (fun f => { f with vars := f.vars.insert x v }) place with
        issued := s.issued.insert v.unique t } := by
  unfold add declared
  cases hbinds : (s.frame place).binds x with
  | true => simp [Except.map]
  | false =>
    simp only [Bool.false_eq_true, if_false, Except.map, Except.ok.injEq, Prod.mk.injEq,
      issued_modify, true_and]
    constructor
    · rintro ⟨rfl, rfl⟩
      exact ⟨rfl, rfl⟩
    · rintro ⟨rfl, rfl⟩
      exact ⟨rfl, rfl⟩

/-- A declaration puts a variable into the current frame, under a name not given out. -/
theorem declare_ok (hs : s.inner = f :: below) (h : s.declare x t = .ok (v, s')) :
    f.binds x = false ∧ v.name = x ∧ v.type = t ∧ s.issued.get? v.unique = none ∧
      s' = { s with
        inner := { f with vars := f.vars.insert v.name v } :: below
        issued := s.issued.insert v.unique v.type } := by
  obtain ⟨hbinds, rfl, rfl⟩ := declared_ok_iff.mp h
  have hbinds : f.binds x = false := by simpa [frame, current, hs] using hbinds
  refine ⟨hbinds, rfl, rfl, ?_, ?_⟩
  · exact (not_mem_keys_iff _ _).mp (Name.fresh_not_mem x s.issued.keys)
  · simp [modify, modifyCurrent, hs]

theorem temporary_eq (hs : s.inner = f :: below) (h : s.temporary t = (v, s')) :
    v.unique = v.name ∧ v.type = t ∧ (v.name ∉ s.visible ∧ IsTemporary v.name) ∧
      s.issued.get? v.unique = none ∧ s' = { s with
        inner := { f with vars := f.vars.insert v.name v } :: below
        issued := s.issued.insert v.unique v.type } := by
  unfold temporary at h
  cases h
  have hfresh := Name.fresh_not_mem "tmp" (s.issued.keys ++ s.frames.flatMap Frame.names)
  rw [mem_append, not_or] at hfresh
  refine ⟨rfl, rfl, ⟨hfresh.2, (Name.exists_fresh _ _).imp fun _ h => h.1⟩,
    (not_mem_keys_iff _ _).mp hfresh.1, ?_⟩
  simp [modifyCurrent, hs]

end Names

end Scope

/-- A frame that keeps its variables keeps its names. -/
theorem Frame.names_subset (hkeep : ∀ x v, f.vars.get? x = some v → vars.get? x = some v) :
    f.names ⊆ ({ f with vars } : Frame).names := by
  intro x hx
  rcases mem_append.mp hx with hx | hx
  · obtain ⟨v, hv⟩ := exists_of_mem_keys hx
    exact mem_append_left _ (mem_keys_of_get? (hkeep x v hv))
  · exact mem_append_right _ hx

/-! ## Steps -/

/-- What a step inside a body keeps of the state; `new` are the names it declares in the current
frame. -/
structure Compiler.Step (new : List String) (s s' : Compiler) : Prop where
  resolver : s'.resolver = s.resolver
  globals : s'.globals = s.globals
  callStack : s'.callStack = s.callStack
  outermost : s'.scope.outermost = s.scope.outermost
  inner : ∀ f below, s.scope.inner = f :: below → ∃ vars,
    s'.scope.inner = { f with vars } :: below ∧
      (∀ x v, f.vars.get? x = some v → vars.get? x = some v) ∧
      ∀ x ∈ vars.keys, x ∈ f.vars.keys ∨ x ∈ new ∨
        x ∉ s.scope.visible ∧ Scope.IsTemporary x
  fresh : ∀ f ∈ s'.scope.inner, ∀ x v, f.vars.get? x = some v →
    (∃ g ∈ s.scope.inner, g.vars.get? x = some v) ∨ s.scope.issued.get? v.unique = none
  issued : ∀ x t, s.scope.issued.get? x = some t → s'.scope.issued.get? x = some t
  outputs : ∀ x o, s.outputs.get? x = some o → s'.outputs.get? x = some o
  typed : s.scope.Typed → s'.scope.Typed

namespace Compiler.Step

variable {new new' : List String} {s s₁ s₂ : Compiler}

theorem refl (s : Compiler) : Step new s s where
  resolver := rfl
  globals := rfl
  callStack := rfl
  outermost := rfl
  inner := fun f _ h => ⟨f.vars, h, fun _ _ h => h, fun _ hx => .inl hx⟩
  fresh := fun f hf _ _ hx => .inl ⟨f, hf, hx⟩
  issued := fun _ _ h => h
  outputs := fun _ _ h => h
  typed := fun h => h

theorem mono (h : Step new s s₁) (hnew : new ⊆ new') : Step new' s s₁ := by
  refine { h with inner := fun f below hs => ?_ }
  obtain ⟨vars, hinner, hkeep, hkeys⟩ := h.inner f below hs
  refine ⟨vars, hinner, hkeep, fun x hx => ?_⟩
  rcases hkeys x hx with h | h | h
  · exact .inl h
  · exact .inr (.inl (hnew h))
  · exact .inr (.inr h)

theorem inner_ne_nil (h : Step new s s₁) (hs : s.scope.inner ≠ []) : s₁.scope.inner ≠ [] := by
  obtain ⟨f, below, hf⟩ := exists_cons_of_ne_nil hs
  obtain ⟨vars, hvars, -⟩ := h.inner f below hf
  rw [hvars]
  exact cons_ne_nil _ _

theorem keys_issued (h : Step new s s₁) : s.scope.issued.keys ⊆ s₁.scope.issued.keys := by
  intro x hx
  obtain ⟨t, ht⟩ := exists_of_mem_keys hx
  exact mem_keys_of_get? (h.issued x t ht)

variable {x : String}

/-- The names that inner frames bind stay bound. -/
theorem bound (h : Step new s s₁) (hx : ∃ f ∈ s.scope.inner, x ∈ f.names) :
    ∃ f ∈ s₁.scope.inner, x ∈ f.names := by
  obtain ⟨g, hg, hgx⟩ := hx
  obtain ⟨f, below, hf⟩ := exists_cons_of_ne_nil (ne_nil_of_mem hg)
  obtain ⟨vars, hvars, hkeep, -⟩ := h.inner f below hf
  rw [hf] at hg
  rw [hvars]
  rcases mem_cons.mp hg with rfl | hg
  · exact ⟨_, mem_cons_self, Frame.names_subset hkeep hgx⟩
  · exact ⟨g, mem_cons_of_mem _ hg, hgx⟩

theorem visible (h : Step new s s₁) (hx : x ∈ s.scope.visible) : x ∈ s₁.scope.visible := by
  obtain ⟨g, hg, hgx⟩ := mem_flatMap.mp hx
  rw [Scope.frames, mem_cons, mem_reverse] at hg
  rcases hg with rfl | hg
  · rw [← h.outermost] at hgx
    exact Scope.mem_visible mem_cons_self hgx
  · obtain ⟨f, hf, hfx⟩ := h.bound ⟨g, hg, hgx⟩
    exact Scope.mem_visible (mem_cons_of_mem _ hf) hfx

theorem trans (h₁ : Step new s s₁) (h₂ : Step new s₁ s₂) :
    Step new s s₂ where
  resolver := h₂.resolver.trans h₁.resolver
  globals := h₂.globals.trans h₁.globals
  callStack := h₂.callStack.trans h₁.callStack
  outermost := h₂.outermost.trans h₁.outermost
  inner := fun f below hf => by
    obtain ⟨vars₁, hinner₁, hkeep₁, hkeys₁⟩ := h₁.inner f below hf
    obtain ⟨vars₂, hinner₂, hkeep₂, hkeys₂⟩ := h₂.inner _ below hinner₁
    refine ⟨vars₂, hinner₂, fun x v hx => hkeep₂ x v (hkeep₁ x v hx), fun x hx => ?_⟩
    rcases hkeys₂ x hx with h | h | h
    · exact hkeys₁ x h
    · exact .inr (.inl h)
    · exact .inr (.inr ⟨fun hx => h.1 (h₁.visible hx), h.2⟩)
  fresh := fun f hf x v hx => by
    rcases h₂.fresh f hf x v hx with ⟨g, hg, hx⟩ | hfree
    · exact h₁.fresh g hg x v hx
    · right
      cases hold : s.scope.issued.get? v.unique with
      | none => rfl
      | some t =>
        rw [h₁.issued _ t hold] at hfree
        cases hfree
  issued := fun x t hx => h₂.issued x t (h₁.issued x t hx)
  outputs := fun x o hx => h₂.outputs x o (h₁.outputs x o hx)
  typed := fun h => h₂.typed (h₁.typed h)

/-- A step inside a frame of its own, seen from outside. -/
theorem pop {formals : Dictionary String}
    (h : Step new (s.push formals) s₁) :
    Step new' s s₁.pop := by
  obtain ⟨vars, hinner, -⟩ := h.inner { formals } s.scope.inner rfl
  have hpop : s₁.scope.pop.inner = s.scope.inner := by simp [Scope.pop, hinner]
  exact { h with
    inner := fun f below hf =>
      ⟨f.vars, hpop.trans hf, fun _ _ hx => hx, fun _ hx => .inl hx⟩
    fresh := fun f hf _ _ hx => .inl ⟨f, hpop ▸ hf, hx⟩
    typed := by
      intro hs f hf
      refine h.typed (hs.push formals) f ?_
      rcases mem_cons.mp hf with rfl | hf
      · exact mem_cons_self
      · exact mem_cons_of_mem _ (mem_of_mem_tail hf) }

/-- A variable goes into the current frame under a name that was not given out. -/
theorem of_insert {below : List Frame} (hs : s.scope.inner = f :: below) (v : Variable)
    (hfree : s.scope.issued.get? v.unique = none) (hname : f.vars.get? v.name = none)
    (hnew : v.name ∈ new ∨ v.name ∉ s.scope.visible ∧ Scope.IsTemporary v.name) :
    Step new s { s with scope := { s.scope with
      inner := { f with vars := f.vars.insert v.name v } :: below
      issued := s.scope.issued.insert v.unique v.type } } := by
  have hissued : ∀ x t, s.scope.issued.get? x = some t →
      (s.scope.issued.insert v.unique v.type).get? x = some t := by
    intro x t hx
    rw [get?_insert_of_ne _, hx]
    rintro rfl
    rw [hfree] at hx
    cases hx
  refine
    { resolver := rfl
      globals := rfl
      callStack := rfl
      outermost := rfl
      inner := ?_
      fresh := ?_
      issued := hissued
      outputs := fun _ _ h => h
      typed := ?_ }
  · intro g below' hg
    rw [hs] at hg
    cases hg
    refine ⟨_, rfl, ?_, ?_⟩
    · intro x w hx
      rw [get?_insert_of_ne _, hx]
      rintro rfl
      rw [hname] at hx
      cases hx
    · intro x hx
      rw [keys_insert] at hx
      split at hx
      · exact .inl hx
      · rcases mem_append.mp hx with hx | hx
        · exact .inl hx
        · obtain rfl := mem_singleton.mp hx
          exact .inr hnew
  · intro g hg x w hx
    rcases mem_cons.mp hg with rfl | hg
    · rcases get?_insert_cases hx with ⟨-, rfl⟩ | hx
      · exact .inr hfree
      · exact .inl ⟨f, hs ▸ mem_cons_self, hx⟩
    · exact .inl ⟨g, hs ▸ mem_cons_of_mem _ hg, hx⟩
  · intro htyped g hg x w hx
    rcases mem_cons.mp hg with rfl | hg
    · exact hissued _ _ (htyped _ mem_cons_self x w hx)
    · rcases mem_cons.mp hg with rfl | hg
      · rcases get?_insert_cases hx with ⟨-, rfl⟩ | hx
        · exact get?_insert_self _ _ _
        · refine hissued _ _ (htyped f ?_ x w hx)
          rw [hs]
          exact mem_cons_of_mem _ mem_cons_self
      · refine hissued _ _ (htyped g ?_ x w hx)
        rw [hs]
        exact mem_cons_of_mem _ (mem_cons_of_mem _ hg)

/-- A step changes the meaning of no name but those that it declares. -/
theorem get? (h : Step new s s₁) (hinner : s.scope.inner ≠ []) {v : Variable} (hnew : x ∉ new)
    (hx : s.scope.get? x = some v) : s₁.scope.get? x = some v := by
  obtain ⟨f, below, hf⟩ := exists_cons_of_ne_nil hinner
  obtain ⟨vars, hvars, hkeep, hkeys⟩ := h.inner f below hf
  have hvisible := Scope.mem_visible_of_get? hx
  rw [Scope.get?, hf] at hx
  rw [Scope.get?, hvars, h.outermost, Scope.lookup_congr, hx]
  cases hold : f.vars.get? x with
  | some w => exact hkeep x w hold
  | none =>
    cases hget : vars.get? x with
    | none => rfl
    | some w =>
      rcases hkeys x (mem_keys_of_get? hget) with hmem | hmem | hmem
      · exact absurd hmem ((not_mem_keys_iff _ _).mpr hold)
      · exact absurd hmem hnew
      · exact absurd hvisible hmem.1

end Compiler.Step

namespace Compile

open Surface.Node (located_true)

/-! ## Rules -/

section Rules

variable {α β : Type} {new new' : List String}
variable {x : Compile α}

/-- Inside a body, a step moves the state on and declares at most the given names. -/
def Advances (new : List String) (x : Compile α) : Prop :=
  ∀ s a s' code, s.scope.inner ≠ [] → Runs x s a s' code → Compiler.Step new s s'

theorem Advances.mono (h : Advances new x) (hnew : new ⊆ new') : Advances new' x :=
  fun s a s' code hs hx => (h s a s' code hs hx).mono hnew

theorem Advances.quiet (h : Advances [] x) : Advances new x :=
  h.mono (nil_subset new)

theorem Advances.pure (a : α) : Advances new (Pure.pure a) := by
  intro s b s' code _ h
  obtain ⟨-, rfl, -⟩ := runs_pure_iff.mp h
  exact .refl s'

theorem Advances.bind {f : α → Compile β} (hx : Advances new x) (hf : ∀ a, Advances new (f a)) :
    Advances new (x >>= f) := by
  intro s b s' code hs h
  obtain ⟨a, s₁, c₁, c₂, h₁, h₂, -⟩ := runs_bind_iff.mp h
  have hstep := hx s a s₁ c₁ hs h₁
  exact hstep.trans (hf a s₁ b s' c₂ (hstep.inner_ne_nil hs) h₂)

theorem Advances.fail (e : CompileError) : Advances new (fail e : Compile α) :=
  fun _ _ _ _ _ h => absurd h not_runs_fail

theorem Advances.lift (x : Except CompileError α) : Advances new (lift x) := by
  intro s a s' code _ h
  obtain ⟨-, rfl, -⟩ := runs_lift_iff.mp h
  exact .refl s'

theorem Advances.state : Advances new state := by
  intro s a s' code _ h
  obtain ⟨-, rfl, -⟩ := runs_state_iff.mp h
  exact .refl s'

theorem Advances.write (stmt : Stmt) : Advances new (write stmt) := by
  intro s a s' code _ h
  obtain ⟨rfl, -⟩ := runs_write_iff.mp h
  exact .refl s'

theorem Advances.capture {x : Compile Unit} (hx : Advances new x) :
    Advances new (capture x) := by
  intro s body s' code hs h
  exact hx s () s' body hs (runs_capture_iff.mp h).1

theorem Advances.inFrame {formals : Dictionary String} (hx : Advances new x) :
    Advances new' (inFrame formals x) := by
  intro s a s' code _ h
  obtain ⟨s₁, h₁, rfl⟩ := runs_inFrame_iff.mp h
  exact (hx _ a s₁ code (cons_ne_nil _ _) h₁).pop

theorem Advances.inBody {d : Definition} {formals : Dictionary String} (hx : Advances new x) :
    Advances new' (inBody d formals x) := by
  intro s a s' code _ h
  obtain ⟨s₁, h₁, rfl⟩ := runs_inBody_iff.mp h
  have hstep := hx _ a s₁ code (cons_ne_nil _ _) h₁
  have hpop : Compiler.Step new'
      { s with resolver := s.resolver.enter d.module, callStack := d.key :: s.callStack }
      s₁.pop := hstep.pop
  exact { hpop with
    resolver := congrArg Resolver.exit hpop.resolver
    callStack := congrArg List.tail hpop.callStack }

end Rules

/-! ## Small steps -/

section Steps

variable {new : List String}

theorem advances_valueType? (t : Option Surface.TypeName) : Advances new (valueType? t) := by
  intro s a s' code _ h
  obtain ⟨-, rfl, -⟩ := runs_valueType?_iff.mp h
  exact .refl s'

theorem advances_declare (span : Span) (x : String) (t : ValueType) :
    Advances [x] (declare span x t) := by
  intro s y s' code hs h
  obtain ⟨v, scope, hdeclare, -, rfl, -⟩ := runs_declare_iff.mp h
  obtain ⟨f, below, hf⟩ := exists_cons_of_ne_nil hs
  obtain ⟨hbinds, hname, -, hfree, rfl⟩ := Scope.declare_ok hf hdeclare
  have hvars : f.vars.get? v.name = none := by
    rw [hname]
    simpa [Dictionary.contains] using (Bool.or_eq_false_iff.mp hbinds).1
  exact .of_insert hf v hfree hvars (.inl (by simp [hname]))

theorem advances_temporary (t : ValueType) : Advances new (temporary t) := by
  intro s v s' code hs h
  obtain ⟨hv, rfl, -⟩ := runs_temporary_iff.mp h
  obtain ⟨f, below, hf⟩ := exists_cons_of_ne_nil hs
  have htemporary : s.scope.temporary t = (v, (s.scope.temporary t).2) := by rw [hv]
  obtain ⟨-, -, hvisible, hfree, hscope⟩ := Scope.temporary_eq hf htemporary
  have hvars : f.vars.get? v.name = none := by
    by_contra hne
    refine hvisible.1 (Scope.mem_visible (f := f) ?_ (mem_append_left _ ?_))
    · rw [hf]
      exact mem_cons_of_mem _ mem_cons_self
    · rw [mem_keys_iff]
      exact Option.isSome_iff_ne_none.mpr hne
  rw [hscope]
  exact .of_insert hf v hfree hvars (.inr hvisible)

theorem advances_variable (span : Span) (x : String) : Advances new (variable_ span x) := by
  intro s a s' code _ h
  obtain ⟨-, rfl, -⟩ := runs_variable_iff.mp h
  exact .refl s'

theorem advances_coerce (span : Span) (e : Expr) (t : ValueType) :
    Advances new (coerce span e t) := by
  intro s a s' code _ h
  obtain ⟨-, rfl, -⟩ := runs_coerce_iff.mp h
  exact .refl s'

theorem advances_recordOutput (span : Span) (x : String) (t : ValueType) :
    Advances new (recordOutput span x t) := by
  intro s a s' code _ h
  obtain ⟨-, ⟨rfl, -⟩ | ⟨hget, rfl⟩⟩ := runs_recordOutput h
  · exact .refl s'
  · have hstep : Compiler.Step new s s := .refl s
    refine { hstep with outputs := ?_ }
    intro y o hy
    rw [get?_insert_of_ne _, hy]
    rintro rfl
    rw [hget] at hy
    cases hy

end Steps

/-! ## Bodies -/

/-- Every expansion of a call moves the state on. -/
def Expander.Advancing (expand : Expander) : Prop :=
  ∀ span d args, Advances [] (expand span d args)

section Bodies

variable {expand : Expander} (hexpand : expand.Advancing) {new : List String}
include hexpand

theorem advances_call (span : Span) (name : String) (args : Arguments) :
    Advances new (call expand span name args) := by
  intro s r s' code hs h
  rcases runs_call h with ⟨i, fit, -, -, rfl, -⟩ | ⟨d, fit, -, h⟩
  · exact .refl s'
  · exact (hexpand span d fit.args).quiet s r s' code hs h

theorem Parallel.advances {P : Span → Prop} {α : Type} {x y : Compile α}
    (h : Parallel P expand expand new x y) : Advances new x := by
  induction h with
  | pure a => exact .pure a
  | fail => exact .fail _
  | bind _ _ hx hf => exact hx.bind hf
  | mono _ hnew ih => exact ih.mono hnew
  | write st => exact .write st
  | capture _ ih => exact ih.capture
  | inFrame _ _ ih => exact ih.inFrame
  | valueType? => exact advances_valueType? _
  | declare _ hx t => exact (advances_declare _ _ t).mono (cons_subset.mpr ⟨hx, by simp⟩)
  | variable_ _ x => exact advances_variable _ x
  | coerce _ e t => exact advances_coerce _ e t
  | access => exact .lift _
  | recordOutput _ x t => exact advances_recordOutput _ x t
  | call _ name args => exact advances_call hexpand _ name args

theorem advances_expr (e : Surface.Expr) : Advances new (expr expand e) :=
  ((parallel_expr e (located_true _)).advances hexpand).quiet

theorem advances_exprs (es : List Surface.Expr) : Advances new (exprs expand es) :=
  ((parallel_exprs es fun _ _ => located_true _).advances hexpand).quiet

theorem advances_keywordExprs (es : List (String × Surface.Expr)) :
    Advances new (keywordExprs expand es) :=
  ((parallel_keywordExprs es fun _ _ => located_true _).advances hexpand).quiet

theorem advances_attributes (as : List Surface.Attribute) (done : Dictionary Expr) :
    Advances new (attributes expand as done) :=
  ((parallel_attributes (fun _ _ _ _ => located_true _) done).advances hexpand).quiet

theorem advances_stmt (s : Surface.Stmt) : Advances s.declares (stmt expand s) :=
  (parallel_stmt s (located_true _)).advances hexpand

theorem advances_alternatives (rest : Surface.Alternatives) :
    Advances new (alternatives expand rest) :=
  ((parallel_alternatives rest fun _ _ => located_true _).advances hexpand).quiet

theorem advances_stmts (ss : List Surface.Stmt) :
    Advances (ss.flatMap Surface.Stmt.declares) (stmts expand ss) :=
  (parallel_stmts ss fun _ _ => located_true _).advances hexpand

theorem advances_body (ss : List Surface.Stmt) :
    Advances (ss.flatMap Surface.Stmt.declares) (body expand ss) :=
  (parallel_body fun _ _ => located_true _).advances hexpand

end Bodies

theorem advances_temporaries (bound : List (Surface.Param × Expr)) (done : Dictionary String) :
    Advances [] (temporaries bound done) := by
  induction bound generalizing done with
  | nil => exact .pure _
  | cons b bound ih =>
    exact (advances_temporary b.2.type).bind fun v => (Advances.write _).bind fun _ => ih _

theorem advancing_expandWith {expand : Expander} (hexpand : expand.Advancing) :
    (expandWith expand).Advancing := by
  intro span d args
  refine (advances_valueType? d.function.returns).bind fun returns => ?_
  refine (advances_temporaries _ []).bind fun formals => ?_
  refine (advances_body hexpand d.function.body).inBody.bind fun value => ?_
  split
  · exact (advances_coerce span _ _).bind fun e => .pure _
  · exact .pure _

theorem advancing_expander (depth : Nat) : (expander depth).Advancing := by
  induction depth with
  | zero => exact fun span d args => .fail _
  | succ depth ih =>
    intro span d args
    refine Advances.state.bind fun s => ?_
    split
    · exact .fail _
    · exact advancing_expandWith ih span d args

end Compile

end DataMarks
