/-
  What parameters mean in a function that is expanded.

  An expanded call gives each argument to a temporary, and the frame of the body forwards the
  parameters to the temporaries. Steps inside the body put only new names and the names that
  the source declares into frames, so a parameter keeps its variable wherever the body does not
  declare its name again (`Compile.parameter_lookup`). This is so whatever the caller has in
  its frames, as the temporary gets a name that none of them binds.
-/
import DataMarks.Proofs.Accounts

namespace DataMarks.Compile

open List

/-- Names have their variables at a place of a body, but for those that are declared around it.
Functions that are expanded there may bind them anew. -/
structure Means (old : List String) (vars : List (String × Variable)) (b : Binders)
    (scope : Scope) : Prop where
  inner : scope.inner ≠ []
  issued : old ⊆ scope.issued.keys
  get? : b.callers = [] → ∀ m ∈ vars, m.1 ∉ b.own → scope.get? m.1 = some m.2

theorem carries_means (old : List String) (vars : List (String × Variable)) :
    Carries old (Means old vars) where
  inner := Means.inner
  issued := Means.issued
  step := by
    intro b new s s' h hstep _
    refine ⟨hstep.inner_ne_nil h.inner, List.Subset.trans h.issued hstep.keys_issued, ?_⟩
    intro hcallers m hm hown
    rw [Binders.add, mem_append, not_or] at hown
    exact hstep.get? h.inner hown.1 (h.get? hcallers m hm hown.2)
  block := by
    intro b scope h
    refine ⟨cons_ne_nil _ _, h.issued, fun hcallers m hm hown => ?_⟩
    rw [← h.get? hcallers m hm hown]
    exact Scope.lookup_below rfl rfl
  enter := by
    intro b s s' formals code d args h _ hrun
    have hstep := advances_temporaries _ _ s formals s' code h.inner hrun
    refine ⟨cons_ne_nil _ _, List.Subset.trans h.issued hstep.keys_issued, fun hcallers => ?_⟩
    cases hcallers

/-- The variable of a parameter, which holds the argument. -/
structure Receives (s : Compiler) (code : List Stmt) (k : Nat) (e : Expr) (v : Variable) :
    Prop where
  assigned : code[k]? = some (.assign v.unique e)
  type : v.type = e.type
  new : v.unique ∉ s.scope.issued.keys

/-- Parameters of different names are forwarded to the temporaries that hold their arguments. -/
theorem temporaries_receive {bound : List (Surface.Param × Expr)} {s : Compiler}
    (hinner : s.scope.inner ≠ []) (hnodup : (bound.map fun b => b.1.name).Nodup)
    (done : Dictionary String) :
    ∃ formals s₁ code, Runs (temporaries bound done) s formals s₁ code ∧
      s₁.scope.inner ≠ [] ∧
      (∀ x, x ∉ bound.map (fun b => b.1.name) → formals.get? x = done.get? x) ∧
      ∀ k b, bound[k]? = some b → ∃ v, Receives s code k b.2 v ∧
        formals.get? b.1.name = some v.name ∧ s₁.scope.get? v.name = some v := by
  induction bound generalizing done s with
  | nil =>
    refine ⟨done, s, [], runs_pure_iff.mpr ⟨rfl, rfl, rfl⟩, hinner, fun _ _ => rfl, ?_⟩
    intro k b hb
    cases hb
  | cons b bound ih =>
    obtain ⟨p, e⟩ := b
    rw [map_cons, nodup_cons] at hnodup
    have htemporary : Runs (temporary e.type) s (s.scope.temporary e.type).1
        { s with scope := (s.scope.temporary e.type).2 } [] :=
      runs_temporary_iff.mpr ⟨rfl, rfl, rfl⟩
    generalize (s.scope.temporary e.type).1 = v at htemporary
    obtain ⟨hnew, htype, hget, -⟩ := new_of_temporary hinner htemporary
    have hstep : Compiler.Step [] s _ := advances_temporary _ s v _ [] hinner htemporary
    generalize { s with scope := (s.scope.temporary e.type).2 } = s₁ at htemporary hget hstep
    obtain ⟨formals, s₂, code, hrun, hinner₂, hkept, hlater⟩ :=
      ih (hstep.inner_ne_nil hinner) hnodup.2 (done.insert p.name v.name)
    refine ⟨formals, s₂, .assign v.unique e :: code, ?_, hinner₂, ?_, ?_⟩
    · rw [temporaries]
      refine runs_bind_iff.mpr ⟨v, s₁, [], _, htemporary, ?_, rfl⟩
      exact runs_bind_iff.mpr ⟨(), s₁, _, _, runs_write_iff.mpr ⟨rfl, rfl⟩, hrun, rfl⟩
    · intro x hx
      rw [map_cons, mem_cons, not_or] at hx
      rw [hkept x hx.2, Dictionary.get?_insert_of_ne hx.1]
    · intro k b hb
      cases k with
      | zero =>
        obtain rfl := Option.some.inj hb
        have hinner₁ := hstep.inner_ne_nil hinner
        have hlast := advances_temporaries bound _ s₁ formals s₂ code hinner₁ hrun
        refine ⟨v, ⟨rfl, htype, hnew⟩, ?_, ?_⟩
        · rw [hkept p.name hnodup.1, Dictionary.get?_insert_self]
        · exact hlast.get? hinner₁ not_mem_nil hget
      | succ k =>
        obtain ⟨w, hw, hformal, hw₂⟩ := hlater k b hb
        exact ⟨w, ⟨hw.assigned, hw.type, fun hold => hw.new (hstep.keys_issued hold)⟩, hformal, hw₂⟩

/-- The lookups in the body of a function that is expanded. Each knows the names that the blocks of
the body declare around it; those in functions that are expanded there in turn have callers. -/
def expansionLookups (levels : Nat) (d : Definition) (args : List Expr) (s : Compiler) :
    List Lookup :=
  after (temporaries (d.function.params.zip args) []) s fun formals s₁ =>
    bodyLookups (expander levels) (tracer levels) d.function.body { own := [] }
      (s₁.enter d formals)

/-- A call is expanded to assignments to temporaries and to what the body gives in the frame that
forwards the parameters to them. Lookups account for all that the body reads of what was there
before it. Wherever one is made in the body, a parameter that no block around the place declares
again means the temporary that the call gives the argument to. -/
theorem parameter_lookup {s : Compiler} {name : String} {given : Arguments} {d : Definition}
    {fit : Fit} (hinner : s.scope.inner ≠ [])
    (hresolve : s.resolver.resolve name given = .ok (.defined d, fit))
    (hnodup : (d.function.params.map Surface.Param.name).Nodup) (levels : Nat) :
    ∃ formals s₁ code,
      Runs (temporaries (d.function.params.zip fit.args) []) s formals s₁ code ∧
      (∀ span r s' written, Runs (expander (levels + 1) span d fit.args) s r s' written →
        ∃ value s₂ rest, written = code ++ rest ∧
          Runs (body (expander levels) d.function.body) (s₁.enter d formals) value s₂ rest ∧
          ∀ m ∈ Expr.readsAll value.toList ++ Stmt.mentionsAll rest,
            m.1 ∈ s₁.scope.issued.keys →
              ∃ l ∈ expansionLookups levels d fit.args s, l.Finds m) ∧
      ∀ l ∈ expansionLookups levels d fit.args s, l.binders.callers = [] →
        ∀ k p, d.function.params[k]? = some p → p.name ∉ l.binders.own →
          ∃ e v, fit.args[k]? = some e ∧ Receives s code k e v ∧ l.scope.get? p.name = some v := by
  have hlength := Resolver.length_of_resolve hresolve
  have hnames : ((d.function.params.zip fit.args).map fun b => b.1.name) =
      d.function.params.map Surface.Param.name := by
    conv_rhs => rw [← List.map_fst_zip (Nat.le_of_eq hlength), List.map_map]
    rfl
  obtain ⟨formals, s₁, code, hrun, hinner₁, -, hreceive⟩ :=
    temporaries_receive hinner (hnames ▸ hnodup) []
  have hexplains : ∀ vars : List (String × Variable),
      (∀ m ∈ vars, (s₁.scope.push formals).get? m.1 = some m.2) →
      Explains (Means s₁.scope.issued.keys vars) s₁.scope.issued.keys []
        (fun r => Expr.readsAll r.toList) (body (expander levels) d.function.body)
        (s₁.enter d formals) (expansionLookups levels d fit.args s) := by
    intro vars hvars
    rw [expansionLookups, hrun.after_eq]
    exact body_explains (carries_means _ vars) (advancing_expander levels)
      (follows_tracer (carries_means _ vars) levels) d.function.body
      ⟨List.cons_ne_nil _ _, List.Subset.refl _, fun _ m hm _ => hvars m hm⟩
  refine ⟨formals, s₁, code, hrun, ?_, ?_⟩
  · intro span r s' written hexpanded
    obtain ⟨-, hexpanded⟩ := runs_expander_succ hexpanded
    obtain ⟨returns, formals', s₁', c₁, value, c₂, -, h₁, h₂, rfl, -⟩ := runs_expandWith hexpanded
    cases hrun.symm.trans h₁
    obtain ⟨s₂, hbody, -⟩ := runs_inBody_iff.mp h₂
    refine ⟨value, s₂, c₂, rfl, hbody, fun m hm hold => ?_⟩
    rcases (hexplains [] (List.forall_mem_nil _)).mentions hbody m hm with hfound | hgiven | hnew
    · exact hfound
    · cases hgiven
    · exact absurd hold hnew
  · intro l hl hcallers k p hp hown
    have hk : k < fit.args.length := by
      rw [← hlength]
      exact (List.getElem?_eq_some_iff.mp hp).1
    obtain ⟨v, hv, hformal, hget⟩ := hreceive k (p, fit.args[k])
      (List.getElem?_zip_eq_some.mpr ⟨hp, List.getElem?_eq_getElem hk⟩)
    refine ⟨fit.args[k], v, List.getElem?_eq_getElem hk, hv, ?_⟩
    have hmeans : (s₁.scope.push formals).get? p.name = some v := by
      rw [← hget]
      exact Scope.lookup_formals rfl hformal
    have hplace := (hexplains [(p.name, v)] (List.forall_mem_singleton.mpr hmeans)).places l hl
    exact hplace.get? hcallers _ List.mem_cons_self hown

/-- A function that passes its parameters on in the other order and declares one of their names
again. -/
def turned : Surface.Function where
  span := default
  kind := .function
  name := "turned"
  params := [⟨default, "a", ⟨default, "float"⟩, none⟩, ⟨default, "b", ⟨default, "float"⟩, none⟩]
  returns := some ⟨default, "float"⟩
  body := [
    .block default [
      .declare default "a" none
        (some (.binary default .add (.name default "a") (.name default "b"))),
      .assign default "a" (.call default "inner" [.name default "b", .name default "a"] [])],
    .return_ default (.call default "inner" [.name default "b", .name default "a"] [])]

def inner : Surface.Function :=
  { turned with
    name := "inner"
    body := [.return_ default (.binary default .sub (.name default "a") (.name default "b"))] }

/-- The body of a function with parameters of the same names, passed in temporaries. -/
def turning : Compiler where
  resolver := { functions := [⟨none, turned⟩, ⟨none, inner⟩] }
  globals := []
  scope :=
    { inner := [{ formals := [("a", "tmp"), ("b", "tmp1")] },
        { vars := [("tmp", ⟨"tmp", .float, "tmp"⟩), ("tmp1", ⟨"tmp1", .int, "tmp1"⟩)] }]
      issued := [("tmp", .float), ("tmp1", .int)] }

/-- The arguments of a call of `turned`, of which the first is converted. -/
def turnedArgs : List Expr :=
  [.call .float "@cast:int:float:int:float" [.var .int "tmp1"], .var .float "tmp"]

theorem resolve_turning : turning.resolver.resolve "turned"
    ⟨[.var .int "tmp1", .var .float "tmp"], []⟩ =
      .ok (.defined ⟨none, turned⟩, { args := turnedArgs, rank := 1, conversions := 1 }) := by
  rfl

theorem lookups_turning : ∃ l ∈ expansionLookups 2 ⟨none, turned⟩ turnedArgs turning,
    l.name = "b" ∧ l.binders.callers = [] ∧ l.binders.own = ["a"] := by
  decide +kernel

theorem parameter_lookup_turning : ∃ code v,
    ∃ l ∈ expansionLookups 2 ⟨none, turned⟩ turnedArgs turning, l.name = "b" ∧
      l.binders.own = ["a"] ∧ Receives turning code 1 (.var .float "tmp") v ∧
      l.scope.get? "b" = some v := by
  obtain ⟨formals, s₁, code, -, -, hlookup⟩ :=
    parameter_lookup (s := turning) (List.cons_ne_nil _ _) resolve_turning (by decide) 2
  obtain ⟨l, hl, hname, hcallers, hown⟩ := lookups_turning
  obtain ⟨e, v, he, hv, hget⟩ := hlookup l hl hcallers 1 _ rfl (by rw [hown]; decide)
  obtain rfl := Option.some.inj he
  exact ⟨code, v, l, hl, hname, hown, hv, hget⟩

end DataMarks.Compile
