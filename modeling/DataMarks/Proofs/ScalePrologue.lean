/-
  What the expansion of scales does to the inputs of a mark and to its prologue.

  Each step makes a variable of an input, assigns it in the prologue and makes inputs of
  the parameters that its value needs (`Expansion.Replaces`). Where the names that the
  expansion makes are new, the prologue assigns all scaled inputs and all inputs that take
  a scaled input from a neighbour, and every other input stays as it is
  (`Expansion.Follows.expandAll`).
-/
import DataMarks.Proofs.ScaleExpansion
import Mathlib.Logic.Relation

namespace DataMarks

open Dictionary List Parameter MarkBinding

variable {δ : Type}

/-! ## Names -/

/-- The variable that stands for a parameter of the scaling of `name`, for the neighbour that
`suffix` says. -/
def Parameter.copyName (name suffix : String) (p : Parameter δ) : String :=
  name ++ p.name ++ if p.source.isFunction then suffix else ""

theorem Parameter.copyName_empty (name : String) (p : Parameter δ) :
    p.copyName name "" = name ++ p.name := by
  simp [copyName]

variable {p : Parameter δ}

theorem Parameter.copyName_of_function (h : p.source.isFunction = true) (name suffix : String) :
    p.copyName name suffix = name ++ p.name ++ suffix := by
  simp [copyName, h]

theorem Parameter.copyName_of_not_function (h : p.source.isFunction = false) (name suffix : String) :
    p.copyName name suffix = name ++ p.name := by
  simp [copyName, h]

/-- The suffixes of an input itself and of its neighbours. -/
def Shift.endings : List String := "" :: Shift.suffixes.map Prod.fst

/-- The names that the expansion of scales makes for parameters and, where an input takes the
scaled input from a neighbour, for the neighbour's parameters. -/
def Mark.generated (m : Mark δ) : List String :=
  m.bindings.flatMap fun (n, b) =>
    match b with
    | .plain _ => []
    | .scaled s =>
      (Shift.endings.filter fun suffix => m.specification.inputs.contains (n ++ suffix)).flatMap
        fun suffix => s.parameters.map (Parameter.copyName n suffix)

theorem Mark.copyName_mem_generated {m : Mark δ} {n suffix : String} {s : Scaling δ}
    (hn : (n, scaled s) ∈ m.bindings) (hsuffix : suffix ∈ Shift.endings)
    (hinput : n ++ suffix ∈ m.specification.inputs.keys) (hp : p ∈ s.parameters) :
    p.copyName n suffix ∈ m.generated := by
  refine mem_flatMap.mpr ⟨(n, .scaled s), hn, mem_flatMap.mpr ⟨suffix, ?_, ?_⟩⟩
  · exact mem_filter.mpr ⟨hsuffix, (mem_keys_iff _ _).mp hinput⟩
  · exact mem_map_of_mem hp

/-! ## One variable -/

theorem Stmt.mem_assignsAll_iff {x : String} {ss : List Stmt} :
    x ∈ assignsAll ss ↔ ∃ s ∈ ss, x ∈ s.assigns := by
  induction ss with
  | nil => simp [assignsAll]
  | cons s ss ih => simp [assignsAll, ih]

namespace Expansion

/-- Names became inputs, and nothing else happened to inputs, variables and the prologue. -/
structure Adds (e e' : Expansion δ) (new : List String) : Prop where
  others : ∀ x ∉ new, e'.inputs.get? x = e.inputs.get? x
  made : ∀ x ∈ new, x ∈ e'.inputs.keys
  locals : e'.locals = e.locals
  prologue : e'.prologue = e.prologue

theorem Adds.refl (e : Expansion δ) : Adds e e [] :=
  ⟨fun _ _ => rfl, fun _ hx => (not_mem_nil hx).elim, rfl, rfl⟩

variable {new : List String} {x : String}

theorem Adds.trans {e₁ e₂ : Expansion δ} {new' : List String} (h : Adds e e₁ new)
    (h' : Adds e₁ e₂ new') : Adds e e₂ (new ++ new') where
  others x hx := by
    rw [mem_append, not_or] at hx
    rw [h'.others x hx.2, h.others x hx.1]
  made x hx := by
    by_cases hx' : x ∈ new'
    · exact h'.made x hx'
    · rw [mem_keys_iff, h'.others x hx', ← mem_keys_iff]
      exact h.made x ((mem_append.mp hx).resolve_right hx')
  locals := h'.locals.trans h.locals
  prologue := h'.prologue.trans h.prologue

variable {f : Expansion δ → Parameter δ → Expansion δ}

theorem Adds.foldl {names : Parameter δ → List String} (hf : ∀ e p, Adds e (f e p) (names p))
    (e : Expansion δ) (ps : List (Parameter δ)) : Adds e (ps.foldl f e) (ps.flatMap names) := by
  induction ps generalizing e with
  | nil => exact .refl e
  | cons p ps ih => exact (hf e p).trans (ih (f e p))

theorem bindParameter_adds (e : Expansion δ) (p : Parameter δ) :
    Adds e (e.bindParameter p) [p.name] where
  others x hx := get?_insert_of_ne (ne_of_not_mem_cons hx) _ _
  made x hx := by
    rw [mem_singleton.mp hx]
    exact mem_keys_insert_self _ _ _
  locals := rfl
  prologue := rfl

theorem shiftParameter_adds (suffix : String) (offset : Int) (e : Expansion δ) (p : Parameter δ) :
    Adds e (e.shiftParameter suffix offset p)
      (if p.source.isFunction then [p.name ++ suffix] else []) := by
  rw [shiftParameter]
  split
  · refine ⟨fun x hx => ?_, fun x hx => ?_, rfl, rfl⟩
    · exact get?_insert_of_ne (ne_of_not_mem_cons hx) _ _
    · rw [mem_singleton.mp hx]
      exact mem_keys_insert_self _ _ _
  · exact .refl e

/-- Input `y` became a variable with a value at the end of the prologue, and names became inputs
for it. -/
structure Replaces (e e' : Expansion δ) (y : String) (new : List String) (value : Expr) :
    Prop where
  others : ∀ x ∉ new, e'.inputs.get? x = if x = y then none else e.inputs.get? x
  made : ∀ x ∈ new, x ∈ e'.inputs.keys
  locals : y ∈ e'.locals.keys ∧ e.locals.keys ⊆ e'.locals.keys
  prologue : e'.prologue = e.prologue ++ [.assign y value]

variable {name n suffix : String} {t : ValueType} {s : Scaling δ} {e e' : Expansion δ} {value : Expr}

theorem Replaces.keeps {y : String} (h : Replaces e e' y new value) (hx : x ∈ e.inputs.keys)
    (hy : x ≠ y) : x ∈ e'.inputs.keys := by
  by_cases hnew : x ∈ new
  · exact h.made x hnew
  · rwa [mem_keys_iff, h.others x hnew, if_neg hy, ← mem_keys_iff]

theorem opened_replaces :
    Replaces e ((opened name t s e).assign name value) (name ++ "")
      (s.parameters.map (copyName name "")) value := by
  rw [show name ++ "" = name from String.append_empty]
  have hadds := Adds.foldl bindParameter_adds { e with inputs := e.inputs.erase name }
    (s.parameters.map (within name))
  have hnames : (s.parameters.map (within name)).flatMap (fun q => [q.name]) =
      s.parameters.map (copyName name "") := by
    rw [flatMap_map, ← map_eq_flatMap]
    refine map_congr_left fun p _ => ?_
    rw [copyName, ite_self, String.append_empty]
    rfl
  rw [hnames] at hadds
  have hlocals : ((opened name t s e).assign name value).locals = e.locals.insert name t :=
    congrArg (Dictionary.insert name t) hadds.locals
  refine ⟨fun x hx => ?_, hadds.made, ?_, ?_⟩
  · exact (hadds.others x hx).trans (get?_erase _ _ _)
  · rw [hlocals]
    exact ⟨mem_keys_insert_self _ _ _, keys_subset_insert _ _ _⟩
  · exact congrArg (· ++ [.assign name value]) hadds.prologue

theorem openedBeside_replaces (shift : String × Int) :
    Replaces e ((openedBeside name t s shift e).assign (name ++ shift.1) value) (name ++ shift.1)
      ((s.parameters.filter fun p => p.source.isFunction).map (copyName name shift.1))
      value := by
  have hadds := Adds.foldl (shiftParameter_adds shift.1 shift.2)
    { e.vary (name ++ shift.1) t with
      shifts := e.shifts.erase (name ++ shift.1)
      bindings := e.bindings.erase (name ++ shift.1) }
    (s.parameters.map (within name))
  have hnames : (s.parameters.map (within name)).flatMap (fun q =>
        if q.source.isFunction then [q.name ++ shift.1] else []) =
      (s.parameters.filter fun p => p.source.isFunction).map (copyName name shift.1) := by
    induction s.parameters with
    | nil => rfl
    | cons p ps ih =>
      rw [map_cons, flatMap_cons, ih, filter_cons]
      cases hp : p.source.isFunction with
      | true =>
        simp [within, copyName, hp]
      | false => simp [within, hp]
  rw [hnames] at hadds
  have hlocals : ((openedBeside name t s shift e).assign (name ++ shift.1) value).locals =
      e.locals.insert (name ++ shift.1) t := hadds.locals
  refine ⟨fun x hx => ?_, hadds.made, ?_, ?_⟩
  · exact (hadds.others x hx).trans (get?_erase _ _ _)
  · rw [hlocals]
    exact ⟨mem_keys_insert_self _ _ _, keys_subset_insert _ _ _⟩
  · exact congrArg (· ++ [.assign (name ++ shift.1) value]) hadds.prologue

/-- All that an expansion has under a name. -/
def view (e : Expansion δ) (x : String) :
    Option Input × Option ValueType × Option (Binding δ) × Option Shift :=
  (e.inputs.get? x, e.locals.get? x, e.bindings.get? x, e.shifts.get? x)

theorem mem_inputs_of_view (h : e'.view x = e.view x) :
    x ∈ e'.inputs.keys ↔ x ∈ e.inputs.keys := by
  have hinput : e'.inputs.get? x = e.inputs.get? x := congrArg Prod.fst h
  rw [mem_keys_iff, mem_keys_iff, hinput]

theorem view_foldl {ps : List (Parameter δ)} (hf : ∀ e, ∀ p ∈ ps, (f e p).view x = e.view x)
    (e : Expansion δ) : (ps.foldl f e).view x = e.view x := by
  induction ps generalizing e with
  | nil => rfl
  | cons p ps ih =>
    have hrest := ih (fun e q hq => hf e q (mem_cons_of_mem _ hq)) (f e p)
    exact hrest.trans (hf e p mem_cons_self)

theorem view_opened (hn : x ≠ n) (hp : ∀ p ∈ s.parameters, x ≠ p.copyName n "") :
    (opened n t s e).view x = e.view x := by
  have hstep : ∀ e : Expansion δ, ∀ q ∈ s.parameters.map (within n),
      (e.bindParameter q).view x = e.view x := by
    intro e q hq
    obtain ⟨p, hmem, rfl⟩ := mem_map.mp hq
    have hx : x ≠ n ++ p.name := p.copyName_empty n ▸ hp p hmem
    simp [view, bindParameter, within, get?_insert_of_ne hx]
  have hfold := view_foldl hstep { e with inputs := e.inputs.erase n }
  simp only [view, Prod.mk.injEq, get?_erase, if_neg hn] at hfold
  simp [view, opened, hfold, get?_insert_of_ne hn]

theorem view_openedBeside {shift : String × Int} (hn : x ≠ n ++ shift.1)
    (hp : ∀ p ∈ s.parameters, x ≠ p.copyName n shift.1) :
    (openedBeside n t s shift e).view x = e.view x := by
  refine (view_foldl (fun e q hq => ?_) _).trans ?_
  · obtain ⟨p, hmem, rfl⟩ := mem_map.mp hq
    rw [shiftParameter]
    split
    · rename_i hf
      have hf : p.source.isFunction = true := hf
      have hx : x ≠ n ++ p.name ++ shift.1 :=
        copyName_of_function hf n shift.1 ▸ hp p hmem
      simp [view, within, get?_insert_of_ne hx]
    · rfl
  · simp [view, vary, get?_erase, get?_insert_of_ne hn, hn]

/-! ## Steps -/

/-- Input `n ++ suffix` is replaced by its scaled value, and inputs are made for the parameters. -/
inductive Step (n suffix : String) (s : Scaling δ) (e e' : Expansion δ) : Prop
  | replace {new : List String} {value : Expr} (input : n ++ suffix ∈ e.inputs.keys)
      (scaled : s.expression (arguments n suffix s.parameters) = .ok value)
      (replaces : Replaces e e' (n ++ suffix) new value)
      (copied : ∀ y ∈ new, ∃ p ∈ s.parameters, p.copyName n suffix = y)
      (made : ∀ p ∈ s.parameters, p.source.isFunction = true → p.copyName n suffix ∈ new)
      (others : ∀ x, x ≠ n ++ suffix → (∀ p ∈ s.parameters, x ≠ p.copyName n suffix) →
        e'.view x = e.view x)

/-- The scale of `n` is expanded for one suffix after the other, where there is such an input. -/
inductive Expands (n : String) (s : Scaling δ) : List String → Expansion δ → Expansion δ → Prop
  | nil (e : Expansion δ) : Expands n s [] e e
  | pass {suffix : String} {suffixes : List String} {e e' : Expansion δ}
      (gone : n ++ suffix ∉ e.inputs.keys) (rest : Expands n s suffixes e e') :
      Expands n s (suffix :: suffixes) e e'
  | step {suffix : String} {suffixes : List String} {e e₁ e' : Expansion δ}
      (first : Step n suffix s e e₁) (rest : Expands n s suffixes e₁ e') :
      Expands n s (suffix :: suffixes) e e'

variable {bindings : Dictionary (MarkBinding δ)} {suffixes : List String}

theorem expands_foldlM {shifts : List (String × Int)}
    (h : shifts.foldlM (expandShift n t s) e = .ok e') :
    Expands n s (shifts.map Prod.fst) e e' := by
  induction shifts generalizing e with
  | nil =>
    cases h
    exact .nil _
  | cons shift shifts ih =>
    rw [foldlM_cons] at h
    obtain ⟨e₁, h₁, hrest⟩ := bind_ok.mp h
    obtain ⟨hgone, rfl⟩ | ⟨hhere, value, hvalue, rfl⟩ := expandShift_cases h₁
    · refine .pass ?_ (ih hrest)
      rw [mem_keys_iff]
      exact Bool.eq_false_iff.mp hgone
    · refine .step (.replace ((mem_keys_iff _ _).mpr hhere) hvalue
        (openedBeside_replaces shift) (fun y hy => ?_) (fun p hp hf => ?_)
        fun x => view_openedBeside) (ih hrest)
      · obtain ⟨p, hp, rfl⟩ := mem_map.mp hy
        exact ⟨p, (mem_filter.mp hp).1, rfl⟩
      · exact mem_map_of_mem (mem_filter.mpr ⟨hp, hf⟩)

/-- A scale is expanded unless its input is gone: first for the input itself, whose parameters all
become inputs, and then for its neighbours. -/
theorem expand_cases (h : expand n s e = .ok e') : n ∉ e.inputs.keys ∧ e' = e ∨
    ∃ e₁, Step n "" s e e₁ ∧ (∀ p ∈ s.parameters, p.copyName n "" ∈ e₁.inputs.keys) ∧
      Expands n s (Shift.suffixes.map Prod.fst) e₁ e' := by
  cases hi : e.inputs.get? n with
  | none =>
    rw [expand_of_gone hi] at h
    cases h
    exact .inl ⟨(not_mem_keys_iff _ _).mpr hi, rfl⟩
  | some input =>
    rw [expand_of_input hi] at h
    obtain ⟨value, hvalue, h⟩ := bind_ok.mp h
    have hempty : n ++ "" = n := String.append_empty
    have hmade : ∀ p ∈ s.parameters, p.copyName n "" ∈
        s.parameters.map (copyName n "") := fun p hp => mem_map_of_mem hp
    have hopened := @opened_replaces _ n input.type s e value
    refine .inr ⟨_, .replace (hempty.symm ▸ mem_keys_of_get? hi) hvalue hopened
      (fun y hy => mem_map.mp hy) (fun p hp _ => hmade p hp)
      fun x hx => view_opened (hempty ▸ hx), fun p hp => ?_, expands_foldlM h⟩
    exact hopened.made _ (hmade p hp)

/-- Any number of steps. -/
abbrev Steps (bindings : Dictionary (MarkBinding δ)) : Expansion δ → Expansion δ → Prop :=
  Relation.ReflTransGen fun e e' => ∃ n s, (n, MarkBinding.scaled s) ∈ bindings ∧
    ∃ suffix ∈ Shift.endings, Step n suffix s e e'

theorem Expands.steps (h : Expands n s suffixes e e') (hs : (n, .scaled s) ∈ bindings)
    (hsub : suffixes ⊆ Shift.endings) : Steps bindings e e' := by
  induction h with
  | nil => exact .refl
  | pass _ _ ih => exact ih (cons_subset.mp hsub).2
  | step first _ ih =>
    rw [cons_subset] at hsub
    exact .head ⟨n, s, hs, _, hsub.1, first⟩ (ih hsub.2)

theorem steps_expandAll {rest : Dictionary (MarkBinding δ)} (hsub : rest ⊆ bindings)
    (h : expandAll rest e = .ok e') : Steps bindings e e' := by
  refine expandAll_keeps (P := Steps bindings e) ?_ .refl h
  intro n s hn e₁ e₂ h₁ h₂
  obtain ⟨-, rfl⟩ | ⟨e₃, hfirst, -, hrest⟩ := expand_cases h₂
  · exact h₁
  · have hsteps := hrest.steps (hsub hn) (subset_cons_self _ _)
    exact h₁.trans (.head ⟨n, s, hsub hn, "", mem_cons_self, hfirst⟩ hsteps)

theorem Steps.locals_subset (h : Steps bindings e e') : e.locals.keys ⊆ e'.locals.keys := by
  induction h with
  | refl => exact List.Subset.refl _
  | tail _ hstep ih =>
    obtain ⟨_, _, -, _, -, -, -, hreplaces, -⟩ := hstep
    exact List.Subset.trans ih hreplaces.locals.2

/-! ## What is expanded -/

/-- The variables that the prologue assigns. -/
def assigned (e : Expansion δ) : List String := Stmt.assignsAll e.prologue

/-- Statement `st` assigns the value of a scaling, whose parameters are inputs. -/
def AssignsScaled (m : Mark δ) (done : Dictionary (MarkBinding δ)) (e : Expansion δ) (st : Stmt) :
    Prop :=
  ∃ n s suffix value, (n, MarkBinding.scaled s) ∈ done ∧ suffix ∈ Shift.endings ∧
    n ++ suffix ∈ m.specification.inputs.keys ∧
    s.expression (arguments n suffix s.parameters) = .ok value ∧ st = .assign (n ++ suffix) value ∧
    ∀ p ∈ s.parameters, p.copyName n suffix ∈ e.inputs.keys

/-- The state of an expansion after the bindings `done`. -/
structure Follows (m : Mark δ) (done : Dictionary (MarkBinding δ)) (e : Expansion δ) : Prop where
  prologue : ∀ st ∈ e.prologue, AssignsScaled m done e st
  declared : ∀ x ∈ m.specification.declared,
    e.inputs.get? x = if x ∈ e.assigned then none else m.specification.inputs.get? x
  keys : ∀ x ∈ e.inputs.keys, x ∈ m.specification.inputs.keys ∨ x ∈ m.generated

/-- Everything that the scalings among `done` give a value is assigned. -/
def Covers (m : Mark δ) (done : Dictionary (MarkBinding δ)) (e : Expansion δ) : Prop :=
  ∀ n s, (n, MarkBinding.scaled s) ∈ done → ∀ suffix ∈ Shift.endings,
    n ++ suffix ∈ m.specification.inputs.keys → n ++ suffix ∈ e.assigned

variable {m : Mark δ} {done : Dictionary (MarkBinding δ)}

theorem Replaces.assigned {y : String} (h : Replaces e e' y new value) :
    e'.assigned = e.assigned ++ [y] := by
  rw [Expansion.assigned, h.prologue, Stmt.assignsAll_append]
  simp [Expansion.assigned, Stmt.assignsAll, Stmt.assigns]

theorem Follows.mono {done' : Dictionary (MarkBinding δ)} (h : Follows m done e)
    (hsub : done ⊆ done') : Follows m done' e where
  prologue st hst := by
    obtain ⟨n, s, suffix, value, hn, hrest⟩ := h.prologue st hst
    exact ⟨n, s, suffix, value, hsub hn, hrest⟩
  declared := h.declared
  keys := h.keys

/-- What the prologue assigns are scaled inputs and their neighbours. -/
theorem Follows.assigned_cases (h : Follows m done e) (hx : x ∈ e.assigned) :
    ∃ n s suffix, (n, scaled s) ∈ done ∧ suffix ∈ Shift.endings ∧
      n ++ suffix ∈ m.specification.inputs.keys ∧ x = n ++ suffix := by
  obtain ⟨st, hst, hx⟩ := Stmt.mem_assignsAll_iff.mp hx
  obtain ⟨n, s, suffix, value, hn, hsuffix, hinput, -, rfl, -⟩ := h.prologue st hst
  rw [Stmt.assigns, mem_singleton] at hx
  exact ⟨n, s, suffix, hn, hsuffix, hinput, hx⟩

/-- What is declared and no input any more was assigned. -/
theorem Follows.mem_assigned (h : Follows m done e) (hx : x ∈ m.specification.inputs.keys)
    (hgone : e.inputs.get? x = none) : x ∈ e.assigned := by
  have hget := h.declared x (mem_append_left _ hx)
  by_contra hassigned
  rw [if_neg hassigned, hgone] at hget
  exact (not_mem_keys_iff x _).mpr hget.symm hx

/-- What is assigned is no input any more. -/
theorem Follows.not_mem_assigned (h : Follows m done e) (hx : x ∈ e.inputs.keys) :
    x ∉ e.assigned := by
  intro hassigned
  obtain ⟨n, s, suffix, -, -, hinput, rfl⟩ := h.assigned_cases hassigned
  have hget := h.declared _ (mem_append_left _ hinput)
  rw [if_pos hassigned] at hget
  exact (not_mem_keys_iff _ _).mpr hget hx

section Fresh

variable (hnew : ∀ x ∈ m.generated, x ∉ m.specification.declared)
include hnew

theorem ne_of_mem_generated {x y : String} (hx : x ∈ m.generated)
    (hy : y ∈ m.specification.inputs.keys) : x ≠ y :=
  fun hxy => hnew x hx (mem_append_left _ (hxy ▸ hy))

/-- A scaled value in place of an input. -/
theorem Follows.step (h : Follows m done e) (hdone : done ⊆ m.bindings)
    (hstep : Step n suffix s e e') (hn : (n, .scaled s) ∈ done) (hsuffix : suffix ∈ Shift.endings)
    (hinput : n ++ suffix ∈ m.specification.inputs.keys)
    (hown : ∀ p ∈ s.parameters, p.copyName n "" ∈ e'.inputs.keys) : Follows m done e' := by
  obtain @⟨new, value, -, hvalue, hstep, hcopied, hmade, -⟩ := hstep
  have hgenerated : ∀ x ∈ new, x ∈ m.generated := by
    intro x hx
    obtain ⟨p, hp, rfl⟩ := hcopied x hx
    exact Mark.copyName_mem_generated (hdone hn) hsuffix hinput hp
  have hargs : ∀ p ∈ s.parameters, p.copyName n suffix ∈ e'.inputs.keys := by
    intro p hp
    cases hf : p.source.isFunction with
    | true => exact hstep.made _ (hmade p hp hf)
    | false =>
      rw [copyName_of_not_function hf, ← p.copyName_empty n]
      exact hown p hp
  refine ⟨fun st hst => ?_, fun x hx => ?_, fun x hx => ?_⟩
  · rw [hstep.prologue, mem_append, mem_singleton] at hst
    obtain hst | rfl := hst
    · obtain ⟨n₁, s₁, suffix₁, value₁, hn₁, hsuffix₁, hinput₁, hvalue₁, rfl, hargs₁⟩ :=
        h.prologue st hst
      refine ⟨n₁, s₁, suffix₁, value₁, hn₁, hsuffix₁, hinput₁, hvalue₁, rfl, fun p hp => ?_⟩
      have hgenerated := Mark.copyName_mem_generated (hdone hn₁) hsuffix₁ hinput₁ hp
      exact hstep.keeps (hargs₁ p hp) (ne_of_mem_generated hnew hgenerated hinput)
    · exact ⟨n, s, suffix, value, hn, hsuffix, hinput, hvalue, rfl, hargs⟩
  · have hx' : x ∉ new := fun hmem => hnew x (hgenerated x hmem) hx
    rw [hstep.others x hx', hstep.assigned, h.declared x hx]
    by_cases hy : x = n ++ suffix <;> simp [hy]
  · by_cases hx' : x ∈ new
    · exact .inr (hgenerated x hx')
    · rw [mem_keys_iff, hstep.others x hx'] at hx
      split at hx
      · cases hx
      · exact h.keys x ((mem_keys_iff _ _).mpr hx)

variable {others : List String} (hvars : ∀ x ∈ m.generated, x ∉ others)
include hvars

/-- The neighbours of an input whose scale is expanded. -/
theorem Follows.expands (hdone : done ⊆ m.bindings) (hn : (n, .scaled s) ∈ done)
    (hself : n ∈ m.specification.inputs.keys) (hsub : suffixes ⊆ Shift.endings)
    (h : Follows m done e) (hown : ∀ p ∈ s.parameters, p.copyName n "" ∈ e.inputs.keys)
    (hrun : Expands n s suffixes e e') (hothers : e'.locals.keys ⊆ others) :
    Follows m done e' ∧ e.assigned ⊆ e'.assigned ∧ ∀ suffix ∈ suffixes,
      n ++ suffix ∈ m.specification.inputs.keys → n ++ suffix ∈ e'.assigned := by
  induction hrun with
  | nil => exact ⟨h, List.Subset.refl _, fun _ hsuffix => by cases hsuffix⟩
  | pass hgone _ ih =>
    obtain ⟨hfollows, hassigned, hcovers⟩ := ih (cons_subset.mp hsub).2 h hown hothers
    refine ⟨hfollows, hassigned, forall_mem_cons.mpr ⟨fun hinput => ?_, hcovers⟩⟩
    exact hassigned (h.mem_assigned hinput ((not_mem_keys_iff _ _).mp hgone))
  | @step suffix _ _ e₁ _ hstep hrest ih =>
    rw [cons_subset] at hsub
    obtain ⟨hhere, -, hreplaces, -⟩ := id hstep
    -- a generated name in this place would be a variable of the mark in the end
    have hinput : n ++ suffix ∈ m.specification.inputs.keys := by
      obtain hinput | hgenerated := h.keys _ hhere
      · exact hinput
      · have hlocal := (hrest.steps (hdone hn) hsub.2).locals_subset hreplaces.locals.1
        exact absurd (hothers hlocal) (hvars _ hgenerated)
    have hown' : ∀ p ∈ s.parameters, p.copyName n "" ∈ e₁.inputs.keys := by
      intro p hp
      have hgenerated : p.copyName n "" ∈ m.generated := by
        refine Mark.copyName_mem_generated (hdone hn) mem_cons_self ?_ hp
        rwa [String.append_empty]
      exact hreplaces.keeps (hown p hp) (ne_of_mem_generated hnew hgenerated hinput)
    have h' := h.step hnew hdone hstep hn hsub.1 hinput hown'
    obtain ⟨hfollows, hassigned, hcovers⟩ := ih hsub.2 h' hown' hothers
    rw [hreplaces.assigned, append_subset] at hassigned
    refine ⟨hfollows, hassigned.1, forall_mem_cons.mpr ⟨fun _ => ?_, hcovers⟩⟩
    exact hassigned.2 (mem_singleton.mpr rfl)

/-- A scale that is expanded, with the neighbours of its input. -/
theorem Follows.expand (hdone : done ⊆ m.bindings) (hn : (n, .scaled s) ∈ m.bindings)
    (hself : n ∈ m.specification.inputs.keys)
    (hown : ∀ n₁ s₁, (n₁, scaled s₁) ∈ m.bindings →
      ∀ shift ∈ Shift.suffixes, n ≠ n₁ ++ shift.1)
    (h : Follows m done e) (hcovers : Covers m done e) (hrun : expand n s e = .ok e')
    (hothers : e'.locals.keys ⊆ others) :
    Follows m (done ++ [(n, .scaled s)]) e' ∧ Covers m (done ++ [(n, .scaled s)]) e' := by
  have h' := h.mono (subset_append_left done [(n, .scaled s)])
  have hdone' : done ++ [(n, .scaled s)] ⊆ m.bindings :=
    append_subset.mpr ⟨hdone, cons_subset.mpr ⟨hn, nil_subset _⟩⟩
  have hmem : (n, scaled s) ∈ done ++ [(n, .scaled s)] :=
    mem_append_right _ mem_cons_self
  -- what is left to show once the new scale is covered
  have hcovers' : ∀ e₂ : Expansion δ, e.assigned ⊆ e₂.assigned →
      (∀ suffix ∈ Shift.endings, n ++ suffix ∈ m.specification.inputs.keys →
        n ++ suffix ∈ e₂.assigned) → Covers m (done ++ [(n, .scaled s)]) e₂ := by
    intro e₂ hassigned hscale n₁ s₁ hn₁ suffix hsuffix hinput
    obtain hn₁ | hn₁ := mem_append.mp hn₁
    · exact hassigned (hcovers n₁ s₁ hn₁ suffix hsuffix hinput)
    · cases mem_singleton.mp hn₁
      exact hscale suffix hsuffix hinput
  obtain ⟨hgone, rfl⟩ | ⟨e₁, hstep, hown', hrest⟩ := expand_cases hrun
  · refine ⟨h', hcovers' _ (List.Subset.refl _) ?_⟩
    -- the input was assigned before, and not as another one's neighbour
    obtain ⟨n₁, s₁, suffix₁, hn₁, hsuffix₁, -, heq⟩ := h.assigned_cases
      (h.mem_assigned hself ((not_mem_keys_iff _ _).mp hgone))
    obtain rfl | hsuffix₁ := mem_cons.mp hsuffix₁
    · rw [String.append_empty] at heq
      rw [heq]
      exact hcovers n₁ s₁ hn₁
    · obtain ⟨shift, hshift, rfl⟩ := mem_map.mp hsuffix₁
      exact absurd heq (hown n₁ s₁ (hdone hn₁) shift hshift)
  · have hinput : n ++ "" ∈ m.specification.inputs.keys := String.append_empty.symm ▸ hself
    have hfirst := h'.step hnew hdone' hstep hmem mem_cons_self hinput hown'
    obtain ⟨hfollows, hassigned, hbeside⟩ := hfirst.expands hnew hvars hdone' hmem hself
      (subset_cons_self _ _) hown' hrest hothers
    obtain ⟨-, -, hreplaces, -⟩ := hstep
    rw [hreplaces.assigned, append_subset] at hassigned
    refine ⟨hfollows, hcovers' e' hassigned.1 (forall_mem_cons.mpr ⟨fun _ => ?_, hbeside⟩)⟩
    exact hassigned.2 (mem_singleton.mpr rfl)

/-- All scales, one after the other. -/
theorem Follows.expandAll {bindings : Dictionary (MarkBinding δ)}
    (hall : done ++ bindings ⊆ m.bindings)
    (hself : ∀ n s, (n, scaled s) ∈ m.bindings → n ∈ m.specification.inputs.keys)
    (hown : ∀ n s, (n, scaled s) ∈ m.bindings →
      ∀ n₁ s₁, (n₁, scaled s₁) ∈ m.bindings →
        ∀ shift ∈ Shift.suffixes, n ≠ n₁ ++ shift.1)
    (h : Follows m done e) (hcovers : Covers m done e) (hrun : expandAll bindings e = .ok e')
    (hothers : e'.locals.keys ⊆ others) :
    Follows m (done ++ bindings) e' ∧ Covers m (done ++ bindings) e' := by
  induction bindings generalizing done e with
  | nil =>
    cases hrun
    rw [append_nil]
    exact ⟨h, hcovers⟩
  | cons b bindings ih =>
    obtain ⟨n, b⟩ := b
    rw [append_cons] at hall ⊢
    have hdone : done ⊆ m.bindings := fun x hx =>
      hall (mem_append_left _ (mem_append_left _ hx))
    cases b with
    | plain b =>
      refine ih hall (h.mono (subset_append_left _ _)) ?_ hrun
      intro n₁ s₁ hn₁
      obtain hn₁ | hn₁ := mem_append.mp hn₁
      · exact hcovers n₁ s₁ hn₁
      · cases mem_singleton.mp hn₁
    | scaled s =>
      have hn : (n, scaled s) ∈ m.bindings :=
        hall (mem_append_left _ (mem_append_right _ mem_cons_self))
      rw [expandAll_cons_scaled] at hrun
      obtain ⟨e₁, h₁, hrest⟩ := bind_ok.mp hrun
      obtain ⟨h', hcovers'⟩ := h.expand hnew hvars hdone hn (hself n s hn) (hown n s hn) hcovers h₁
        (List.Subset.trans (steps_expandAll (List.Subset.refl _) hrest).locals_subset hothers)
      exact ih hall h' hcovers' hrest

end Fresh

end Expansion

end DataMarks
