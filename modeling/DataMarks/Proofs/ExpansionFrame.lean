/-
  What the expansion of scales leaves alone.

  Each step makes a variable of one input and inputs of parameters, under names that begin
  with that of the scaled input. A name that is none of these is as it was: its input, its
  variable, its binding and the neighbour it is taken from (`Expansion.Steps.frames`).
  The names of parameters are put together without a look at what is declared, so this says
  nothing about a declared name that happens to be one of them (`Mark.prepared_replaces`).
-/
import DataMarks.Proofs.CompiledFiles
import DataMarks.Proofs.ScaledValues

namespace DataMarks

open Dictionary List MarkBinding

variable {δ : Type}

/-- The inputs that an expansion makes where it computes `computed`, with their types: for the
parameters of scalings and, where the input that looks at a neighbour is computed, for the
neighbour's parameters. -/
def copies (bindings : Dictionary (MarkBinding δ)) (computed : List String) :
    Dictionary ValueType :=
  bindings.flatMap fun (n, b) =>
    match b with
    | .plain _ => []
    | .scaled s =>
      (Shift.endings.filter fun suffix => n ++ suffix ∈ computed).flatMap fun suffix =>
        s.parameters.map fun p => (p.copyName n suffix, p.type)

section Copies

variable {bindings bindings' : Dictionary (MarkBinding δ)} {computed computed' : List String}

theorem mem_copies_iff {c : String × ValueType} : c ∈ copies bindings computed ↔
    ∃ n s suffix p, (n, scaled s) ∈ bindings ∧ suffix ∈ Shift.endings ∧
      n ++ suffix ∈ computed ∧ p ∈ s.parameters ∧ c = (p.copyName n suffix, p.type) := by
  unfold copies
  constructor
  · intro hc
    obtain ⟨⟨n, b⟩, hb, hc⟩ := mem_flatMap.mp hc
    cases b with
    | plain b => cases hc
    | scaled s =>
      obtain ⟨suffix, hsuffix, hc⟩ := mem_flatMap.mp hc
      obtain ⟨p, hp, rfl⟩ := mem_map.mp hc
      simp only [mem_filter, decide_eq_true_eq] at hsuffix
      exact ⟨n, s, suffix, p, hb, hsuffix.1, hsuffix.2, hp, rfl⟩
  · rintro ⟨n, s, suffix, p, hb, hsuffix, hcomputed, hp, rfl⟩
    refine mem_flatMap.mpr ⟨(n, .scaled s), hb, mem_flatMap.mpr ⟨suffix, ?_, ?_⟩⟩
    · simp [hsuffix, hcomputed]
    · exact mem_map.mpr ⟨p, hp, rfl⟩

theorem copies_mono (hbindings : bindings ⊆ bindings') (hcomputed : computed ⊆ computed') :
    copies bindings computed ⊆ copies bindings' computed' := by
  intro c hc
  obtain ⟨n, s, suffix, p, hb, hsuffix, hmem, hp, rfl⟩ := mem_copies_iff.mp hc
  exact mem_copies_iff.mpr
    ⟨n, s, suffix, p, hbindings hb, hsuffix, hcomputed hmem, hp, rfl⟩

theorem copyName_mem_keys_copies {n suffix : String} {s : Scaling δ} {p : Parameter δ}
    (hn : (n, scaled s) ∈ bindings) (hsuffix : suffix ∈ Shift.endings)
    (hcomputed : n ++ suffix ∈ computed) (hp : p ∈ s.parameters) :
    p.copyName n suffix ∈ (copies bindings computed).keys :=
  mem_map_of_mem (mem_copies_iff.mpr ⟨n, s, suffix, p, hn, hsuffix, hcomputed, hp, rfl⟩)

end Copies

theorem get?_plainBindings {bindings : Dictionary (MarkBinding δ)} {x : String}
    (h : ∀ s, (x, scaled s) ∉ bindings) :
    ((plainBindings bindings).get? x).map plain = bindings.get? x := by
  induction bindings with
  | nil => rfl
  | cons b bindings ih =>
    obtain ⟨n, b⟩ := b
    have hrest := ih fun s hs => h s (mem_cons_of_mem _ hs)
    rw [get?_cons]
    cases b with
    | plain b =>
      show ((Dictionary.get? ((n, b) :: plainBindings bindings) x).map plain) = _
      rw [get?_cons]
      by_cases hx : x = n
      · simp [hx]
      · simp [hx, hrest]
    | scaled s =>
      have hx : x ≠ n := fun hx => h s (hx ▸ mem_cons_self)
      rw [if_neg hx]
      exact hrest

namespace Expansion

variable {bindings : Dictionary (MarkBinding δ)} {x n suffix : String} {s : Scaling δ}
  {e e' e₁ e₂ : Expansion δ}

/-! ## What steps leave -/

theorem Step.assigned (h : Step n suffix s e e') : e'.assigned = e.assigned ++ [n ++ suffix] := by
  obtain ⟨-, -, hreplaces, -⟩ := h
  exact hreplaces.assigned

theorem Steps.assigned_subset (h : Steps bindings e e') : e.assigned ⊆ e'.assigned := by
  induction h with
  | refl => exact List.Subset.refl _
  | tail _ hstep ih =>
    obtain ⟨_, _, -, _, -, hstep⟩ := hstep
    rw [hstep.assigned]
    exact List.Subset.trans ih (subset_append_left _ _)

/-- What is computed is a variable. -/
theorem Steps.assigned_subset_locals (h : Steps bindings e e')
    (he : e.assigned ⊆ e.locals.keys) : e'.assigned ⊆ e'.locals.keys := by
  induction h with
  | refl => exact he
  | tail _ hstep ih =>
    obtain ⟨_, _, -, _, -, -, -, hreplaces, -⟩ := hstep
    rw [hreplaces.assigned, append_subset]
    refine ⟨List.Subset.trans ih hreplaces.locals.2, ?_⟩
    simpa using hreplaces.locals.1

/-- The name of an input that is scaled, or that takes a scaled input from a neighbour. -/
def Scales (bindings : Dictionary (MarkBinding δ)) (x : String) : Prop :=
  ∃ n s, (n, MarkBinding.scaled s) ∈ bindings ∧ ∃ suffix ∈ Shift.endings, x = n ++ suffix

/-- A name is as it was, or it was an input and is computed by a scale. -/
def Frames (bindings : Dictionary (MarkBinding δ)) (x : String) (e e' : Expansion δ) : Prop :=
  e'.view x = e.view x ∨ x ∈ e.inputs.keys ∧ x ∉ e'.inputs.keys ∧ Scales bindings x

theorem Frames.trans (h : Frames bindings x e e₁) (h' : Frames bindings x e₁ e₂) :
    Frames bindings x e e₂ := by
  obtain h | ⟨hinput, hgone, hscales⟩ := h
  · obtain h' | ⟨hinput, hgone, hscales⟩ := h'
    · exact .inl (h'.trans h)
    · exact .inr ⟨(mem_inputs_of_view h).mp hinput, hgone, hscales⟩
  · obtain h' | ⟨hinput', -, -⟩ := h'
    · exact .inr ⟨hinput, fun hx => hgone ((mem_inputs_of_view h').mp hx), hscales⟩
    · exact absurd hinput' hgone

theorem Step.ne_copyName (h : Step n suffix s e e') (hs : (n, scaled s) ∈ bindings)
    (hsuffix : suffix ∈ Shift.endings) (hx : x ∉ (copies bindings e'.assigned).keys) :
    ∀ p ∈ s.parameters, x ≠ p.copyName n suffix := by
  have hcomputed : n ++ suffix ∈ e'.assigned := by
    rw [h.assigned]
    exact mem_append_right _ (mem_singleton.mpr rfl)
  rintro p hp rfl
  exact hx (copyName_mem_keys_copies hs hsuffix hcomputed hp)

theorem Step.frames (h : Step n suffix s e e') (hs : (n, scaled s) ∈ bindings)
    (hsuffix : suffix ∈ Shift.endings) (hx : x ∉ (copies bindings e'.assigned).keys) :
    Frames bindings x e e' := by
  have hcopies := h.ne_copyName hs hsuffix hx
  obtain ⟨hinput, -, hreplaces, hnew, -, hothers⟩ := h
  by_cases hy : x = n ++ suffix
  · refine .inr ⟨hy ▸ hinput, ?_, n, s, hs, suffix, hsuffix, hy⟩
    rw [not_mem_keys_iff, hreplaces.others x, if_pos hy]
    intro hmem
    obtain ⟨p, hp, heq⟩ := hnew x hmem
    exact hcopies p hp heq.symm
  · exact .inl (hothers x hy hcopies)

/-- Steps leave all names that they do not make, but for inputs that they compute. -/
theorem Steps.frames (h : Steps bindings e e') (hx : x ∉ (copies bindings e'.assigned).keys) :
    Frames bindings x e e' := by
  induction h with
  | refl => exact .inl rfl
  | tail _ hstep ih =>
    have hsub := Steps.assigned_subset (.single hstep)
    obtain ⟨_, _, hs, _, hsuffix, hstep⟩ := hstep
    exact (ih fun hmem => hx (map_subset _ (copies_mono (List.Subset.refl _) hsub) hmem)).trans
      (hstep.frames hs hsuffix hx)

end Expansion

/-! ## Marks -/

namespace Mark

variable {m : Mark δ} {spec shader : Specification} {p : Prepared δ}

/-- The expansion of the scales of a mark of a compiled specification leaves what is declared, but
for names that it makes for parameters. An input that is neither scaled nor takes a scaled input from
a neighbour has the same type and default, the same binding and the same neighbour as before, and is
no variable; no other input and no variable is replaced or captured. -/
theorem prepared_keeps {k : Nat} {source : String} {file : Surface.File}
    {specs : Dictionary Specification} {name x : String}
    (hparse : Surface.File.parse k source = .ok file) (hcompile : file.compile = .ok specs)
    (hspec : (name, spec) ∈ specs) (hm : m.Reached spec shader) (hp : m.prepared = .ok p)
    (hnew : x ∉ (copies m.bindings p.specification.locals.keys).keys) :
    (∀ i, spec.inputs.get? x = some i →
      (∀ n s, (n, MarkBinding.scaled s) ∈ m.bindings → ∀ suffix ∈ Shift.endings, x ≠ n ++ suffix) →
      p.specification.inputs.get? x = some i ∧
      (p.bindings.get? x).map MarkBinding.plain = m.bindings.get? x ∧
      p.shifts.get? x = m.shifts.get? x ∧ x ∉ p.specification.locals.keys) ∧
    (∀ i, p.specification.inputs.get? x = some i →
      spec.inputs.get? x = some i ∧ x ∉ p.specification.locals.keys) ∧
    ∀ t, spec.locals.get? x = some t →
      p.specification.locals.get? x = some t ∧ x ∉ p.specification.inputs.keys := by
  obtain ⟨hapart, -⟩ := Surface.File.scoped_of_compile hparse hcompile hspec
  obtain rfl : m.specification = spec := hm.wellBound.1
  obtain ⟨e, hrun, -, rfl⟩ := Specification.prepare_ok_iff.mp hp
  have hsteps := Expansion.steps_expandAll (List.Subset.refl _) hrun
  have hassigned : e.assigned ⊆ e.locals.keys :=
    hsteps.assigned_subset_locals (List.nil_subset _)
  have hframe : Expansion.Frames m.bindings x _ e := hsteps.frames fun hmem =>
    hnew (List.map_subset _ (copies_mono (List.Subset.refl _) hassigned) hmem)
  have hlocals : ∀ i, m.specification.inputs.get? x = some i →
      e.view x = (m.specification.unexpanded m.bindings m.shifts).view x → x ∉ e.locals.keys := by
    intro i hi hview
    have heq : e.locals.get? x = m.specification.locals.get? x := congrArg (fun v => v.2.1) hview
    rw [Dictionary.not_mem_keys_iff, heq, ← Dictionary.not_mem_keys_iff]
    exact hapart x (Dictionary.mem_keys_of_get? hi)
  refine ⟨fun i hi hfree => ?_, fun i hi => ?_, fun t ht => ?_⟩
  · obtain hview | ⟨-, -, n, s, hn, suffix, hsuffix, heq⟩ := hframe
    · have hplain : ∀ s, (x, MarkBinding.scaled s) ∉ m.bindings := fun s hs =>
        hfree x s hs "" List.mem_cons_self String.append_empty.symm
      refine ⟨(congrArg Prod.fst hview).trans hi, ?_, congrArg (fun v => v.2.2.2) hview,
        hlocals i hi hview⟩
      rw [← get?_plainBindings hplain]
      exact congrArg (fun v => v.2.2.1.map MarkBinding.plain) hview
    · exact absurd heq (hfree n s hn suffix hsuffix)
  · obtain hview | ⟨-, hgone, -⟩ := hframe
    · have hi' : m.specification.inputs.get? x = some i := (congrArg Prod.fst hview).symm.trans hi
      exact ⟨hi', hlocals i hi' hview⟩
    · exact absurd (Dictionary.mem_keys_of_get? hi) hgone
  · have hinput : x ∉ m.specification.inputs.keys := fun hinput =>
      hapart x hinput (Dictionary.mem_keys_of_get? ht)
    obtain hview | ⟨hinput', -, -⟩ := hframe
    · refine ⟨(congrArg (fun v => v.2.1) hview).trans ht, fun hmem => hinput ?_⟩
      exact (Expansion.mem_inputs_of_view hview).mp hmem
    · exact absurd hinput' hinput

/-- A new mark with a scale for its input "x". -/
def scaledBy (s : Scaling δ) (spec : Specification) : Mark δ :=
  { (Mark.new spec spec).setBinding "x" (.scaled s) with live := none }

theorem eq_of_mem_scaledBy {s s' : Scaling δ} {n : String}
    (h : (n, scaled s') ∈ (scaledBy s spec).bindings) : n = "x" ∧ s' = s := by
  obtain heq | h := eq_or_mem_of_mem_insert h
  · cases heq
    exact ⟨rfl, rfl⟩
  · exact absurd h scaled_not_mem_defaults

/-- What holds of a mark with a scale, evaluated from the characters of a text. -/
theorem exists_prepared (source name : String) (s : Scaling Value)
    (P : Specification → Prepared Value → Prop) [∀ spec p, Decidable (P spec p)]
    (h : ((Surface.File.read? 2 source.utf8ByteSize source.toList).any fun r =>
      (r.2.get? name).any fun spec =>
        decide ((spec.inputs.get? "x").map Input.type = some s.returns) &&
        (scaledBy s spec).prepared.toOption.any fun p => decide (P spec p)) = true) :
    ∃ file specs spec p, Surface.File.parse 2 source = .ok file ∧ file.compile = .ok specs ∧
      (name, spec) ∈ specs ∧ (scaledBy s spec).Reached spec spec ∧
      (scaledBy s spec).prepared = .ok p ∧ P spec p := by
  obtain ⟨⟨file, specs⟩, hread, hspec⟩ := (Option.any_eq_true _ _).mp h
  obtain ⟨spec, hget, hspec⟩ := (Option.any_eq_true _ _).mp hspec
  rw [Bool.and_eq_true, decide_eq_true_eq] at hspec
  obtain ⟨p, hp, hP⟩ := (Option.any_eq_true _ _).mp hspec.2
  obtain ⟨hparse, hcompile⟩ := Surface.File.of_read? hread
  obtain ⟨i, hi, htype⟩ := Option.map_eq_some_iff.mp hspec.1
  exact ⟨file, specs, spec, p, hparse, hcompile, mem_of_get? hget,
    .bindScale .new (bindScale_ok_iff.mpr ⟨i, hi, htype.symm, rfl⟩), toOption_eq_some_iff.mp hp,
    of_decide_eq_true hP⟩

/-- A line from the neighbour's position, with an input and a variable that no scale computes. -/
def strokes : String := "
mark strokes(x: float, x_p: float, width: float = 2) {
    let middle = (x + x_p) / 2;
    emit [{ at: x_p, size: width }, { at: middle, size: width }, { at: x, size: width }];
}
"

theorem prepared_keeps_strokes : ∃ file specs spec p,
    Surface.File.parse 2 strokes = .ok file ∧ file.compile = .ok specs ∧
    ("strokes", spec) ∈ specs ∧ (scaledBy position spec).Reached spec spec ∧
    (scaledBy position spec).prepared = .ok p ∧
    "width" ∉ (copies (scaledBy position spec).bindings p.specification.locals.keys).keys ∧
    ∃ i, spec.inputs.get? "width" = some i ∧ p.specification.inputs.get? "width" = some i ∧
      (p.bindings.get? "width").map MarkBinding.plain =
        (scaledBy position spec).bindings.get? "width" ∧
      p.shifts.get? "width" = (scaledBy position spec).shifts.get? "width" ∧
      "width" ∉ p.specification.locals.keys := by
  obtain ⟨file, specs, spec, p, hparse, hcompile, hspec, hm, hp, hinput, hnew⟩ :=
    exists_prepared strokes "strokes" position (fun spec p => "width" ∈ spec.inputs.keys ∧
      "width" ∉ (copies (scaledBy position spec).bindings p.specification.locals.keys).keys) (by
        rw [strokes, String.toList_ofList]
        decide +kernel)
  obtain ⟨i, hi⟩ := Dictionary.exists_of_mem_keys hinput
  have hfree : ∀ n s, (n, MarkBinding.scaled s) ∈ (scaledBy position spec).bindings →
      ∀ suffix ∈ Shift.endings, "width" ≠ n ++ suffix := by
    intro n s hn
    rw [(eq_of_mem_scaledBy hn).1]
    decide
  exact ⟨file, specs, spec, p, hparse, hcompile, hspec, hm, hp, hnew, i, hi,
    (prepared_keeps hparse hcompile hspec hm hp hnew).1 i hi hfree⟩

/-- A mark with an input that has the name of the argument of a scale for "x". -/
def clashing : String := "mark M(x: float, xa0: float = 5) { emit [{ a: x, b: xa0 }]; }"

/-- A declared input that is neither scaled nor takes its value from a neighbour is replaced by a
parameter of its name: it loses its default and has the binding of the parameter. -/
theorem prepared_replaces : ∃ file specs spec p,
    Surface.File.parse 2 clashing = .ok file ∧ file.compile = .ok specs ∧ ("M", spec) ∈ specs ∧
    (scaledBy position spec).Reached spec spec ∧ (scaledBy position spec).prepared = .ok p ∧
    (∀ n s, (n, MarkBinding.scaled s) ∈ (scaledBy position spec).bindings →
      ∀ suffix ∈ Shift.endings, "xa0" ≠ n ++ suffix) ∧
    ((spec.inputs.get? "xa0").bind Input.default).isSome = true ∧
    p.specification.inputs.get? "xa0" = some ⟨.float, none⟩ ∧
    (p.bindings.get? "xa0").map MarkBinding.plain ≠
      (scaledBy position spec).bindings.get? "xa0" := by
  obtain ⟨file, specs, spec, p, hparse, hcompile, hspec, hm, hp, hdefault, hinput, hafter,
      hbefore⟩ :=
    exists_prepared clashing "M" position (fun spec p =>
      ((spec.inputs.get? "xa0").bind Input.default).isSome = true ∧
      p.specification.inputs.get? "xa0" = some ⟨.float, none⟩ ∧
      (p.bindings.get? "xa0").map Binding.isFunction = some true ∧
      ((plainBindings (scaledBy position spec).bindings).get? "xa0").map Binding.isFunction =
        some false) (by
          rw [clashing, String.toList_ofList]
          decide +kernel)
  have hfree : ∀ n s, (n, MarkBinding.scaled s) ∈ (scaledBy position spec).bindings →
      ∀ suffix ∈ Shift.endings, "xa0" ≠ n ++ suffix := by
    intro n s hn
    rw [(eq_of_mem_scaledBy hn).1]
    decide
  refine ⟨file, specs, spec, p, hparse, hcompile, hspec, hm, hp, hfree, hdefault, hinput, ?_⟩
  intro heq
  obtain ⟨b, hb, hfunction⟩ := Option.map_eq_some_iff.mp hafter
  obtain ⟨b', hb', hliteral⟩ := Option.map_eq_some_iff.mp hbefore
  have hplain : ∀ s, ("xa0", MarkBinding.scaled s) ∉ (scaledBy position spec).bindings := fun s hs =>
    hfree "xa0" s hs "" List.mem_cons_self rfl
  rw [← get?_plainBindings hplain, hb, hb'] at heq
  cases heq
  rw [hfunction] at hliteral
  cases hliteral

end Mark

end DataMarks
