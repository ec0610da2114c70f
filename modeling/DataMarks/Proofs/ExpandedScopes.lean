/-
  The expansion of scales keeps marks well scoped.

  An expanded mark declares what it mentions and keeps inputs and variables apart, and what
  it takes from a neighbour is an input with a value (`Mark.prepared_scoped`). Where an input
  took a scaled input from a neighbour it is gone in the end, so that no neighbour is left of
  what is a variable now. None of this holds without conditions on names and types
  (`Mark.prepared_unscoped`).
-/
import DataMarks.Proofs.ExplicitBindings
import DataMarks.Proofs.ScopedExpansion

namespace DataMarks

open Dictionary List MarkBinding

variable {δ : Type}

/-! ## Marks -/

/-- An expanded mark declares all that it mentions at its types, its inputs and variables are apart,
and what is taken from a neighbour is an input of the same type with a binding. -/
def Prepared.WellScoped (p : Prepared δ) : Prop :=
  p.specification.undeclared = [] ∧
  (∀ x ∈ p.specification.inputs.keys, x ∉ p.specification.locals.keys) ∧
  ∀ x ∈ p.shifts.keys, ∀ sh ∈ p.shifts.get? x, ∃ i ∈ p.specification.inputs.get? x,
    ∃ j ∈ p.specification.inputs.get? sh.base, i.type = j.type ∧ sh.base ∈ p.bindings.keys

instance (p : Prepared δ) : Decidable p.WellScoped := inferInstanceAs (Decidable (_ ∧ _ ∧ _))

namespace Mark

variable {m : Mark δ} {spec shader : Specification} {p : Prepared δ}
variable {k : String} {sh : Shift}

theorem mem_of_neighbours {inputs : Dictionary Input} (h : (neighbours inputs).get? k = some sh) :
    k ∈ inputs.keys ∧ sh.base ∈ inputs.keys ∧
      ∃ shift ∈ Shift.suffixes, k = sh.base ++ shift.1 := by
  have hmem := mem_of_mem_ofEntries (mem_of_get? h)
  obtain ⟨n, hn, hmem⟩ := mem_flatMap.mp hmem
  obtain ⟨shift, hshift, heq⟩ := mem_map.mp hmem
  cases heq
  rw [mem_filter] at hshift
  exact ⟨(mem_keys_iff _ _).mpr hshift.2, hn, shift, hshift.1, rfl⟩

/-- Scales return the type of their input, and what is taken from a neighbour is the input that its
name says. -/
theorem Reached.fits (h : m.Reached spec shader) :
    (∀ n s, (n, scaled s) ∈ m.bindings →
      ∃ i, spec.inputs.get? n = some i ∧ s.returns = i.type) ∧
    ∀ k sh, m.shifts.get? k = some sh → k ∈ spec.inputs.keys ∧ sh.base ∈ spec.inputs.keys ∧
      ∃ shift ∈ Shift.suffixes, k = sh.base ++ shift.1 := by
  refine (h.keeps (P := fun bindings shifts =>
    (∀ n s, (n, scaled s) ∈ bindings →
      ∃ i, spec.inputs.get? n = some i ∧ s.returns = i.type) ∧
    ∀ k sh, shifts.get? k = some sh → k ∈ spec.inputs.keys ∧ sh.base ∈ spec.inputs.keys ∧
      ∃ shift ∈ Shift.suffixes, k = sh.base ++ shift.1)
    ⟨fun n s hn => absurd hn scaled_not_mem_defaults, fun k sh hk => mem_of_neighbours hk⟩ ?_).2
  rintro bindings shifts name i b ⟨hscaled, hshifts⟩ hi hb
  refine ⟨fun n s hn => ?_, fun k sh hk => ?_⟩
  · obtain heq | hn := eq_or_mem_of_mem_insert hn
    · cases heq
      exact ⟨i, hi, hb s rfl⟩
    · exact hscaled n s hn
  · rw [get?_erase] at hk
    split at hk
    · cases hk
    · exact hshifts k sh hk

section Expanded

variable {e : Expansion δ} (hm : m.Reached m.specification shader) (hcoherent : m.Coherent)
  (hrun : Expansion.expandAll m.bindings (m.specification.unexpanded m.bindings m.shifts) = .ok e)
include hm hcoherent hrun

theorem Coherent.scoped (hapart : ∀ x ∈ m.specification.inputs.keys, x ∉ m.specification.locals.keys)
    (hbuilt : ∀ n s, (n, scaled s) ∈ m.bindings → s.Built) : Expansion.Scoped m e := by
  obtain ⟨hscaled, hshifts⟩ := hm.fits
  have hstart : Expansion.Scoped m (m.specification.unexpanded m.bindings m.shifts) := by
    refine ⟨fun x i hi => .inl ?_, fun x t ht => ?_, hapart, fun x t ht => ht,
      fun r hr => (not_mem_nil hr).elim, nil_subset _,
      fun k sh hk => ⟨(hshifts k sh hk).1, .inl hk⟩⟩
    · exact congrArg (Option.map Input.type) hi
    · have ht : m.specification.locals.get? x = some t := ht
      have hinput : x ∉ m.specification.inputs.keys := fun hx =>
        hapart x hx (mem_keys_of_get? ht)
      rw [Specification.declaredType?, (not_mem_keys_iff _ _).mp hinput, ht]
      rfl
  refine Expansion.expandAll_keeps ?_ hstart hrun
  intro n s hn e₁ e₂ h₁ h₂
  obtain ⟨i, hi, hreturns⟩ := hscaled n s hn
  exact h₁.expand hcoherent hn hi (hbuilt n s hn) hreturns (hm.wellBound.2 n s hn).2 h₂

/-- What a mark takes from a neighbour is an input of the mark that no scale touches, if it is
still taken from there once scales are expanded. -/
theorem Coherent.view_base (hscoped : Expansion.Scoped m e) (hk : m.shifts.get? k = some sh)
    (hinput : k ∈ e.inputs.keys) :
    ¬ Expansion.Scales m.bindings sh.base ∧
      e.view sh.base = (m.specification.unexpanded m.bindings m.shifts).view sh.base := by
  obtain ⟨hself, hbase, shift, hshift, rfl⟩ := hm.fits.2 k sh hk
  have hnew : ∀ x ∈ m.specification.inputs.keys, x ∉ (copies m.bindings e.assigned).keys := by
    intro x hx hmem
    obtain ⟨c, hc, rfl⟩ := mem_map.mp hmem
    exact hcoherent.new c (copies_mono (List.Subset.refl _) hscoped.assigned hc)
      (mem_append_left _ hx)
  have hdecided : ∀ x ∈ m.specification.inputs.keys, Expansion.Decided ([] ++ m.bindings) x
      (m.specification.unexpanded m.bindings m.shifts) e := fun x hx =>
    Expansion.decided_expandAll (X := fun x => x ∈ m.specification.inputs.keys) (fun _ hx => hx)
      (fun _ _ _ _ hn => hn) (List.Subset.refl _) (fun n s hn => (hm.wellBound.2 n s hn).1) hrun hnew
      (fun y _ => ⟨fun _ => .refl y _, fun n s h => by cases h⟩) hx
  have hscales : ¬ Expansion.Scales m.bindings sh.base := by
    have hunchained : sh.base ∉ m.besides := hcoherent.unchained _ (mem_of_get? hk)
    have hsame : ∀ n s suffix, (n, scaled s) ∈ m.bindings → suffix ∈ Shift.endings →
        sh.base = n ++ suffix → n = sh.base := by
      intro n s suffix hn hsuffix heq
      obtain rfl | hsuffix := mem_cons.mp hsuffix
      · rw [heq, String.append_empty]
      · obtain ⟨shift', hshift', rfl⟩ := mem_map.mp hsuffix
        exact absurd (heq ▸ mem_besides_of_scaled hn hshift') hunchained
    rintro ⟨n, s, hn, suffix, hsuffix, heq⟩
    obtain rfl := hsame n s suffix hn hsuffix heq
    refine scaleOf?_beside_ne_none hn (fun n' s' hn' hcovers => ?_)
      (mem_cons_of_mem _ (mem_map_of_mem hshift))
      (((hdecided _ hself).mem_inputs hself).mp hinput)
    obtain ⟨suffix', hsuffix', heq'⟩ := Shift.covers_iff.mp hcovers
    exact hsame n' s' suffix' hn' hsuffix' heq'
  refine ⟨hscales, ((hdecided _ hbase).spares ?_).view⟩
  refine scaleOf?_eq_none fun n s hn => Bool.eq_false_iff.mpr fun hcovers => ?_
  obtain ⟨suffix, hsuffix, heq⟩ := Shift.covers_iff.mp hcovers
  exact hscales ⟨n, s, hn, suffix, hsuffix, heq⟩

/-- What a mark takes from a neighbour has a binding, once scales are expanded and every input has a
value. -/
theorem Coherent.bound_base (hscoped : Expansion.Scoped m e) (hunbound : e.unbound? = none)
    (hk : m.shifts.get? k = some sh) (hinput : k ∈ e.inputs.keys) : sh.base ∈ e.bindings.keys := by
  obtain ⟨hscales, hview⟩ := hcoherent.view_base hm hrun hscoped hk hinput
  obtain ⟨-, hbase, -⟩ := hm.fits.2 k sh hk
  have hbase' : sh.base ∈ e.inputs.keys := (Expansion.mem_inputs_of_view hview).mpr hbase
  obtain hbound | hshift := Expansion.bound_or_shifted hunbound hbase'
  · exact hbound
  obtain ⟨sh', hsh'⟩ := exists_of_mem_keys hshift
  obtain ⟨-, hmark | ⟨t, hmade, -⟩⟩ := hscoped.shifts _ sh' hsh'
  · have hplain : ∀ s, (sh.base, scaled s) ∉ m.bindings := fun s hs =>
      hscales ⟨sh.base, s, hs, "", mem_cons_self, String.append_empty.symm⟩
    have hbinding : e.bindings.get? sh.base = (plainBindings m.bindings).get? sh.base :=
      congrArg (fun v => v.2.2.1) hview
    have hbound := hcoherent.bound _ (mem_of_get? hk) (mem_keys_of_get? hmark)
    rw [mem_keys_iff, ← get?_plainBindings hplain, Option.isSome_map, ← hbinding,
      ← mem_keys_iff] at hbound
    exact hbound
  · exact absurd hmade (Expansion.not_mem_made hcoherent (mem_append_left _ hbase))

end Expanded

/-- The expansion of the scales of a mark is well scoped, if the mark is one of a compiled
specification, its scales are built by their constructors, and names and types do not get in each
other's way. -/
theorem prepared_scoped {k : Nat} {source : String} {file : Surface.File}
    {specs : Dictionary Specification} {name : String}
    (hparse : Surface.File.parse k source = .ok file) (hcompile : file.compile = .ok specs)
    (hspec : (name, spec) ∈ specs) (hm : m.Reached spec shader)
    (hbuilt : ∀ n s, (n, MarkBinding.scaled s) ∈ m.bindings → s.Built) (hcoherent : m.Coherent)
    (hp : m.prepared = .ok p) : p.WellScoped := by
  obtain ⟨hapart, hdeclared⟩ := Surface.File.scoped_of_compile hparse hcompile hspec
  obtain rfl : m.specification = spec := hm.wellBound.1
  obtain ⟨e, hrun, hunbound, rfl⟩ := Specification.prepare_ok_iff.mp hp
  have hscoped := hcoherent.scoped hm hrun hapart hbuilt
  refine ⟨Specification.undeclared_eq_nil fun r hr => ?_, hscoped.apart, fun x _ sh hx => ?_⟩
  · obtain hr | hr := List.mem_append.mp ((Stmt.mentionsAll_append _ _) ▸ hr)
    · exact hscoped.mentions r hr
    · exact hscoped.declared _ _ (Specification.declaredType?_of_undeclared_nil hdeclared r hr)
  · obtain ⟨hinput, hshift⟩ := hscoped.shifts x sh hx
    obtain ⟨i, hi⟩ := Dictionary.exists_of_mem_keys hinput
    obtain hk | ⟨t, hmade, hmade', hbase, hbound⟩ := hshift
    · obtain ⟨hself, hbase, -⟩ := hm.fits.2 x sh hk
      obtain ⟨j, hj⟩ := Dictionary.exists_of_mem_keys hbase
      have hview := (hcoherent.view_base hm hrun hscoped hk hinput).2
      have hdeclared := (hscoped.inputs x i hi).resolve_right
        (Expansion.not_mem_made hcoherent (List.mem_append_left _ hself))
      obtain ⟨i', hi', htype⟩ := Option.map_eq_some_iff.mp hdeclared
      exact ⟨i, hi, j, (congrArg Prod.fst hview).trans hj,
        htype ▸ hcoherent.shifted _ (Dictionary.mem_of_get? hk) i' hi' j hj,
        hcoherent.bound_base hm hrun hscoped hunbound hk hinput⟩
    · obtain ⟨j, hj⟩ := Dictionary.exists_of_mem_keys hbase
      have hitype := hscoped.type?_of_made hcoherent hmade hinput
      have hjtype := hscoped.type?_of_made hcoherent hmade' hbase
      rw [Expansion.type?_of_input hi] at hitype
      rw [Expansion.type?_of_input hj] at hjtype
      exact ⟨i, hi, j, hj, (Option.some.inj hitype).trans (Option.some.inj hjtype).symm, hbound⟩

theorem position_built : position.Built :=
  .continuous _ _ _ _ fun s hs => by cases hs

/-- A position that is stretched by a factor for each datum. -/
def stretched : Scaling Value :=
  .apply (.custom (.binary default .mul (.name default "value") (.name default "k"))
    [("k", .function fun v _ => v)]) .float [.float] [.scaling position]

theorem stretched_built : stretched.Built := by
  refine .custom (fun s hs => ?_) (rfl : Scaling.custom
    (.binary default .mul (.name default "value") (.name default "k"))
    (Dictionary.ofEntries [("k", .function fun v _ => v)]) (.scaling position) = .ok stretched)
  cases hs
  exact position_built

theorem built_of_mem_scaledBy {s : Scaling δ} (hs : s.Built) :
    ∀ n s', (n, scaled s') ∈ (scaledBy s spec).bindings → s'.Built := by
  intro n s' hn
  rw [(eq_of_mem_scaledBy hn).2]
  exact hs

/-- Lines that look at the neighbours' positions and widths. -/
def ribbons : String := "
mark ribbons(x: float, x_p: float, width: float = 2, width_n: float) {
    let middle = (x + x_p) / 2;
    emit [{ at: x_p, size: width }, { at: middle, size: width_n }, { at: x, size: width }];
}
"

theorem prepared_scoped_ribbons : ∃ file specs spec p,
    Surface.File.parse 2 ribbons = .ok file ∧ file.compile = .ok specs ∧
    ("ribbons", spec) ∈ specs ∧ (scaledBy stretched spec).Reached spec spec ∧
    (∀ n s, (n, MarkBinding.scaled s) ∈ (scaledBy stretched spec).bindings → s.Built) ∧
    (scaledBy stretched spec).Coherent ∧ (scaledBy stretched spec).prepared = .ok p ∧
    p.shifts.keys = ["width_n", "xsk_p", "xa0a0_p"] ∧ p.WellScoped := by
  obtain ⟨file, specs, spec, p, hparse, hcompile, hspec, hm, hp, hcoherent, hshifts⟩ :=
    exists_prepared ribbons "ribbons" stretched (fun spec p =>
      (scaledBy stretched spec).Coherent ∧ p.shifts.keys = ["width_n", "xsk_p", "xa0a0_p"]) (by
        rw [ribbons, String.toList_ofList]
        decide +kernel)
  have hbuilt : ∀ n s, (n, MarkBinding.scaled s) ∈ (scaledBy stretched spec).bindings → s.Built :=
    built_of_mem_scaledBy stretched_built
  exact ⟨file, specs, spec, p, hparse, hcompile, hspec, hm, hbuilt, hcoherent, hp, hshifts,
    prepared_scoped hparse hcompile hspec hm hbuilt hcoherent hp⟩

/-- A mark with a variable that has the name of the argument of a scale for "x". -/
def captured : String := "mark M(x: float) { let xa0 = 2.0; emit [{ a: x, b: xa0 }]; }"

/-- A mark with an input that is called like the neighbour's "x" and has another type. -/
def retyped : String := "mark M(x: float, x_p: Vector2) { emit [{ a: x, b: x_p }]; }"

/-- A mark with an input for the neighbour's neighbour of "x". -/
def chained : String :=
  "mark M(x: float, x_p: float, x_p_p: float) { emit [{ a: x, b: x_p, c: x_p_p }]; }"

def alone : String := "mark M(x: float) { emit [{ a: x }]; }"

/-- A custom scale that returns its argument, which is no number. -/
def misfit : Scaling Value :=
  .apply (.custom (.name default "value") []) .float [.float]
    [.scaling (.continuous .linear .vector2 Scaling.unitDomain (Scaling.unitRange .vector2)
      (.value (.number 1)))]

theorem misfit_built : misfit.Built := by
  refine .custom (fun s hs => ?_) (rfl : Scaling.custom (.name default "value")
    (Dictionary.ofEntries []) (.scaling (.continuous .linear .vector2 Scaling.unitDomain
      (Scaling.unitRange .vector2) (.value (.number 1)))) = .ok misfit)
  cases hs
  exact .continuous _ _ _ _ fun s hs => by cases hs

/-- The compiled mark "M" of a text, with a scale built by constructors for "x", is not well scoped
once the scale is expanded. -/
def Unscoped (source : String) (s : Scaling Value) : Prop :=
  ∃ file specs spec p, Surface.File.parse 2 source = .ok file ∧ file.compile = .ok specs ∧
    ("M", spec) ∈ specs ∧ (scaledBy s spec).Reached spec spec ∧
    (∀ n s', (n, MarkBinding.scaled s') ∈ (scaledBy s spec).bindings → s'.Built) ∧
    (scaledBy s spec).prepared = .ok p ∧ ¬ p.WellScoped

theorem unscoped_of_read {source : String} {s : Scaling Value} (hs : s.Built)
    (h : ((Surface.File.read? 2 source.utf8ByteSize source.toList).any fun r =>
      (r.2.get? "M").any fun spec =>
        decide ((spec.inputs.get? "x").map Input.type = some s.returns) &&
        (scaledBy s spec).prepared.toOption.any fun p => decide (¬ p.WellScoped)) = true) :
    Unscoped source s := by
  obtain ⟨file, specs, spec, p, hparse, hcompile, hspec, hm, hp, hunscoped⟩ :=
    exists_prepared source "M" s (fun _ p => ¬ p.WellScoped) h
  exact ⟨file, specs, spec, p, hparse, hcompile, hspec, hm, built_of_mem_scaledBy hs, hp, hunscoped⟩

/-- What is compiled need not stay well scoped: where a parameter has the name of a variable, where an
input looks at the scaled input of a neighbour and has another type, where an input looks at such an
input in turn, and where a custom scale is not applied to a number. -/
theorem prepared_unscoped : Unscoped captured position ∧ Unscoped retyped position ∧
    Unscoped chained position ∧ Unscoped alone misfit := by
  refine ⟨unscoped_of_read position_built ?_, unscoped_of_read position_built ?_,
    unscoped_of_read position_built ?_, unscoped_of_read misfit_built ?_⟩
  · rw [captured, String.toList_ofList]
    decide +kernel
  · rw [retyped, String.toList_ofList]
    decide +kernel
  · rw [chained, String.toList_ofList]
    decide +kernel
  · rw [alone, String.toList_ofList]
    decide +kernel

end Mark

end DataMarks
