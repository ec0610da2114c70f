/-
  Which scale computes an input, and which inputs keep the binding they were given.

  Scales are expanded in the order of the bindings. Each computes its own input and the
  inputs that take that input from a neighbour, as far as no earlier scale has computed
  them (`Expansion.decided_expandAll`). So an input that is bound to a source keeps it
  unless the input it is named after is scaled, and one that is bound to a scale keeps that
  one unless the input it is named after is scaled too and comes first
  (`Stage.prepared_decided`). The binding itself is not looked at: a source that was given for
  a neighbour's input is lost (`Stage.prepared_overrides`).
-/
import DataMarks.Proofs.ExpansionFrame
import DataMarks.Proofs.MarkUpdates

namespace DataMarks

open Dictionary List Shift MarkBinding

variable {δ : Type}

/-! ## The scale of an input -/

/-- Whether `x` is input `n`, or by its name the same for a neighbour. -/
def Shift.covers (n x : String) : Bool := Shift.endings.any fun suffix => n ++ suffix == x

/-- The scales that an expansion comes to: all but those of inputs that an earlier one computes. -/
def activeScales (bindings : Dictionary (MarkBinding δ)) : List (String × Scaling δ) :=
  bindings.foldl (fun done b =>
    match b.2 with
    | .plain _ => done
    | .scaled s => if done.any fun d => Shift.covers d.1 b.1 then done else done ++ [(b.1, s)]) []

/-- The scaled input whose scale computes `x`. -/
def scaleOf? (bindings : Dictionary (MarkBinding δ)) (x : String) : Option (String × Scaling δ) :=
  (activeScales bindings).find? fun d => Shift.covers d.1 x

section ScaleOf

variable {bindings : Dictionary (MarkBinding δ)} {n x : String} {s : Scaling δ}

theorem Shift.covers_iff : covers n x = true ↔ ∃ suffix ∈ endings, x = n ++ suffix := by
  rw [covers, any_eq_true]
  refine exists_congr fun suffix => and_congr_right fun _ => ?_
  rw [beq_iff_eq, eq_comm]

theorem Shift.covers_self (n : String) : covers n n = true :=
  covers_iff.mpr ⟨"", mem_cons_self, String.append_empty.symm⟩

theorem activeScales_concat_plain (b : Binding δ) :
    activeScales (bindings ++ [(n, .plain b)]) = activeScales bindings := by
  rw [activeScales, foldl_append]
  rfl

theorem activeScales_concat_scaled :
    activeScales (bindings ++ [(n, .scaled s)]) =
      if (scaleOf? bindings n).isSome then activeScales bindings
      else activeScales bindings ++ [(n, s)] := by
  have hany : (scaleOf? bindings n).isSome =
      (activeScales bindings).any fun d => covers d.1 n := by
    rw [scaleOf?, Bool.eq_iff_iff, find?_isSome, any_eq_true]
  rw [hany, activeScales, foldl_append]
  rfl

theorem scaleOf?_concat_plain (b : Binding δ) :
    scaleOf? (bindings ++ [(n, .plain b)]) x = scaleOf? bindings x := by
  rw [scaleOf?, activeScales_concat_plain]
  rfl

theorem scaleOf?_concat_gone (h : (scaleOf? bindings n).isSome = true) :
    scaleOf? (bindings ++ [(n, .scaled s)]) x = scaleOf? bindings x := by
  rw [scaleOf?, activeScales_concat_scaled, if_pos h]
  rfl

theorem scaleOf?_concat_input (h : scaleOf? bindings n = none) :
    scaleOf? (bindings ++ [(n, .scaled s)]) x =
      (scaleOf? bindings x).or (if covers n x then some (n, s) else none) := by
  have hnone : ¬ (scaleOf? bindings n).isSome = true := by simp [h]
  rw [scaleOf?, activeScales_concat_scaled, if_neg hnone, find?_append, scaleOf?]
  congr 1
  cases hc : covers n x <;> simp [hc]

/-- A scale that does not have to do with `x` does not change which one computes it. -/
theorem scaleOf?_concat_apart (h : covers n x = false) :
    scaleOf? (bindings ++ [(n, .scaled s)]) x = scaleOf? bindings x := by
  cases hn : scaleOf? bindings n with
  | some d => exact scaleOf?_concat_gone (by rw [hn]; rfl)
  | none =>
    rw [scaleOf?_concat_input hn, h]
    exact Option.or_none

/-- What computes an input goes on to do so, whatever is bound after it. -/
theorem scaleOf?_append {d : String × Scaling δ} (h : scaleOf? bindings x = some d)
    (later : Dictionary (MarkBinding δ)) : scaleOf? (bindings ++ later) x = some d := by
  induction later using List.reverseRecOn with
  | nil => rwa [append_nil]
  | append_singleton later b ih =>
    obtain ⟨n, b⟩ := b
    rw [← append_assoc]
    cases b with
    | plain b => rw [scaleOf?_concat_plain, ih]
    | scaled s =>
      cases hn : scaleOf? (bindings ++ later) n with
      | some d' => rw [scaleOf?_concat_gone (by rw [hn]; rfl), ih]
      | none =>
        rw [scaleOf?_concat_input hn, ih]
        rfl

theorem mem_of_scaleOf? (h : scaleOf? bindings x = some (n, s)) :
    (n, scaled s) ∈ bindings ∧ covers n x = true := by
  induction bindings using List.reverseRecOn with
  | nil => cases h
  | append_singleton bindings b ih =>
    obtain ⟨m, b⟩ := b
    have hearlier : scaleOf? bindings x = some (n, s) →
        (n, scaled s) ∈ bindings ++ [(m, b)] ∧ covers n x = true := fun h' =>
      ⟨mem_append_left _ (ih h').1, (ih h').2⟩
    cases b with
    | plain b =>
      rw [scaleOf?_concat_plain] at h
      exact hearlier h
    | scaled s' =>
      cases hm : scaleOf? bindings m with
      | some d =>
        rw [scaleOf?_concat_gone (by rw [hm]; rfl)] at h
        exact hearlier h
      | none =>
        rw [scaleOf?_concat_input hm, Option.or_eq_some_iff] at h
        obtain h | ⟨-, h⟩ := h
        · exact hearlier h
        · obtain ⟨hc, h⟩ := Option.ite_none_right_eq_some.mp h
          cases h
          exact ⟨mem_append_right _ (mem_singleton.mpr rfl), hc⟩

theorem scaleOf?_eq_none (h : ∀ n s, (n, scaled s) ∈ bindings → covers n x = false) :
    scaleOf? bindings x = none := by
  cases hx : scaleOf? bindings x with
  | none => rfl
  | some d =>
    obtain ⟨hmem, hcovers⟩ := mem_of_scaleOf? hx
    rw [h d.1 d.2 hmem] at hcovers
    cases hcovers

/-- A scaled input that no scale before it computes is computed by its own. -/
theorem scaleOf?_of_first {earlier later : Dictionary (MarkBinding δ)}
    (h : ∀ n' s', (n', scaled s') ∈ earlier → covers n' n = false) :
    scaleOf? (earlier ++ (n, .scaled s) :: later) n = some (n, s) := by
  have hnone := scaleOf?_eq_none h
  have hown : scaleOf? (earlier ++ [(n, .scaled s)]) n = some (n, s) := by
    rw [scaleOf?_concat_input hnone, hnone, covers_self]
    rfl
  rw [append_cons]
  exact scaleOf?_append hown later

/-- Where an input is scaled and no other scale computes it, no neighbour's input is left. -/
theorem scaleOf?_beside_ne_none {suffix : String} (hn : (n, scaled s) ∈ bindings)
    (hfree : ∀ n' s', (n', scaled s') ∈ bindings → covers n' n = true → n' = n)
    (hsuffix : suffix ∈ endings) : scaleOf? bindings (n ++ suffix) ≠ none := by
  obtain ⟨earlier, later, rfl⟩ := append_of_mem hn
  obtain ⟨⟨n', s'⟩, hd⟩ : ∃ d, scaleOf? (earlier ++ (n, .scaled s) :: later) n = some d := by
    rw [append_cons]
    cases hearlier : scaleOf? earlier n with
    | some d => exact ⟨d, scaleOf?_append (scaleOf?_append hearlier _) later⟩
    | none =>
      refine ⟨(n, s), scaleOf?_append ?_ later⟩
      rw [scaleOf?_concat_input hearlier, hearlier, covers_self]
      rfl
  obtain ⟨hmem, hcovers⟩ := mem_of_scaleOf? hd
  obtain rfl := hfree n' s' hmem hcovers
  refine fun hnone => find?_eq_none.mp hnone _ (mem_of_find?_eq_some hd) ?_
  exact covers_iff.mpr ⟨suffix, hsuffix, rfl⟩

end ScaleOf

/-! ## What becomes of one name -/

namespace Expansion

variable {bindings : Dictionary (MarkBinding δ)} {x n : String} {t : ValueType} {s : Scaling δ}
  {e e' e₁ e₂ : Expansion δ} {value : Expr}
variable {new : List String}

/-- The statements of the prologue that assign a name. -/
def assignments (e : Expansion δ) (x : String) : List Stmt :=
  e.prologue.filter fun st => st.assigns.contains x

/-- Nothing happened to a name. -/
structure Spares (x : String) (e e' : Expansion δ) : Prop where
  view : e'.view x = e.view x
  assignments : e'.assignments x = e.assignments x

/-- An input became a variable with one more assignment. -/
structure Turns (x : String) (value : Expr) (e e' : Expansion δ) : Prop where
  input : x ∈ e.inputs.keys
  gone : x ∉ e'.inputs.keys
  isLocal : x ∈ e'.locals.keys
  assignments : e'.assignments x = e.assignments x ++ [.assign x value]

theorem Spares.refl (x : String) (e : Expansion δ) : Spares x e e := ⟨rfl, rfl⟩

theorem Spares.trans (h : Spares x e e₁) (h' : Spares x e₁ e₂) : Spares x e e₂ :=
  ⟨h'.view.trans h.view, h'.assignments.trans h.assignments⟩

theorem Spares.mem_inputs (h : Spares x e e') : x ∈ e'.inputs.keys ↔ x ∈ e.inputs.keys :=
  mem_inputs_of_view h.view

theorem Spares.turns (h : Spares x e e₁) (h' : Turns x value e₁ e₂) : Turns x value e e₂ :=
  ⟨h.mem_inputs.mp h'.input, h'.gone, h'.isLocal, h.assignments ▸ h'.assignments⟩

theorem Turns.spares (h : Turns x value e e₁) (h' : Spares x e₁ e₂) : Turns x value e e₂ where
  input := h.input
  gone hx := h.gone (h'.mem_inputs.mp hx)
  isLocal := by
    have hlocals : e₂.locals.get? x = e₁.locals.get? x := congrArg (fun v => v.2.1) h'.view
    rw [mem_keys_iff, hlocals, ← mem_keys_iff]
    exact h.isLocal
  assignments := h'.assignments.trans h.assignments

theorem Replaces.assignments {y : String} (h : Replaces e e' y new value) :
    e'.assignments x = e.assignments x ++ if x = y then [.assign y value] else [] := by
  rw [Expansion.assignments, h.prologue, filter_append]
  congr 1
  by_cases hy : x = y <;> simp [Stmt.assigns, hy]

theorem Replaces.turns (h : Replaces e e' x new value) (hinput : x ∈ e.inputs.keys)
    (hnew : x ∉ new) : Turns x value e e' where
  input := hinput
  gone := by rw [not_mem_keys_iff, h.others x hnew, if_pos rfl]
  isLocal := h.locals.1
  assignments := by rw [h.assignments, if_pos rfl]

theorem Replaces.spares {y : String} (h : Replaces e e' y new value) (hy : x ≠ y)
    (hview : e'.view x = e.view x) : Spares x e e' where
  view := hview
  assignments := by rw [h.assignments, if_neg hy, append_nil]

/-- The scale of `n` computes `x`, which `n` and one of the suffixes make up. -/
def Computes (n : String) (s : Scaling δ) (suffixes : List String) (x : String)
    (e e' : Expansion δ) : Prop :=
  ∃ suffix ∈ suffixes, x = n ++ suffix ∧
    ∃ value, s.expression (arguments n suffix s.parameters) = .ok value ∧ Turns x value e e'

/-- The scale of `n` computes `x`, or `x` is no input with one of the suffixes and stays. -/
def Fate (n : String) (s : Scaling δ) (suffixes : List String) (x : String) (e e' : Expansion δ) :
    Prop :=
  Computes n s suffixes x e e' ∨
    (∀ suffix ∈ suffixes, x = n ++ suffix → x ∉ e.inputs.keys) ∧ Spares x e e'

theorem Fate.append {l₁ l₂ : List String} (h : Fate n s l₁ x e e₁) (h' : Fate n s l₂ x e₁ e₂) :
    Fate n s (l₁ ++ l₂) x e e₂ := by
  obtain ⟨suffix, hmem, hx, value, hvalue, hturns⟩ | ⟨hout, hspares⟩ := h
  · refine .inl ⟨suffix, mem_append_left _ hmem, hx, value, hvalue, ?_⟩
    obtain ⟨_, _, _, _, _, hturns'⟩ | ⟨-, hspares⟩ := h'
    · exact absurd hturns'.input hturns.gone
    · exact hturns.spares hspares
  · obtain ⟨suffix, hmem, hx, value, hvalue, hturns⟩ | ⟨hout', hspares'⟩ := h'
    · exact .inl ⟨suffix, mem_append_right _ hmem, hx, value, hvalue, hspares.turns hturns⟩
    · refine .inr ⟨fun suffix hmem hx => ?_, hspares.trans hspares'⟩
      obtain hmem | hmem := mem_append.mp hmem
      · exact hout suffix hmem hx
      · exact fun hinput => hout' suffix hmem hx (hspares.mem_inputs.mpr hinput)

/-- No parameter of a scale is called `x`. -/
def Apart (bindings : Dictionary (MarkBinding δ)) (x : String) (e : Expansion δ) : Prop :=
  x ∉ (copies bindings e.assigned).keys

theorem Apart.before (hx : Apart bindings x e') (h : Steps bindings e e') : Apart bindings x e :=
  fun hmem => hx (map_subset _ (copies_mono (List.Subset.refl _) h.assigned_subset) hmem)

/-- One step decides about the input that it replaces and leaves the others. -/
theorem Step.fate {suffix : String} (h : Step n suffix s e e')
    (hs : (n, scaled s) ∈ bindings) (hsuffix : suffix ∈ endings)
    (hx : Apart bindings x e') : Fate n s [suffix] x e e' := by
  have hcopies := h.ne_copyName hs hsuffix hx
  obtain @⟨_, value, hinput, hvalue, hreplaces, hnew, -, hothers⟩ := h
  by_cases hy : x = n ++ suffix
  · refine .inl ⟨suffix, mem_singleton.mpr rfl, hy, value, hvalue, ?_⟩
    subst hy
    refine hreplaces.turns hinput fun hmem => ?_
    obtain ⟨p, hp, heq⟩ := hnew _ hmem
    exact hcopies p hp heq.symm
  · refine .inr ⟨fun suffix' hmem heq => ?_, hreplaces.spares hy (hothers x hy hcopies)⟩
    rw [mem_singleton.mp hmem] at heq
    exact absurd heq hy

variable {suffixes : List String}

/-- The scale of an input decides about the inputs with its suffixes. -/
theorem Expands.fate (h : Expands n s suffixes e e') (hs : (n, .scaled s) ∈ bindings)
    (hsub : suffixes ⊆ endings) (hx : Apart bindings x e') : Fate n s suffixes x e e' := by
  induction h with
  | nil => exact .inr ⟨fun _ hmem => (not_mem_nil hmem).elim, .refl x _⟩
  | @pass suffix _ e _ hgone _ ih =>
    have hfirst : Fate n s [suffix] x e e := by
      refine .inr ⟨fun suffix' hmem heq => ?_, .refl x e⟩
      rwa [heq, mem_singleton.mp hmem]
    exact hfirst.append (ih (cons_subset.mp hsub).2 hx)
  | step hstep hrest ih =>
    rw [cons_subset] at hsub
    exact (hstep.fate hs hsub.1 (hx.before (hrest.steps hs hsub.2))).append (ih hsub.2 hx)

/-- The scale of an input decides about the input and about its neighbours', unless it is gone. -/
theorem expand_fate (hs : (n, .scaled s) ∈ bindings) (h : expand n s e = .ok e')
    (hx : Apart bindings x e') :
    n ∉ e.inputs.keys ∧ e' = e ∨ n ∈ e.inputs.keys ∧ Fate n s endings x e e' := by
  obtain hgone | ⟨e₁, hstep, -, hrest⟩ := expand_cases h
  · exact .inl hgone
  · obtain ⟨hinput, -⟩ := id hstep
    rw [String.append_empty] at hinput
    exact .inr ⟨hinput, Expands.fate (.step hstep hrest) hs (List.Subset.refl _) hx⟩

/-! ## What becomes of all names -/

/-- After the bindings `done`, a name is computed by the scale that is to compute it, and stays
if there is none. -/
structure Decided (done : Dictionary (MarkBinding δ)) (x : String) (e e' : Expansion δ) : Prop where
  spares : scaleOf? done x = none → Spares x e e'
  computes : ∀ n s, scaleOf? done x = some (n, s) → Computes n s Shift.endings x e e'

theorem Computes.spares (h : Computes n s suffixes x e e₁) (h' : Spares x e₁ e₂) :
    Computes n s suffixes x e e₂ := by
  obtain ⟨suffix, hmem, hx, value, hvalue, hturns⟩ := h
  exact ⟨suffix, hmem, hx, value, hvalue, hturns.spares h'⟩

variable {done : Dictionary (MarkBinding δ)}

theorem Decided.then_spares {done' : Dictionary (MarkBinding δ)} (h : Decided done x e e₁)
    (h' : Spares x e₁ e₂) (hsame : scaleOf? done' x = scaleOf? done x) : Decided done' x e e₂ where
  spares hx := (h.spares (hsame.symm.trans hx)).trans h'
  computes n s hx := (h.computes n s (hsame.symm.trans hx)).spares h'

theorem Decided.mem_inputs (h : Decided done x e e') (hx : x ∈ e.inputs.keys) :
    x ∈ e'.inputs.keys ↔ scaleOf? done x = none := by
  cases hd : scaleOf? done x with
  | none => simp [(h.spares hd).mem_inputs, hx]
  | some d =>
    obtain ⟨_, -, -, _, -, hturns⟩ := h.computes d.1 d.2 hd
    simp [hturns.gone]

section Names

/-
  The names that are followed are inputs, and with a name that looks at a neighbour they
  include the input it is named after, which tells whether a scale comes to it.
-/
variable {e₀ : Expansion δ} {X : String → Prop} (hinput : ∀ x, X x → x ∈ e₀.inputs.keys)
  (hbase : ∀ n suffix, suffix ∈ endings → X (n ++ suffix) → n ∈ e₀.inputs.keys → X n)
include hinput hbase

theorem decided_expand (hs : (n, .scaled s) ∈ bindings) (hn : n ∈ e₀.inputs.keys)
    (h : expand n s e = .ok e') (hapart : ∀ x, X x → Apart bindings x e')
    (hdone : ∀ x, X x → Decided done x e₀ e) (hx : X x) :
    Decided (done ++ [(n, .scaled s)]) x e₀ e' := by
  have hfate := expand_fate hs h (hapart x hx)
  cases hcovers : covers n x with
  | false =>
    refine (hdone x hx).then_spares ?_ (scaleOf?_concat_apart hcovers)
    obtain ⟨-, rfl⟩ | ⟨-, ⟨suffix, hsuffix, heq, -⟩ | ⟨-, hspares⟩⟩ := hfate
    · exact .refl x _
    · rw [covers_iff.mpr ⟨suffix, hsuffix, heq⟩] at hcovers
      cases hcovers
    · exact hspares
  | true =>
    obtain ⟨suffix, hsuffix, heq⟩ := covers_iff.mp hcovers
    have hXn : X n := hbase n suffix hsuffix (heq ▸ hx) hn
    have hmem := (hdone n hXn).mem_inputs hn
    obtain ⟨hgone, rfl⟩ | ⟨hhere, hfate⟩ := hfate
    · refine (hdone x hx).then_spares (.refl x _) (scaleOf?_concat_gone ?_)
      exact Option.isSome_iff_ne_none.mpr fun hd => hgone (hmem.mpr hd)
    have hnext := scaleOf?_concat_input (s := s) (x := x) (hmem.mp hhere)
    rw [hcovers, if_pos rfl] at hnext
    have hmem := (hdone x hx).mem_inputs (hinput x hx)
    obtain ⟨suffix', hsuffix', heq', value, hvalue, hturns⟩ | ⟨hout, hspares⟩ := hfate
    · have hdx := hmem.mp hturns.input
      rw [hdx, Option.none_or] at hnext
      refine ⟨fun hd => ?_, fun m s' hd => ?_⟩
      · rw [hnext] at hd
        cases hd
      · rw [hnext] at hd
        cases hd
        exact ⟨suffix', hsuffix', heq', value, hvalue, ((hdone x hx).spares hdx).turns hturns⟩
    · refine (hdone x hx).then_spares hspares ?_
      obtain ⟨d, hd⟩ := Option.ne_none_iff_exists'.mp fun hd =>
        hout suffix hsuffix heq (hmem.mpr hd)
      rw [hnext, hd, Option.some_or]

/-- Each input is computed by the scale that is to compute it, once, or stays as it is. -/
theorem decided_expandAll {rest : Dictionary (MarkBinding δ)} (hsub : rest ⊆ bindings)
    (hscaled : ∀ n s, (n, scaled s) ∈ bindings → n ∈ e₀.inputs.keys)
    (h : expandAll rest e = .ok e') (hapart : ∀ x, X x → Apart bindings x e')
    (hdone : ∀ x, X x → Decided done x e₀ e) (hx : X x) : Decided (done ++ rest) x e₀ e' := by
  induction rest generalizing done e with
  | nil =>
    cases h
    rw [append_nil]
    exact hdone x hx
  | cons b rest ih =>
    obtain ⟨n, b⟩ := b
    have hrest := List.Subset.trans (subset_cons_self _ _) hsub
    rw [append_cons]
    cases b with
    | plain b =>
      rw [expandAll_cons_plain] at h
      exact ih hrest h fun x hx =>
        (hdone x hx).then_spares (.refl x _) (scaleOf?_concat_plain b)
    | scaled s =>
      rw [expandAll_cons_scaled] at h
      obtain ⟨e₁, h₁, h₂⟩ := bind_ok.mp h
      have hmem := hsub mem_cons_self
      have hsteps := steps_expandAll hrest h₂
      exact ih hrest h₂ fun x hx => decided_expand hinput hbase hmem (hscaled n s hmem) h₁
        (fun x hx => (hapart x hx).before hsteps) hdone hx

end Names

end Expansion

/-! ## Marks -/

namespace Prepared

/-- Input `x` has its values from a source, and from no neighbour. -/
def Takes (p : Prepared δ) (x : String) (i : Input) (source : Source δ) : Prop :=
  p.specification.inputs.get? x = some i ∧ p.bindings.get? x = some ⟨i.type, source⟩ ∧
    p.shifts.get? x = none

/-- Variable `x` is assigned once before the statements of the mark, and its value is that of the
scale of `n`. -/
def Computes (p : Prepared δ) (statements : List Stmt) (x n : String) (s : Scaling δ) : Prop :=
  x ∉ p.specification.inputs.keys ∧ x ∈ p.specification.locals.keys ∧
    ∃ prologue suffix value, p.specification.statements = prologue ++ statements ∧
      suffix ∈ Shift.endings ∧ x = n ++ suffix ∧
      s.expression (Expansion.arguments n suffix s.parameters) = .ok value ∧
      prologue.filter (fun st => st.assigns.contains x) = [.assign x value]

end Prepared

namespace Stage

variable {w : Stage δ} {c : MarkCall δ} {x : String} {b : MarkBinding δ}

/-- The mark has a binding for `x`, and `x` is taken from no neighbour. -/
def Binds (w : Stage δ) (x : String) (b : MarkBinding δ) : Prop :=
  w.mark.bindings.get? x = some b ∧ w.mark.shifts.get? x = none

theorem binds_call (h : c.binding? w.mark.specification = some (x, b)) : (w.call c).Binds x b := by
  obtain ⟨live, hm⟩ := w.call_mark c
  rw [Binds, hm, MarkCall.settle, h]
  exact ⟨get?_insert_self _ _ _, by simp [Mark.setBinding, get?_erase]⟩

theorem Binds.call (h : w.Binds x b)
    (hc : ∀ b', c.binding? w.mark.specification ≠ some (x, b')) : (w.call c).Binds x b := by
  obtain ⟨live, hm⟩ := w.call_mark c
  rw [Binds, hm, MarkCall.settle]
  cases hb : c.binding? w.mark.specification with
  | none => exact h
  | some nb =>
    obtain ⟨n, b'⟩ := nb
    have hne : x ≠ n := by
      rintro rfl
      exact hc b' hb
    simp only [Mark.setBinding, get?_insert_of_ne hne, get?_erase, if_neg hne]
    exact h

theorem calls_specification (w : Stage δ) (cs : List (MarkCall δ)) :
    (w.calls cs).mark.specification = w.mark.specification := by
  obtain ⟨live, hm⟩ := w.calls_mark cs
  rw [hm]
  rfl

/-- The last call for an input decides its binding. -/
theorem binds_calls {before after : List (MarkCall δ)}
    (hc : c.binding? w.mark.specification = some (x, b))
    (hlast : ∀ d ∈ after, ∀ b', d.binding? w.mark.specification ≠ some (x, b')) :
    (w.calls (before ++ c :: after)).Binds x b := by
  have hfirst : ((w.calls before).call c).Binds x b :=
    binds_call (by rwa [w.calls_specification before])
  have hspec : ((w.calls before).call c).mark.specification = w.mark.specification := by
    rw [call_specification, calls_specification]
  rw [calls, foldl_append, foldl_cons]
  change Binds (((w.calls before).call c).calls after) x b
  generalize (w.calls before).call c = w₁ at hfirst hspec
  induction after generalizing w₁ with
  | nil => exact hfirst
  | cons d after ih =>
    refine ih (fun d' hd' => hlast d' (mem_cons_of_mem _ hd')) (w₁.call d) ?_ ?_
    · refine hfirst.call fun b' => ?_
      rw [hspec]
      exact hlast d mem_cons_self b'
    · rw [call_specification, hspec]

/-- What a mark makes of the last binding that an input was given. A source is what the input takes
its values from, unless a scale computes the input, which is so only where the input that it is named
after is scaled. A scale is the one that computes the input, unless the input that it is named after
is scaled and bound before it. And if a scale computes the input, whichever it is, the input is a variable
that is assigned once, from that scale. This is for inputs such that no parameter of a scale has the
name of the input or of one that it is named after. -/
theorem prepared_decided (spec shader : Specification) (before after : List (MarkCall δ))
    {c : MarkCall δ} {x : String} {b : MarkBinding δ} {m : Mark δ} {p : Prepared δ}
    (hinputs : spec.inputs.keys.Nodup) (hc : c.binding? spec = some (x, b))
    (hlast : ∀ d ∈ after, ∀ b', d.binding? spec ≠ some (x, b'))
    (hm : m = ((new spec shader).calls (before ++ c :: after)).mark) (hp : m.prepared = .ok p)
    (hnew : ∀ y ∈ spec.inputs.keys, ∀ rest, x = y ++ rest →
      y ∉ (copies m.bindings p.specification.locals.keys).keys) :
    (∀ source, c = .bind x source →
      ((∀ n s, (n, MarkBinding.scaled s) ∈ m.bindings → Shift.covers n x = false) →
        scaleOf? m.bindings x = none) ∧
      (scaleOf? m.bindings x = none → ∃ i, spec.inputs.get? x = some i ∧ p.Takes x i source)) ∧
    (∀ s, c = .scale x s →
      ((∀ n s', (n, MarkBinding.scaled s') ∈ m.bindings.takeWhile (fun e => e.1 != x) →
        Shift.covers n x = false) → scaleOf? m.bindings x = some (x, s)) ∧
      ∀ s', scaleOf? m.bindings x = some (x, s') → s' = s) ∧
    ∀ n s, scaleOf? m.bindings x = some (n, s) → p.Computes spec.statements x n s := by
  have hall := (Consistent.new (δ := δ) spec shader).calls (before ++ c :: after)
  have hspec : m.specification = spec := hm ▸ calls_specification (new spec shader) _
  obtain ⟨hbinding, hshift⟩ : m.bindings.get? x = some b ∧ m.shifts.get? x = none :=
    hm ▸ binds_calls (w := new spec shader) hc hlast
  have hnodup : m.bindings.keys.Nodup := by
    rw [hm]
    exact hall.nodup (by rwa [calls_specification])
  have hscaled : ∀ n s, (n, MarkBinding.scaled s) ∈ m.bindings → n ∈ spec.inputs.keys := by
    intro n s hn
    have hkey : n ∈ m.bindings.keys := List.mem_map_of_mem (f := Prod.fst) hn
    rw [hm] at hkey
    have hinput := hall.bound hkey
    rwa [calls_specification] at hinput
  obtain ⟨e, hrun, -, rfl⟩ := Specification.prepare_ok_iff.mp hp
  rw [hspec] at hrun
  have hassigned : e.assigned ⊆ e.locals.keys :=
    (Expansion.steps_expandAll (List.Subset.refl _) hrun).assigned_subset_locals (List.nil_subset _)
  -- the inputs that `x` is named after, `x` included
  have hdecided : Expansion.Decided ([] ++ m.bindings) x (spec.unexpanded m.bindings m.shifts) e :=
    Expansion.decided_expandAll (X := fun y => y ∈ spec.inputs.keys ∧ ∃ rest, x = y ++ rest)
      (fun y hy => hy.1)
      (fun n suffix _ hy hn => ⟨hn, hy.2.elim fun rest hrest =>
        ⟨suffix ++ rest, hrest.trans String.append_assoc⟩⟩)
      (List.Subset.refl _) hscaled hrun
      (fun y hy hmem => hy.2.elim fun rest hrest => hnew y hy.1 rest hrest
        (List.map_subset _ (copies_mono (List.Subset.refl _) hassigned) hmem))
      (fun y _ => ⟨fun _ => .refl y _, fun n s h => by cases h⟩)
      ⟨MarkCall.mem_inputs_of_binding hc, "", String.append_empty.symm⟩
  rw [List.nil_append] at hdecided
  refine ⟨fun source hsource => ⟨scaleOf?_eq_none, fun hnone => ?_⟩, fun s hs => ⟨fun hfirst => ?_,
    fun s' hs' => ?_⟩, fun n s hn => ?_⟩
  · obtain ⟨i, hi, ⟨source', h, -, rfl⟩ | ⟨s, h, -, -⟩⟩ := MarkCall.binding?_cases hc
    · cases hsource.symm.trans h
      have hview := (hdecided.spares hnone).view
      have hplain : ∀ s, (x, MarkBinding.scaled s) ∉ m.bindings := by
        intro s hs
        rw [Dictionary.get?_of_mem hnodup hs] at hbinding
        cases hbinding
      have hsource := get?_plainBindings hplain
      rw [hbinding] at hsource
      obtain ⟨b, hb, hsame⟩ := Option.map_eq_some_iff.mp hsource
      cases hsame
      exact ⟨i, hi, (congrArg Prod.fst hview).trans hi, (congrArg (fun v => v.2.2.1) hview).trans hb,
        (congrArg (fun v => v.2.2.2) hview).trans hshift⟩
    · cases hsource.symm.trans h
  · obtain ⟨i, -, ⟨source, h, -, -⟩ | ⟨s', h, -, rfl⟩⟩ := MarkCall.binding?_cases hc
    · cases hs.symm.trans h
    · cases hs.symm.trans h
      obtain ⟨later, hsplit⟩ := Dictionary.exists_split_of_get? hbinding
      rw [hsplit]
      exact scaleOf?_of_first hfirst
  · obtain ⟨i, -, ⟨source, h, -, -⟩ | ⟨s'', h, -, rfl⟩⟩ := MarkCall.binding?_cases hc
    · cases hs.symm.trans h
    · cases hs.symm.trans h
      rw [Dictionary.get?_of_mem hnodup (mem_of_scaleOf? hs').1] at hbinding
      cases hbinding
      rfl
  · obtain ⟨suffix, hsuffix, hx, value, hvalue, hturns⟩ := hdecided.computes n s hn
    refine ⟨hturns.gone, hturns.isLocal, e.prologue, suffix, value, ?_, hsuffix, hx, hvalue,
      hturns.assignments⟩
    rw [hspec]
    rfl

/-- Positions beside the neighbour's, where the mark looks at the neighbour first. -/
def trails : Specification where
  inputs := [("x_p", ⟨.float, some (.scalar 0)⟩), ("x", ⟨.float, some (.scalar 0)⟩),
    ("y", ⟨.float, some (.scalar 0)⟩), ("y_n", ⟨.float, some (.scalar 0)⟩)]
  outputs := [("from", .float), ("to", .float), ("rise", .float)]
  locals := []
  statements := [.emit [("from", .var .float "x_p"), ("to", .var .float "x"),
    ("rise", .var .float "y_n")]]

/-- A scale for one position. -/
def fixed : Scaling Value :=
  .continuous .linear .float Scaling.unitDomain (Scaling.unitRange .float) (.value (.number 5))

/-- What is called before and after a scale for "x_p". -/
def trailCalls : List (MarkCall Value) × List (MarkCall Value) :=
  ([.scale "x" Mark.position, .bind "x_p" (.number 3)],
    [.bind "y_n" (.number 2), .bind "y" (.function fun v _ => v)])

theorem prepared_decided_trails : ∃ m p,
    m = ((new trails trails).calls (trailCalls.1 ++ .scale "x_p" fixed :: trailCalls.2)).mark ∧
    m.prepared = .ok p ∧ trails.inputs.keys.Nodup ∧
    (∀ d ∈ trailCalls.2, ∀ b, d.binding? trails ≠ some ("x_p", b)) ∧
    (∀ y ∈ trails.inputs.keys, y ∉ (copies m.bindings p.specification.locals.keys).keys) ∧
    scaleOf? m.bindings "x_p" = some ("x_p", fixed) ∧
    p.Computes trails.statements "x_p" "x_p" fixed := by
  have hlast : ∀ d ∈ trailCalls.2, ∀ b, d.binding? trails ≠ some ("x_p", b) := by
    intro d hd b hb
    have hother : ∀ d ∈ trailCalls.2, d.name? ≠ some "x_p" := by decide
    exact hother d hd (MarkCall.name?_of_binding hb).1
  obtain ⟨m, p, hm, hp, hnew, howner⟩ : ∃ m p,
      m = ((new trails trails).calls (trailCalls.1 ++ .scale "x_p" fixed :: trailCalls.2)).mark ∧
      m.prepared = .ok p ∧
      (∀ y ∈ trails.inputs.keys, y ∉ (copies m.bindings p.specification.locals.keys).keys) ∧
      scaleOf? m.bindings "x_p" = some ("x_p", fixed) := ⟨_, _, rfl, rfl, by decide, rfl⟩
  have h := prepared_decided trails trails trailCalls.1 trailCalls.2 (by decide) rfl hlast hm hp
    fun y hy _ _ => hnew y hy
  exact ⟨m, p, hm, hp, by decide, hlast, hnew, howner, h.2.2 _ _ howner⟩

/-- The distance between neighbours. -/
def distances : Specification where
  inputs := [("x", ⟨.float, some (.scalar 0)⟩), ("x_p", ⟨.float, some (.scalar 0)⟩)]
  outputs := [("a", .float), ("b", .float)]
  locals := []
  statements := [.emit [("a", .var .float "x"), ("b", .var .float "x_p")]]

/-- A source that was given for a neighbour's input is lost, and so is a scale, if the input itself is
scaled and declared first. -/
theorem prepared_overrides :
    (∃ p, ((new distances distances).calls
        [.bind "x_p" (.number 5), .scale "x" Mark.position]).mark.prepared = .ok p ∧
      "x_p" ∉ p.specification.inputs.keys) ∧
    ∃ p, ((new distances distances).calls
        [.scale "x_p" fixed, .scale "x" Mark.position]).mark.prepared = .ok p ∧
      ¬ p.Computes distances.statements "x_p" "x_p" fixed := by
  refine ⟨⟨_, rfl, by decide⟩, ?_⟩
  obtain ⟨p, v, v', own, hp, hstatements, hown, hne⟩ : ∃ p v v' own,
      ((new distances distances).calls
        [.scale "x_p" fixed, .scale "x" Mark.position]).mark.prepared = .ok p ∧
      p.specification.statements = [.assign "x" v, .assign "x_p" v'] ++ distances.statements ∧
      fixed.expression (Expansion.arguments "x_p" "" fixed.parameters) = .ok own ∧
      v'.reads ≠ own.reads := ⟨_, _, _, _, rfl, rfl, rfl, by decide⟩
  refine ⟨p, hp, ?_⟩
  rintro ⟨-, -, prologue, suffix, value, hsplit, -, hx, hvalue, hassigned⟩
  obtain rfl : suffix = "" := String.append_eq_left_iff.mp hx.symm
  cases hown.symm.trans hvalue
  cases List.append_cancel_right (hstatements.symm.trans hsplit)
  cases hassigned
  exact hne rfl

end Stage

end DataMarks
