/-
  What the expansion of scales does to the bindings of a mark.

  Every binding of an expanded mark is a plain one of the mark or that of a
  parameter of a scale (`Expansion.expandAll_owned`). Where an input that is bound
  to a source is bound to another one and no parameter has its name, the expanded
  mark is the same but for that source (`Specification.prepare_rebound`).
-/
import DataMarks.Mark
import DataMarks.Proofs.Entries
import DataMarks.Proofs.Run

namespace DataMarks

open Dictionary List Expansion

variable {δ : Type}

/-! ## Folds that can fail -/

/-- What every step keeps, a fold keeps. -/
theorem foldlM_keeps {ε σ α : Type} {P : σ → Prop} {f : σ → α → Except ε σ} {l : List α} {s s' : σ}
    (hstep : ∀ s, ∀ a ∈ l, ∀ s', P s → f s a = .ok s' → P s') (hs : P s)
    (h : l.foldlM f s = .ok s') : P s' := by
  induction l generalizing s with
  | nil =>
    cases h
    exact hs
  | cons a l ih =>
    rw [foldlM_cons] at h
    obtain ⟨s₁, h₁, h₂⟩ := bind_ok.mp h
    exact ih (fun s b hb => hstep s b (mem_cons_of_mem _ hb)) (hstep s a mem_cons_self s₁ hs h₁) h₂

/-- A change that goes through every step goes through a fold. -/
theorem foldlM_map {ε σ α : Type} {g : σ → σ} {f : σ → α → Except ε σ} {l : List α} {s : σ}
    (hstep : ∀ s, ∀ a ∈ l, f (g s) a = (f s a).map g) :
    l.foldlM f (g s) = (l.foldlM f s).map g := by
  induction l generalizing s with
  | nil => rfl
  | cons a l ih =>
    rw [foldlM_cons, foldlM_cons, hstep s a mem_cons_self]
    cases f s a with
    | error e => rfl
    | ok s' => exact ih fun s b hb => hstep s b (mem_cons_of_mem _ hb)

/-! ## One scale -/

variable {p : Parameter δ}

namespace Expansion

/-- The expansion with the parameters of a scaling for inputs, in place of input `name`. -/
def opened (name : String) (t : ValueType) (s : Scaling δ) (e : Expansion δ) : Expansion δ :=
  let e := (s.parameters.map (Parameter.within name)).foldl bindParameter
    { e with inputs := e.inputs.erase name }
  { e with locals := e.locals.insert name t }

/-- The expansion with the neighbour's parameters for inputs, in place of the input that looks at
that neighbour. -/
def openedBeside (name : String) (t : ValueType) (s : Scaling δ) (shift : String × Int)
    (e : Expansion δ) : Expansion δ :=
  (s.parameters.map (Parameter.within name)).foldl (shiftParameter shift.1 shift.2)
    { e.vary (name ++ shift.1) t with
      shifts := e.shifts.erase (name ++ shift.1)
      bindings := e.bindings.erase (name ++ shift.1) }

variable {name : String} {t : ValueType} {s : Scaling δ} {e e' : Expansion δ}
variable {shift : String × Int}

theorem expandShift_of_gone (h : e.inputs.contains (name ++ shift.1) = false) :
    expandShift name t s e shift = .ok e := by
  rw [expandShift]
  simp only [h, Bool.false_eq_true, if_false]
  rfl

theorem expandShift_of_input (h : e.inputs.contains (name ++ shift.1) = true) :
    expandShift name t s e shift = (s.expression (arguments name shift.1 s.parameters) >>=
      fun value => .ok ((openedBeside name t s shift e).assign (name ++ shift.1) value)) := by
  rw [expandShift]
  simp only [h, if_true]
  rfl

/-- A step beside an input either finds no input there or makes it a variable. -/
theorem expandShift_cases (h : expandShift name t s e shift = .ok e') :
    e.inputs.contains (name ++ shift.1) = false ∧ e' = e ∨
      e.inputs.contains (name ++ shift.1) = true ∧
        ∃ value, s.expression (arguments name shift.1 s.parameters) = .ok value ∧
          e' = (openedBeside name t s shift e).assign (name ++ shift.1) value := by
  cases hc : e.inputs.contains (name ++ shift.1) with
  | false =>
    rw [expandShift_of_gone hc] at h
    cases h
    exact .inl ⟨rfl, rfl⟩
  | true =>
    rw [expandShift_of_input hc] at h
    obtain ⟨value, hvalue, h⟩ := bind_ok.mp h
    cases h
    exact .inr ⟨rfl, value, hvalue, rfl⟩

theorem expand_of_gone (h : e.inputs.get? name = none) : expand name s e = .ok e := by
  rw [expand, h]
  rfl

theorem expand_of_input {input : Input} (h : e.inputs.get? name = some input) :
    expand name s e = (s.expression (arguments name "" s.parameters) >>= fun value =>
      Shift.suffixes.foldlM (expandShift name input.type s)
        ((opened name input.type s e).assign name value)) := by
  rw [expand, h]
  rfl

/-! ## Sources of plain inputs -/

/-- The expansion with another binding for a name that is bound. -/
def rebound (n : String) (b : Binding δ) (e : Expansion δ) : Expansion δ :=
  { e with bindings := e.bindings.replace n b }

variable {n : String} {b : Binding δ}

theorem rebound_bindParameter (h : p.name ≠ n) :
    (e.rebound n b).bindParameter p = (e.bindParameter p).rebound n b := by
  rw [bindParameter, bindParameter, rebound, rebound]
  dsimp only
  rw [replace_insert_of_ne h]

theorem rebound_foldl_bindParameter {ps : List (Parameter δ)} (h : ∀ p ∈ ps, p.name ≠ n) :
    ps.foldl bindParameter (e.rebound n b) = (ps.foldl bindParameter e).rebound n b := by
  induction ps generalizing e with
  | nil => rfl
  | cons p ps ih =>
    rw [foldl_cons, foldl_cons, rebound_bindParameter (h p mem_cons_self),
      ih fun q hq => h q (mem_cons_of_mem _ hq)]

theorem rebound_foldl_shiftParameter (suffix : String) (offset : Int) (ps : List (Parameter δ)) :
    ps.foldl (shiftParameter suffix offset) (e.rebound n b) =
      (ps.foldl (shiftParameter suffix offset) e).rebound n b := by
  induction ps generalizing e with
  | nil => rfl
  | cons p ps ih =>
    have hp : (e.rebound n b).shiftParameter suffix offset p =
        (e.shiftParameter suffix offset p).rebound n b := by
      rw [shiftParameter, shiftParameter]
      split <;> rfl
    rw [foldl_cons, foldl_cons, hp, ih]

theorem rebound_opened (h : ∀ p ∈ s.parameters, name ++ p.name ≠ n) :
    opened name t s (e.rebound n b) = (opened name t s e).rebound n b := by
  have hps : ∀ p ∈ s.parameters.map (Parameter.within name), p.name ≠ n := by
    intro p hp
    obtain ⟨q, hq, rfl⟩ := mem_map.mp hp
    exact h q hq
  have hfold := rebound_foldl_bindParameter (b := b) hps
    (e := { e with inputs := e.inputs.erase name })
  exact congrArg (fun e : Expansion δ => { e with locals := e.locals.insert name t }) hfold

theorem rebound_openedBeside (shift : String × Int) :
    openedBeside name t s shift (e.rebound n b) = (openedBeside name t s shift e).rebound n b := by
  rw [openedBeside, openedBeside, ← rebound_foldl_shiftParameter]
  congr 1
  rw [rebound, rebound, replace_erase]
  rfl

theorem rebound_expandShift (shift : String × Int) :
    expandShift name t s (e.rebound n b) shift =
      (expandShift name t s e shift).map (rebound n b) := by
  cases h : e.inputs.contains (name ++ shift.1) with
  | false =>
    have h' : (e.rebound n b).inputs.contains (name ++ shift.1) = false := h
    rw [expandShift_of_gone h, expandShift_of_gone h']
    rfl
  | true =>
    have h' : (e.rebound n b).inputs.contains (name ++ shift.1) = true := h
    rw [expandShift_of_input h, expandShift_of_input h', rebound_openedBeside]
    cases s.expression (arguments name shift.1 s.parameters) <;> rfl

theorem rebound_expand (h : ∀ p ∈ s.parameters, name ++ p.name ≠ n) :
    expand name s (e.rebound n b) = (expand name s e).map (rebound n b) := by
  cases hi : e.inputs.get? name with
  | none =>
    have hi' : (e.rebound n b).inputs.get? name = none := hi
    rw [expand_of_gone hi, expand_of_gone hi']
    rfl
  | some input =>
    have hi' : (e.rebound n b).inputs.get? name = some input := hi
    rw [expand_of_input hi, expand_of_input hi', rebound_opened h]
    cases s.expression (arguments name "" s.parameters) with
    | error err => rfl
    | ok value =>
      exact foldlM_map (g := rebound n b) (s := (opened name input.type s e).assign name value)
        fun e shift _ => rebound_expandShift shift

end Expansion

/-! ## All scales -/

/-- The parameters of all scalings among bindings, under the names they have in a mark. -/
def scaleParameters (bindings : Dictionary (MarkBinding δ)) : List (Parameter δ) :=
  bindings.flatMap fun (n, b) =>
    match b with
    | .plain _ => []
    | .scaled s => s.parameters.map (Parameter.within n)

/-- The bindings to sources. -/
def plainBindings (bindings : Dictionary (MarkBinding δ)) : Dictionary (Binding δ) :=
  bindings.filterMap fun (n, b) =>
    match b with
    | .plain b => some (n, b)
    | .scaled _ => none

variable {bindings : Dictionary (MarkBinding δ)}

theorem mem_scaleParameters_iff {q : Parameter δ} :
    q ∈ scaleParameters bindings ↔
      ∃ n s, (n, MarkBinding.scaled s) ∈ bindings ∧ ∃ p ∈ s.parameters, q = p.within n := by
  rw [scaleParameters, mem_flatMap]
  constructor
  · rintro ⟨⟨n, b⟩, hb, hq⟩
    cases b with
    | plain _ => cases hq
    | scaled s =>
      obtain ⟨p, hp, rfl⟩ := mem_map.mp hq
      exact ⟨n, s, hb, p, hp, rfl⟩
  · rintro ⟨n, s, hb, p, hp, rfl⟩
    exact ⟨(n, .scaled s), hb, mem_map_of_mem hp⟩

variable {b : Binding δ} {n : String}

theorem mem_plainBindings_iff :
    (n, b) ∈ plainBindings bindings ↔ (n, MarkBinding.plain b) ∈ bindings := by
  rw [plainBindings, mem_filterMap]
  constructor
  · rintro ⟨⟨m, c⟩, hc, h⟩
    cases c with
    | plain c =>
      cases h
      exact hc
    | scaled s => cases h
  · intro h
    exact ⟨_, h, rfl⟩

theorem keys_plainBindings_sublist (bindings : Dictionary (MarkBinding δ)) :
    (plainBindings bindings).keys.Sublist bindings.keys := by
  induction bindings with
  | nil => exact List.Sublist.slnil
  | cons e bindings ih =>
    obtain ⟨n, b⟩ := e
    cases b with
    | plain b => exact ih.cons_cons n
    | scaled s => exact ih.cons n

namespace Expansion

variable {bindings : Dictionary (MarkBinding δ)} {e e' : Expansion δ}

theorem expandAll_cons_plain (n : String) (b : Binding δ) :
    expandAll ((n, .plain b) :: bindings) e = expandAll bindings e := rfl

theorem expandAll_cons_scaled (n : String) (s : Scaling δ) :
    expandAll ((n, .scaled s) :: bindings) e = (expand n s e >>= expandAll bindings) := rfl

/-- What the expansion of each scale keeps, the expansion of all keeps. -/
theorem expandAll_keeps {P : Expansion δ → Prop}
    (hstep : ∀ n s, (n, MarkBinding.scaled s) ∈ bindings → ∀ e e', P e → expand n s e = .ok e' → P e')
    (he : P e) (h : expandAll bindings e = .ok e') : P e' := by
  refine foldlM_keeps ?_ he h
  rintro e ⟨n, b⟩ hb e' he h
  cases b with
  | plain _ =>
    cases h
    exact he
  | scaled s => exact hstep n s hb e e' he h

theorem rebound_expandAll (h : ∀ q ∈ scaleParameters bindings, q.name ≠ n) :
    expandAll bindings (e.rebound n b) = (expandAll bindings e).map (rebound n b) := by
  refine foldlM_map ?_
  rintro e ⟨m, c⟩ hc
  cases c with
  | plain _ => rfl
  | scaled s =>
    exact rebound_expand fun p hp => h (p.within m)
      (mem_scaleParameters_iff.mpr ⟨m, s, hc, p, hp, rfl⟩)

/-- A plain binding where no scale was leaves the expansion as it is. -/
theorem expandAll_insert_plain (h : ∀ s, bindings.get? n ≠ some (.scaled s)) :
    expandAll (bindings.insert n (.plain b)) e = expandAll bindings e := by
  induction bindings generalizing e with
  | nil => rfl
  | cons c bindings ih =>
    obtain ⟨m, c⟩ := c
    rw [Dictionary.insert]
    by_cases hm : m = n
    · rw [if_pos hm, expandAll_cons_plain]
      cases c with
      | plain c => rfl
      | scaled s =>
        refine absurd ?_ (h s)
        rw [get?_cons, if_pos hm.symm]
    · have hrest : ∀ s, Dictionary.get? bindings n ≠ some (.scaled s) := by
        intro s hs
        refine h s ?_
        rw [get?_cons, if_neg (Ne.symm hm), hs]
      rw [if_neg hm]
      cases c with
      | plain c =>
        rw [expandAll_cons_plain, expandAll_cons_plain, ih hrest]
      | scaled s =>
        rw [expandAll_cons_scaled, expandAll_cons_scaled]
        congr 1
        funext e
        exact ih hrest

/-! ## Where bindings come from -/

/-- No name is bound twice, and every binding is one of `plain` or that of a parameter. -/
def Owned (plain : Dictionary (Binding δ)) (ps : List (Parameter δ)) (e : Expansion δ) : Prop :=
  e.bindings.keys.Nodup ∧
    ∀ b ∈ e.bindings, b ∈ plain ∨ ∃ q ∈ ps, b = (q.name, ⟨q.type, q.source⟩)

variable {plain : Dictionary (Binding δ)} {ps : List (Parameter δ)}

theorem Owned.bindParameter (he : Owned plain ps e) (hp : p ∈ ps) :
    Owned plain ps (e.bindParameter p) := by
  refine ⟨nodup_keys_insert he.1, fun b hb => ?_⟩
  obtain rfl | hb := eq_or_mem_of_mem_insert hb
  · exact .inr ⟨p, hp, rfl⟩
  · exact he.2 b hb

theorem Owned.foldl_bindParameter {qs : List (Parameter δ)} (he : Owned plain ps e)
    (hqs : ∀ q ∈ qs, q ∈ ps) : Owned plain ps (qs.foldl Expansion.bindParameter e) := by
  induction qs generalizing e with
  | nil => exact he
  | cons q qs ih =>
    exact ih (he.bindParameter (hqs q mem_cons_self)) fun q' hq' => hqs q' (mem_cons_of_mem _ hq')

theorem bindings_foldl_shiftParameter (suffix : String) (offset : Int) (qs : List (Parameter δ)) :
    (qs.foldl (shiftParameter suffix offset) e).bindings = e.bindings := by
  induction qs generalizing e with
  | nil => rfl
  | cons q qs ih =>
    rw [foldl_cons, ih, shiftParameter]
    split <;> rfl

theorem Owned.openedBeside {name : String} {t : ValueType} {s : Scaling δ} {shift : String × Int}
    (he : Owned plain ps e) : Owned plain ps (openedBeside name t s shift e) := by
  rw [Owned, Expansion.openedBeside, bindings_foldl_shiftParameter]
  exact ⟨nodup_keys_erase he.1, fun b hb => he.2 b (mem_filter.mp hb).1⟩

theorem Owned.expand {name : String} {s : Scaling δ} (he : Owned plain ps e)
    (hs : ∀ p ∈ s.parameters, p.within name ∈ ps) (h : expand name s e = .ok e') :
    Owned plain ps e' := by
  cases hi : e.inputs.get? name with
  | none =>
    rw [expand_of_gone hi] at h
    cases h
    exact he
  | some input =>
    rw [expand_of_input hi] at h
    obtain ⟨value, -, h⟩ := bind_ok.mp h
    refine foldlM_keeps (P := Owned plain ps) ?_ ?_ h
    · intro e₁ shift _ e₂ he₁ hshift
      obtain ⟨-, rfl⟩ | ⟨-, value, -, rfl⟩ := expandShift_cases hshift
      · exact he₁
      · exact he₁.openedBeside
    · refine Owned.foldl_bindParameter (e := { e with inputs := e.inputs.erase name }) he ?_
      intro q hq
      obtain ⟨p, hp, rfl⟩ := mem_map.mp hq
      exact hs p hp

/-- An expanded mark has bindings of the mark and of the parameters of its scales. -/
theorem expandAll_owned (he : e.bindings.keys.Nodup) (h : expandAll bindings e = .ok e') :
    Owned e.bindings (scaleParameters bindings) e' := by
  refine expandAll_keeps ?_ ⟨he, fun b hb => .inl hb⟩ h
  intro n s hn e₁ e₂ he₁ h₁
  exact he₁.expand (fun p hp => mem_scaleParameters_iff.mpr ⟨n, s, hn, p, hp, rfl⟩) h₁

end Expansion

/-! ## Expanded specifications -/

namespace Specification

variable {spec : Specification} {bindings : Dictionary (MarkBinding δ)} {shifts : Dictionary Shift}

/-- The expansion of a specification before any scale is expanded. -/
def unexpanded (spec : Specification) (bindings : Dictionary (MarkBinding δ))
    (shifts : Dictionary Shift) : Expansion δ :=
  { inputs := spec.inputs, locals := spec.locals, bindings := plainBindings bindings, shifts }

/-- What is ready for a platform once scales are expanded. -/
def expanded (spec : Specification) (e : Expansion δ) : Prepared δ :=
  { specification := { spec with
      inputs := e.inputs
      locals := e.locals
      statements := e.prologue ++ spec.statements }
    bindings := e.bindings
    shifts := e.shifts }

theorem prepare_eq :
    spec.prepare bindings shifts = (expandAll bindings (spec.unexpanded bindings shifts) >>=
      fun e => match e.unbound? with
        | some n => .error (.undefinedAttribute n)
        | none => .ok (spec.expanded e)) := by
  rw [prepare]
  refine congrArg (expandAll bindings (spec.unexpanded bindings shifts) >>= ·) ?_
  funext e
  cases e.unbound? <;> rfl

theorem prepare_ok_iff {p : Prepared δ} :
    spec.prepare bindings shifts = .ok p ↔
      ∃ e, expandAll bindings (spec.unexpanded bindings shifts) = .ok e ∧
        e.unbound? = none ∧ p = spec.expanded e := by
  rw [prepare_eq, bind_ok]
  refine exists_congr fun e => and_congr_right fun _ => ?_
  cases e.unbound? with
  | some n => simp
  | none => simp [eq_comm]

theorem plainBindings_insert_plain {b' : Binding δ} (hd : bindings.keys.Nodup)
    (h : bindings.get? n = some (.plain b')) :
    plainBindings (bindings.insert n (.plain b)) = (plainBindings bindings).replace n b := by
  induction bindings with
  | nil => cases h
  | cons c bindings ih =>
    obtain ⟨m, c⟩ := c
    rw [get?_cons] at h
    simp only [Dictionary.keys, map_cons, nodup_cons] at hd ih
    rw [Dictionary.insert]
    by_cases hm : m = n
    · rw [if_pos hm.symm] at h
      cases h
      have hrest : n ∉ (plainBindings bindings).keys :=
        fun hmem => hd.1 (hm ▸ (keys_plainBindings_sublist bindings).subset hmem)
      rw [if_pos hm]
      show (n, b) :: plainBindings bindings = Dictionary.replace n b ((m, b') :: plainBindings bindings)
      rw [replace_cons, if_pos hm, replace_of_not_mem_keys hrest]
    · rw [if_neg (Ne.symm hm)] at h
      rw [if_neg hm]
      cases c with
      | plain c =>
        show (m, c) :: plainBindings (Dictionary.insert n (.plain b) bindings) =
          Dictionary.replace n b ((m, c) :: plainBindings bindings)
        rw [replace_cons, if_neg hm, ih hd.2 h]
      | scaled s => exact ih hd.2 h

/-- Another source for a plain input goes through the expansion of scales. -/
theorem prepare_rebound {b' : Binding δ} {p : Prepared δ} (hd : bindings.keys.Nodup)
    (hn : bindings.get? n = some (.plain b')) (hfree : ∀ q ∈ scaleParameters bindings, q.name ≠ n)
    (h : spec.prepare bindings shifts = .ok p) :
    spec.prepare (bindings.insert n (.plain b)) shifts =
      .ok { p with bindings := p.bindings.replace n b } := by
  obtain ⟨e, he, hbound, rfl⟩ := prepare_ok_iff.mp h
  have hstart : spec.unexpanded (bindings.insert n (.plain b)) shifts =
      (spec.unexpanded bindings shifts).rebound n b := by
    rw [unexpanded, unexpanded, rebound, plainBindings_insert_plain hd hn]
  have hplain : ∀ s, bindings.get? n ≠ some (.scaled s) := by
    intro s hs
    rw [hn] at hs
    cases hs
  refine prepare_ok_iff.mpr ⟨e.rebound n b, ?_, ?_, rfl⟩
  · rw [expandAll_insert_plain hplain, hstart, rebound_expandAll hfree, he]
    rfl
  · have hkeys : ∀ k, (e.rebound n b).bindings.contains k = e.bindings.contains k :=
      contains_eq_of_keys (keys_replace n b e.bindings)
    rw [unbound?] at hbound ⊢
    simp only [hkeys]
    exact hbound

end Specification

end DataMarks
