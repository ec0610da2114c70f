/-
  What the expansion of scales declares.

  Each change to an expansion, an input that becomes a variable, a parameter that becomes an
  input or an assignment, keeps inputs and variables apart, keeps declared names at their
  types and makes no other inputs than those of parameters (`Expansion.Scoped`). What is
  asked of the mark is that names and types do not get in each other's way (`Mark.Coherent`):
  the expansion checks none of it.
-/
import DataMarks.Proofs.ExpansionFrame
import DataMarks.Proofs.ScaleTypes

namespace DataMarks

open Dictionary List Expansion Parameter MarkBinding

variable {δ : Type}

/-! ## Names and types that agree -/

namespace Mark

/-- The inputs that the expansion of scales makes, with their types. -/
def made (m : Mark δ) : Dictionary ValueType := copies m.bindings m.specification.inputs.keys

/-- The scales of a mark, by input. -/
def scales (m : Mark δ) : Dictionary (Scaling δ) :=
  m.bindings.filterMap fun (n, b) =>
    match b with
    | .plain _ => none
    | .scaled s => some (n, s)

/-- The names under which a mark looks at scaled inputs of neighbours. -/
def besides (m : Mark δ) : List String :=
  m.scales.keys.flatMap fun n => Shift.suffixes.map fun shift => n ++ shift.1

/-- Names and types of inputs, scales and neighbours do not get in each other's way. -/
structure Coherent (m : Mark δ) : Prop where
  /-- What is made for parameters is not declared, -/
  new : ∀ c ∈ m.made, c.1 ∉ m.specification.declared
  /-- nor does it look like the scaled input of a neighbour, -/
  plain : ∀ c ∈ m.made, c.1 ∉ m.besides
  /-- and parameters of different types have different names. -/
  typed : ∀ c ∈ m.made, ∀ c' ∈ m.made, c.1 = c'.1 → c.2 = c'.2
  /-- Custom scales are applied to numbers. -/
  numbers : ∀ b ∈ m.scales, ∀ t ∈ b.2.customized, t = .float
  /-- What takes a scaled input from a neighbour has the type of that input, -/
  beside : ∀ b ∈ m.scales, ∀ shift ∈ Shift.suffixes, ∀ i ∈ m.specification.inputs.get? b.1,
    ∀ j ∈ m.specification.inputs.get? (b.1 ++ shift.1), j.type = i.type
  /-- and so has what takes any other input from a neighbour. -/
  shifted : ∀ e ∈ m.shifts, ∀ i ∈ m.specification.inputs.get? e.1,
    ∀ j ∈ m.specification.inputs.get? e.2.base, i.type = j.type
  /-- No input takes from a neighbour what takes a scaled input from a neighbour, -/
  unchained : ∀ e ∈ m.shifts, e.2.base ∉ m.besides
  /-- or what takes its value from a neighbour and has no binding. -/
  bound : ∀ e ∈ m.shifts, e.2.base ∈ m.shifts.keys → e.2.base ∈ m.bindings.keys

theorem coherent_iff (m : Mark δ) : m.Coherent ↔
    (∀ c ∈ m.made, c.1 ∉ m.specification.declared ∧ c.1 ∉ m.besides ∧
      ∀ c' ∈ m.made, c.1 = c'.1 → c.2 = c'.2) ∧
    (∀ b ∈ m.scales, (∀ t ∈ b.2.customized, t = .float) ∧
      ∀ shift ∈ Shift.suffixes, ∀ i ∈ m.specification.inputs.get? b.1,
        ∀ j ∈ m.specification.inputs.get? (b.1 ++ shift.1), j.type = i.type) ∧
    ∀ e ∈ m.shifts, (∀ i ∈ m.specification.inputs.get? e.1,
      ∀ j ∈ m.specification.inputs.get? e.2.base, i.type = j.type) ∧ e.2.base ∉ m.besides ∧
      (e.2.base ∈ m.shifts.keys → e.2.base ∈ m.bindings.keys) := by
  constructor
  · intro h
    exact ⟨fun c hc => ⟨h.new c hc, h.plain c hc, h.typed c hc⟩,
      fun b hb => ⟨h.numbers b hb, h.beside b hb⟩,
      fun e he => ⟨h.shifted e he, h.unchained e he, h.bound e he⟩⟩
  · rintro ⟨hmade, hscales, hshifts⟩
    exact ⟨fun c hc => (hmade c hc).1, fun c hc => (hmade c hc).2.1, fun c hc => (hmade c hc).2.2,
      fun b hb => (hscales b hb).1, fun b hb => (hscales b hb).2, fun e he => (hshifts e he).1,
      fun e he => (hshifts e he).2.1, fun e he => (hshifts e he).2.2⟩

instance (m : Mark δ) : Decidable m.Coherent := decidable_of_iff' _ m.coherent_iff

variable {m : Mark δ} {n : String} {s : Scaling δ}

theorem mem_scales_iff : (n, s) ∈ m.scales ↔ (n, scaled s) ∈ m.bindings := by
  unfold scales
  rw [mem_filterMap]
  constructor
  · rintro ⟨⟨n', b⟩, hb, h⟩
    cases b with
    | plain b => cases h
    | scaled s' =>
      cases h
      exact hb
  · intro h
    exact ⟨_, h, rfl⟩

theorem mem_besides_of_scaled {shift : String × Int} (hn : (n, scaled s) ∈ m.bindings)
    (hshift : shift ∈ Shift.suffixes) : n ++ shift.1 ∈ m.besides :=
  mem_flatMap.mpr ⟨n, mem_map_of_mem (f := Prod.fst) (mem_scales_iff.mpr hn),
    mem_map.mpr ⟨shift, hshift, rfl⟩⟩

end Mark

/-! ## What an expansion declares -/

namespace Expansion

/-- The type at which an expansion declares a name. -/
def type? (e : Expansion δ) (x : String) : Option ValueType :=
  (e.inputs.get? x).map Input.type <|> e.locals.get? x

theorem type?_of_input {e : Expansion δ} {x : String} {i : Input} (h : e.inputs.get? x = some i) :
    e.type? x = some i.type := by
  simp [type?, h]

/-- Where every input has a value, it has a binding or is taken from a neighbour. -/
theorem bound_or_shifted {e : Expansion δ} {x : String} (h : e.unbound? = none)
    (hx : x ∈ e.inputs.keys) : x ∈ e.bindings.keys ∨ x ∈ e.shifts.keys := by
  unfold unbound? at h
  have hvalue := find?_eq_none.mp h x hx
  rw [mem_keys_iff, mem_keys_iff]
  simpa [Dictionary.contains, or_iff_not_imp_left, Option.isSome_iff_ne_none] using hvalue

/-- An input is taken from a neighbour as the mark says, or as the parameter that it is made for is
an input with a binding. -/
def ShiftScoped (m : Mark δ) (e : Expansion δ) (k : String) (sh : Shift) : Prop :=
  m.shifts.get? k = some sh ∨ ∃ t, (k, t) ∈ m.made ∧ (sh.base, t) ∈ m.made ∧
    sh.base ∈ e.inputs.keys ∧ sh.base ∈ e.bindings.keys

/-- An expansion declares what the mark declares and parameters, and uses names at their types. -/
structure Scoped (m : Mark δ) (e : Expansion δ) : Prop where
  inputs : ∀ x i, e.inputs.get? x = some i →
    (m.specification.inputs.get? x).map Input.type = some i.type ∨ (x, i.type) ∈ m.made
  locals : ∀ x t, e.locals.get? x = some t → m.specification.declaredType? x = some t
  apart : ∀ x ∈ e.inputs.keys, x ∉ e.locals.keys
  declared : ∀ x t, m.specification.declaredType? x = some t → e.type? x = some t
  mentions : ∀ r ∈ Stmt.mentionsAll e.prologue, e.type? r.1 = some r.2
  assigned : e.assigned ⊆ m.specification.inputs.keys
  shifts : ∀ k sh, e.shifts.get? k = some sh → k ∈ e.inputs.keys ∧ ShiftScoped m e k sh

/-- Declared names keep their types, and what is made for parameters stays. -/
structure Extends (m : Mark δ) (e e' : Expansion δ) : Prop where
  types : ∀ x t, e.type? x = some t → e'.type? x = some t
  inputs : ∀ c ∈ m.made, c.1 ∈ e.inputs.keys → c.1 ∈ e'.inputs.keys
  bindings : ∀ c ∈ m.made, c.1 ∈ e.bindings.keys → c.1 ∈ e'.bindings.keys

variable {m : Mark δ} {e e' e₁ e₂ : Expansion δ} {x y n : String} {t : ValueType} {i : Input}
  {s : Scaling δ}

theorem Extends.refl (m : Mark δ) (e : Expansion δ) : Extends m e e :=
  ⟨fun _ _ h => h, fun _ _ h => h, fun _ _ h => h⟩

theorem Extends.trans (h : Extends m e e₁) (h' : Extends m e₁ e₂) : Extends m e e₂ where
  types x t hx := h'.types x t (h.types x t hx)
  inputs c hc hx := h'.inputs c hc (h.inputs c hc hx)
  bindings c hc hx := h'.bindings c hc (h.bindings c hc hx)

theorem ShiftScoped.mono {k : String} {sh : Shift} (h : ShiftScoped m e k sh)
    (hextends : Extends m e e') : ShiftScoped m e' k sh := by
  obtain h | ⟨t, hk, hbase, hinput, hbound⟩ := h
  · exact .inl h
  · exact .inr ⟨t, hk, hbase, hextends.inputs _ hbase hinput, hextends.bindings _ hbase hbound⟩

theorem declaredType?_of_input
    (h : (m.specification.inputs.get? x).map Input.type = some t) :
    m.specification.declaredType? x = some t := by
  simp [Specification.declaredType?, h]

section Coherent

variable (hm : m.Coherent)
include hm

variable {c : String × ValueType} {shifts : Dictionary Shift} {value : Expr} {suffix : String}
  {shift : String × Int} {j : Input}

theorem not_mem_made (hx : c.1 ∈ m.specification.declared) :
    c ∉ m.made := fun hc => hm.new c hc hx

/-- What is made for a parameter has the type of the parameter. -/
theorem Scoped.type?_of_made (h : Scoped m e) (hc : c ∈ m.made) (hinput : c.1 ∈ e.inputs.keys) :
    e.type? c.1 = some c.2 := by
  obtain ⟨i, hi⟩ := exists_of_mem_keys hinput
  rw [type?_of_input hi]
  obtain hdeclared | hmade := h.inputs c.1 i hi
  · have hmem : c.1 ∈ m.specification.inputs.keys := by
      rw [mem_keys_iff, ← Option.isSome_map, hdeclared]
      rfl
    exact absurd hc (not_mem_made hm (mem_append_left _ hmem))
  · exact congrArg some (hm.typed _ hmade c hc rfl)

/-! ## One change -/

variable {bindings : Dictionary (Binding δ)}

/-- An input becomes a variable of its type. -/
theorem Scoped.vary (h : Scoped m e) (hi : e.inputs.get? y = some i)
    (hy : y ∈ m.specification.declared)
    (hbindings : ∀ x ≠ y, x ∈ e.bindings.keys → x ∈ bindings.keys)
    (hshifts : ∀ k sh, shifts.get? k = some sh → k ≠ y ∧ e.shifts.get? k = some sh) :
    Scoped m { e.vary y i.type with bindings, shifts } ∧
      Extends m e { e.vary y i.type with bindings, shifts } := by
  have htype : ∀ x, type? { e.vary y i.type with bindings, shifts } x = e.type? x := by
    intro x
    simp only [type?, Expansion.vary, get?_erase, get?_insert]
    by_cases hx : x = y
    · simp [hx, hi]
    · simp [hx]
  have hinputs : ∀ x ≠ y, x ∈ e.inputs.keys → x ∈ (e.inputs.erase y).keys := by
    intro x hx hmem
    rwa [mem_keys_iff, get?_erase, if_neg hx, ← mem_keys_iff]
  have hne : ∀ c ∈ m.made, c.1 ≠ y := fun c hc hcy => not_mem_made hm (hcy ▸ hy) hc
  have hextends : Extends m e { e.vary y i.type with bindings, shifts } :=
    ⟨fun x t hx => (htype x).trans hx, fun c hc => hinputs c.1 (hne c hc),
      fun c hc => hbindings c.1 (hne c hc)⟩
  refine ⟨⟨fun x j hj => ?_, fun x t ht => ?_, fun x hx hlocal => ?_, fun x t ht => ?_,
    fun r hr => ?_, h.assigned, fun k sh hk => ?_⟩, hextends⟩
  · have hj : (e.inputs.erase y).get? x = some j := hj
    rw [get?_erase] at hj
    split at hj
    · cases hj
    · exact h.inputs x j hj
  · obtain ⟨rfl, rfl⟩ | ht := get?_insert_cases ht
    · refine declaredType?_of_input ((h.inputs x i hi).resolve_right (not_mem_made hm hy))
    · exact h.locals x t ht
  · have hx : x ∈ (e.inputs.erase y).keys := hx
    rw [keys_erase, mem_filter, bne_iff_ne] at hx
    obtain hxy | hlocal := mem_keys_insert_iff.mp hlocal
    · exact hx.2 hxy
    · exact h.apart x hx.1 hlocal
  · exact (htype x).trans (h.declared x t ht)
  · exact (htype r.1).trans (h.mentions r hr)
  · obtain ⟨hne, hk⟩ := hshifts k sh hk
    obtain ⟨hinput, hscoped⟩ := h.shifts k sh hk
    exact ⟨hinputs k hne hinput, hscoped.mono hextends⟩

/-- An input is made for a parameter. -/
theorem Scoped.insert (h : Scoped m e) (hx : (x, t) ∈ m.made)
    (hbindings : e.bindings.keys ⊆ bindings.keys)
    (hshifts : ∀ k sh, shifts.get? k = some sh → e.shifts.get? k = some sh ∨
      k = x ∧ (sh.base, t) ∈ m.made ∧ sh.base ∈ e.inputs.keys ∧ sh.base ∈ e.bindings.keys) :
    Scoped m { e with inputs := e.inputs.insert x ⟨t, none⟩, bindings, shifts } ∧
      Extends m e { e with inputs := e.inputs.insert x ⟨t, none⟩, bindings, shifts } := by
  have hnew : x ∉ m.specification.declared := hm.new _ hx
  have hlocal : x ∉ e.locals.keys := by
    intro hmem
    obtain ⟨t', ht'⟩ := exists_of_mem_keys hmem
    exact hnew (Specification.mem_declared_of_declaredType? (h.locals x t' ht'))
  have hother : ∀ z ≠ x, type?
      { e with inputs := e.inputs.insert x ⟨t, none⟩, bindings, shifts } z = e.type? z := by
    intro z hz
    simp [type?, get?_insert_of_ne hz]
  have hself : type?
      { e with inputs := e.inputs.insert x ⟨t, none⟩, bindings, shifts } x = some t := by
    simp [type?]
  have htypes : ∀ z t', e.type? z = some t' → type?
      { e with inputs := e.inputs.insert x ⟨t, none⟩, bindings, shifts } z = some t' := by
    intro z t' hz
    by_cases hzx : z = x
    · subst hzx
      -- what is declared under the name is an input for a parameter of the same type
      have hinput : z ∈ e.inputs.keys := by
        rw [mem_keys_iff]
        cases hi : e.inputs.get? z with
        | some i => rfl
        | none =>
          rw [type?, hi, (not_mem_keys_iff _ _).mp hlocal] at hz
          cases hz
      rw [hself, ← hz]
      exact (h.type?_of_made hm hx hinput).symm
    · rw [hother z hzx, hz]
  have hextends : Extends m e { e with inputs := e.inputs.insert x ⟨t, none⟩, bindings, shifts } :=
    ⟨htypes, fun c _ hc => keys_subset_insert _ _ _ hc, fun c _ hc => hbindings hc⟩
  refine ⟨⟨fun z j hj => ?_, h.locals, fun z hz => ?_, fun z t' hz => htypes z t' (h.declared z t' hz),
    fun r hr => htypes _ _ (h.mentions r hr), h.assigned, fun k sh hk => ?_⟩, hextends⟩
  · obtain ⟨rfl, rfl⟩ | hj := get?_insert_cases hj
    · exact .inr hx
    · exact h.inputs z j hj
  · obtain rfl | hz := mem_keys_insert_iff.mp hz
    · exact hlocal
    · exact h.apart z hz
  · obtain hk | ⟨rfl, hbase, hinput, hbound⟩ := hshifts k sh hk
    · obtain ⟨hinput, hscoped⟩ := h.shifts k sh hk
      exact ⟨keys_subset_insert _ _ _ hinput, hscoped.mono hextends⟩
    · exact ⟨mem_keys_insert_self _ _ _, .inr ⟨t, hx, hbase,
        keys_subset_insert _ _ _ hinput, hbindings hbound⟩⟩

omit hm in
/-- A variable gets a value of its type. -/
theorem Scoped.assign (h : Scoped m e) (hinput : y ∈ m.specification.inputs.keys)
    (hy : e.type? y = some value.type) (hreads : ∀ r ∈ value.reads, e.type? r.1 = some r.2) :
    Scoped m (e.assign y value) := by
  refine ⟨h.inputs, h.locals, h.apart, h.declared, fun r hr => ?_, ?_, h.shifts⟩
  · rw [Expansion.assign, Stmt.mentionsAll_append, mem_append] at hr
    obtain hr | hr := hr
    · exact h.mentions r hr
    · simp only [Stmt.mentionsAll, Stmt.mentions, append_nil, mem_cons] at hr
      obtain rfl | hr := hr
      · exact hy
      · exact hreads r hr
  · rw [Expansion.assigned, Expansion.assign, Stmt.assignsAll_append, append_subset]
    refine ⟨h.assigned, ?_⟩
    simpa [Stmt.assignsAll, Stmt.assigns] using hinput

/-! ## One scale -/

variable {qs : List (Parameter δ)}

/-- The parameters of a scale become inputs with bindings. -/
theorem Scoped.foldl_bindParameter (h : Scoped m e) (hqs : ∀ q ∈ qs, (q.name, q.type) ∈ m.made) :
    Scoped m (qs.foldl bindParameter e) ∧ Extends m e (qs.foldl bindParameter e) ∧
      ∀ q ∈ qs, q.name ∈ (qs.foldl bindParameter e).inputs.keys ∧
        q.name ∈ (qs.foldl bindParameter e).bindings.keys := by
  induction qs generalizing e with
  | nil => exact ⟨h, .refl m e, fun q hq => by cases hq⟩
  | cons q qs ih =>
    obtain ⟨hq, hrest⟩ := forall_mem_cons.mp hqs
    obtain ⟨hfirst, hextends⟩ : Scoped m (e.bindParameter q) ∧ Extends m e (e.bindParameter q) :=
      h.insert hm hq (keys_subset_insert _ _ _) fun k sh hk => .inl hk
    obtain ⟨hscoped, hextends', hmade⟩ := ih hfirst hrest
    refine ⟨hscoped, hextends.trans hextends', forall_mem_cons.mpr ⟨⟨?_, ?_⟩, hmade⟩⟩
    · exact hextends'.inputs _ hq (mem_keys_insert_self _ _ _)
    · exact hextends'.bindings _ hq (mem_keys_insert_self _ _ _)

/-- The neighbour's parameters become inputs. -/
theorem Scoped.foldl_shiftParameter {offset : Int} (h : Scoped m e)
    (hown : ∀ q ∈ qs, (q.name, q.type) ∈ m.made ∧ q.name ∈ e.inputs.keys ∧ q.name ∈ e.bindings.keys)
    (hqs : ∀ q ∈ qs, q.source.isFunction = true → (q.name ++ suffix, q.type) ∈ m.made) :
    Scoped m (qs.foldl (shiftParameter suffix offset) e) ∧
      Extends m e (qs.foldl (shiftParameter suffix offset) e) ∧
      ∀ q ∈ qs, q.source.isFunction = true →
        q.name ++ suffix ∈ (qs.foldl (shiftParameter suffix offset) e).inputs.keys := by
  induction qs generalizing e with
  | nil => exact ⟨h, .refl m e, fun q hq => by cases hq⟩
  | cons q qs ih =>
    obtain ⟨⟨hmade, hinput, hbound⟩, hown⟩ := forall_mem_cons.mp hown
    obtain ⟨hq, hrest⟩ := forall_mem_cons.mp hqs
    have hstep : Scoped m (e.shiftParameter suffix offset q) ∧
        Extends m e (e.shiftParameter suffix offset q) ∧ (q.source.isFunction = true →
          q.name ++ suffix ∈ (e.shiftParameter suffix offset q).inputs.keys) := by
      unfold shiftParameter
      split
      · rename_i hf
        have hshifts : ∀ k sh, (e.shifts.insert (q.name ++ suffix) ⟨q.name, offset⟩).get? k = some sh →
            e.shifts.get? k = some sh ∨ k = q.name ++ suffix ∧ (sh.base, q.type) ∈ m.made ∧
              sh.base ∈ e.inputs.keys ∧ sh.base ∈ e.bindings.keys := by
          intro k sh hk
          obtain ⟨rfl, rfl⟩ | hk := get?_insert_cases hk
          · exact .inr ⟨rfl, hmade, hinput, hbound⟩
          · exact .inl hk
        obtain ⟨hscoped, hextends⟩ := h.insert hm (hq hf) (List.Subset.refl _) hshifts
        exact ⟨hscoped, hextends, fun _ => mem_keys_insert_self _ _ _⟩
      · rename_i hf
        exact ⟨h, .refl m e, fun hf' => absurd hf' hf⟩
    obtain ⟨hfirst, hextends, hself⟩ := hstep
    obtain ⟨hscoped, hextends', hmade'⟩ := ih hfirst (fun q' hq' => by
      obtain ⟨hmade, hinput, hbound⟩ := hown q' hq'
      exact ⟨hmade, hextends.inputs _ hmade hinput, hextends.bindings _ hmade hbound⟩) hrest
    refine ⟨hscoped, hextends.trans hextends', forall_mem_cons.mpr ⟨fun hf => ?_, hmade'⟩⟩
    exact hextends'.inputs _ (hq hf) (hself hf)

omit hm in
theorem opened_eq : opened n t s e =
    (s.parameters.map (within n)).foldl bindParameter (e.vary n t) := by
  have hcommutes : ∀ (qs : List (Parameter δ)) (e : Expansion δ) (locals : Dictionary ValueType),
      qs.foldl bindParameter { e with locals } = { qs.foldl bindParameter e with locals } := by
    intro qs
    induction qs with
    | nil => exact fun _ _ => rfl
    | cons q qs ih => exact fun e locals => ih (e.bindParameter q) locals
  have hlocals := (Adds.foldl bindParameter_adds { e with inputs := e.inputs.erase n }
    (s.parameters.map (within n))).locals
  refine Eq.trans ?_ (hcommutes _ { e with inputs := e.inputs.erase n } _).symm
  unfold opened
  dsimp only
  rw [hlocals]

/-- The parameters of a scale are inputs with bindings. -/
def Opened (e : Expansion δ) (n : String) (s : Scaling δ) : Prop :=
  ∀ p ∈ s.parameters, n ++ p.name ∈ e.inputs.keys ∧ n ++ p.name ∈ e.bindings.keys

omit hm in
theorem made_of_parameter {p : Parameter δ} (hn : (n, scaled s) ∈ m.bindings)
    (hinput : n ∈ m.specification.inputs.keys) (hp : p ∈ s.parameters) :
    (n ++ p.name, p.type) ∈ m.made := by
  have hempty : n ++ "" = n := String.append_empty
  refine mem_copies_iff.mpr ⟨n, s, "", p, hn, mem_cons_self, hempty.symm ▸ hinput, hp, ?_⟩
  simp [copyName]

/-- Stands for parameters have the types of the parameters. -/
theorem arguments_typed (hn : (n, scaled s) ∈ m.bindings)
    (hinput : n ∈ m.specification.inputs.keys) :
    Scaling.GivenTyped (arguments n suffix s.parameters) s.parameters := by
  intro p hp g hg
  obtain ⟨q, hq, heq⟩ := mem_map.mp (mem_of_mem_ofEntries (mem_of_get? hg))
  obtain ⟨hname, rfl⟩ := Prod.mk.inj heq
  exact hm.typed _ (made_of_parameter hn hinput hq) _ (made_of_parameter hn hinput hp)
    (congrArg (n ++ ·) hname)

omit hm in
/-- What is opened stays opened. -/
theorem Opened.mono (hn : (n, scaled s) ∈ m.bindings)
    (hinput : n ∈ m.specification.inputs.keys) (h : Opened e n s) (hextends : Extends m e e') :
    Opened e' n s := by
  intro p hp
  have hmade : (n ++ p.name, p.type) ∈ m.made := made_of_parameter hn hinput hp
  exact ⟨hextends.inputs _ hmade (h p hp).1, hextends.bindings _ hmade (h p hp).2⟩

/-! ## One input -/

variable (hn : (n, scaled s) ∈ m.bindings) {i : Input}
  (hi : m.specification.inputs.get? n = some i)
include hn hi

/-- Parameters in place of a scaled input. -/
theorem Scoped.opened {input : Input} (h : Scoped m e) (hfree : n ∉ m.shifts.keys)
    (hinput : e.inputs.get? n = some input) :
    input.type = i.type ∧ Scoped m (opened n i.type s e) ∧ Extends m e (opened n i.type s e) ∧
      Opened (opened n i.type s e) n s := by
  have hself : n ∈ m.specification.inputs.keys := mem_keys_of_get? hi
  have hdeclared : n ∈ m.specification.declared := mem_append_left _ hself
  have htype : input.type = i.type := by
    have hmap := (h.inputs n input hinput).resolve_right (not_mem_made hm hdeclared)
    rw [hi] at hmap
    exact (Option.some.inj hmap).symm
  have hshifts : ∀ k sh, e.shifts.get? k = some sh → k ≠ n ∧ e.shifts.get? k = some sh := by
    intro k sh hk
    refine ⟨fun hkn => ?_, hk⟩
    rw [hkn] at hk
    obtain ⟨-, hmark | ⟨t, hmade, -⟩⟩ := h.shifts n sh hk
    · exact hfree (mem_keys_of_get? hmark)
    · exact not_mem_made hm hdeclared hmade
  obtain ⟨hvaried, hextends⟩ := h.vary hm hinput hdeclared (fun _ _ hx => hx) hshifts
  have hqs : ∀ q ∈ s.parameters.map (within n), (q.name, q.type) ∈ m.made := by
    intro q hq
    obtain ⟨p, hp, rfl⟩ := mem_map.mp hq
    exact made_of_parameter hn hself hp
  obtain ⟨hscoped, hextends', hmade⟩ := hvaried.foldl_bindParameter hm hqs
  rw [opened_eq, ← htype]
  exact ⟨rfl, hscoped, hextends.trans hextends', fun p hp => hmade (p.within n) (mem_map_of_mem hp)⟩

/-- What stands where a scaled input is looked for at a neighbour is declared, at the same type. -/
theorem Scoped.beside_input (h : Scoped m e) (hshift : shift ∈ Shift.suffixes)
    (hj : e.inputs.get? (n ++ shift.1) = some j) :
    n ++ shift.1 ∈ m.specification.inputs.keys ∧ j.type = i.type := by
  have hinput := (h.inputs _ j hj).resolve_right fun hmade =>
    hm.plain _ hmade (Mark.mem_besides_of_scaled hn hshift)
  obtain ⟨j', hj', htype⟩ := Option.map_eq_some_iff.mp hinput
  have hbeside := hm.beside _ (Mark.mem_scales_iff.mpr hn) shift hshift i hi j' hj'
  exact ⟨mem_keys_of_get? hj', htype.symm.trans hbeside⟩

/-- The neighbour's parameters in place of the input that looks at a neighbour. -/
theorem Scoped.openedBeside (h : Scoped m e) (hopened : Opened e n s)
    (hshift : shift ∈ Shift.suffixes) (hj : e.inputs.get? (n ++ shift.1) = some j) :
    Scoped m (openedBeside n i.type s shift e) ∧ Extends m e (openedBeside n i.type s shift e) ∧
      ∀ p ∈ s.parameters, p.copyName n shift.1 ∈
        (openedBeside n i.type s shift e).inputs.keys := by
  have hself : n ∈ m.specification.inputs.keys := mem_keys_of_get? hi
  obtain ⟨hmem, htype⟩ := h.beside_input hm hn hi hshift hj
  have hbindings : ∀ x ≠ n ++ shift.1, x ∈ e.bindings.keys →
      x ∈ (e.bindings.erase (n ++ shift.1)).keys := by
    intro x hx hmem
    rw [keys_erase, mem_filter, bne_iff_ne]
    exact ⟨hmem, hx⟩
  have hshifts : ∀ k sh, (e.shifts.erase (n ++ shift.1)).get? k = some sh →
      k ≠ n ++ shift.1 ∧ e.shifts.get? k = some sh := by
    intro k sh hk
    rw [get?_erase] at hk
    split at hk
    · cases hk
    · exact ⟨‹_›, hk⟩
  obtain ⟨hvaried, hextends⟩ := h.vary hm hj (mem_append_left _ hmem) hbindings hshifts
  rw [htype] at hvaried hextends
  have hown : ∀ q ∈ s.parameters.map (within n), (q.name, q.type) ∈ m.made ∧
      q.name ∈ (e.inputs.erase (n ++ shift.1)).keys ∧
      q.name ∈ (e.bindings.erase (n ++ shift.1)).keys := by
    intro q hq
    obtain ⟨p, hp, rfl⟩ := mem_map.mp hq
    exact ⟨made_of_parameter hn hself hp, hopened.mono hn hself hextends p hp⟩
  have hqs : ∀ q ∈ s.parameters.map (within n), q.source.isFunction = true →
      (q.name ++ shift.1, q.type) ∈ m.made := by
    intro q hq hf
    obtain ⟨p, hp, rfl⟩ := mem_map.mp hq
    have hf : p.source.isFunction = true := hf
    refine mem_copies_iff.mpr ⟨n, s, shift.1, p, hn,
      mem_cons_of_mem _ (mem_map_of_mem hshift), hmem, hp, ?_⟩
    rw [copyName_of_function hf]
    rfl
  obtain ⟨hscoped, hextends', hmade⟩ := hvaried.foldl_shiftParameter hm hown hqs
  refine ⟨hscoped, hextends.trans hextends', fun p hp => ?_⟩
  cases hf : p.source.isFunction with
  | true =>
    rw [copyName_of_function hf]
    exact hmade (p.within n) (mem_map_of_mem hp) hf
  | false =>
    rw [copyName_of_not_function hf]
    exact (hopened.mono hn hself (hextends.trans hextends') p hp).1

variable (hs : s.Built) (hreturns : s.returns = i.type)
include hs hreturns

/-- A scaled value for an input or a neighbour's input, once the parameters are inputs. -/
theorem Scoped.assign_scaled (h : Scoped m e) (hsuffix : suffix ∈ Shift.endings)
    (hinput : n ++ suffix ∈ m.specification.inputs.keys) (hy : e.type? (n ++ suffix) = some i.type)
    (hcopies : ∀ p ∈ s.parameters, p.copyName n suffix ∈ e.inputs.keys)
    (hvalue : s.expression (arguments n suffix s.parameters) = .ok value) :
    Scoped m (e.assign (n ++ suffix) value) := by
  have hself : n ∈ m.specification.inputs.keys := mem_keys_of_get? hi
  have htype : value.type = i.type := by
    rw [hs.expression_type (hm.numbers _ (Mark.mem_scales_iff.mpr hn))
      (arguments_typed hm hn hself) hvalue, hreturns]
  refine h.assign hinput (htype ▸ hy) fun r hr => ?_
  obtain ⟨p, hp, rfl⟩ := reads_of_arguments hvalue r hr
  exact h.type?_of_made hm (mem_copies_iff.mpr ⟨n, s, suffix, p, hn, hsuffix, hinput, hp, rfl⟩)
    (hcopies p hp)

theorem Scoped.expandShift (h : Scoped m e) (hopened : Opened e n s)
    (hshift : shift ∈ Shift.suffixes) (hrun : expandShift n i.type s e shift = .ok e') :
    Scoped m e' ∧ Opened e' n s := by
  obtain ⟨-, rfl⟩ | ⟨hhere, value, hvalue, rfl⟩ := expandShift_cases hrun
  · exact ⟨h, hopened⟩
  obtain ⟨j, hj⟩ := Option.isSome_iff_exists.mp hhere
  obtain ⟨hinput, htype⟩ := h.beside_input hm hn hi hshift hj
  obtain ⟨hscoped, hextends, hcopies⟩ := h.openedBeside hm hn hi hopened hshift hj
  have hopened' : Opened (Expansion.openedBeside n i.type s shift e) n s :=
    hopened.mono hn (mem_keys_of_get? hi) hextends
  have hy := hextends.types _ _ (htype ▸ type?_of_input hj)
  exact ⟨hscoped.assign_scaled hm hn hi hs hreturns
    (mem_cons_of_mem _ (mem_map_of_mem hshift)) hinput hy hcopies hvalue, hopened'⟩

theorem Scoped.expand (h : Scoped m e) (hfree : n ∉ m.shifts.keys)
    (hrun : expand n s e = .ok e') : Scoped m e' := by
  cases hinput : e.inputs.get? n with
  | none =>
    rw [expand_of_gone hinput] at hrun
    cases hrun
    exact h
  | some input =>
    rw [expand_of_input hinput] at hrun
    obtain ⟨value, hvalue, hrun⟩ := bind_ok.mp hrun
    obtain ⟨htype, hscoped, hextends, hopened⟩ := h.opened hm hn hi hfree hinput
    rw [htype] at hrun
    have hempty : n ++ "" = n := String.append_empty
    have hself : n ++ "" ∈ m.specification.inputs.keys := hempty.symm ▸ mem_keys_of_get? hi
    have hy : (Expansion.opened n i.type s e).type? (n ++ "") = some i.type := by
      rw [hempty]
      exact hextends.types _ _ (htype ▸ type?_of_input hinput)
    have hfirst := hscoped.assign_scaled hm hn hi hs hreturns mem_cons_self hself hy
      (fun p hp => p.copyName_empty n ▸ (hopened p hp).1) hvalue
    rw [hempty] at hfirst
    refine (foldlM_keeps (P := fun e => Scoped m e ∧ Opened e n s) ?_ ⟨hfirst, hopened⟩ hrun).1
    intro e₁ shift hshift e₂ h₁ h₂
    exact h₁.1.expandShift hm hn hi hs hreturns h₁.2 hshift h₂

end Coherent

end Expansion

end DataMarks
