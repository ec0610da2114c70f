/-
  Flattening keeps specifications well formed.

  The flattened form of a well-scoped and well-typed specification is so again. It has one
  more input and some more variables, whose names are new, and it can be flattened again,
  since no count grows (`Specification.wellFormed_flatten`). A loop inside of one that has no
  round adds a variable too, although neither is flattened (`Specification.flatten_idleLoop`).
-/
import DataMarks.Proofs.CompiledFiles
import DataMarks.Proofs.FlattenedForm
import DataMarks.Proofs.Flattening

namespace DataMarks

open Dictionary List Stmt

namespace Expr

mutual

/-- Every call goes to an intrinsic of the catalog with arguments of the types of its parameters. -/
def Registered : Expr → Prop
  | const .. | var .. => True
  | field _ base _ => base.Registered
  | call t f args =>
    RegisteredAll args ∧ ∃ i ∈ Catalog.find? f, i.params = args.map type ∧ i.returns = t

def RegisteredAll : List Expr → Prop
  | [] => True
  | e :: es => e.Registered ∧ RegisteredAll es

end

mutual

theorem registered_of_wellTyped : ∀ {e : Expr}, e.WellTyped → e.Registered
  | const .., _ => trivial
  | var .., _ => trivial
  | field .., h => by
    rw [WellTyped] at h
    rw [Registered]
    exact registered_of_wellTyped h.1
  | call .., h => by
    rw [WellTyped] at h
    rw [Registered]
    exact ⟨registeredAll_of_wellTypedAll h.1, h.2⟩

theorem registeredAll_of_wellTypedAll : ∀ {es : List Expr}, WellTypedAll es → RegisteredAll es
  | [], _ => trivial
  | _ :: _, h => by
    rw [WellTypedAll] at h
    rw [RegisteredAll]
    exact ⟨registered_of_wellTyped h.1, registeredAll_of_wellTypedAll h.2⟩

end

end Expr

theorem Dictionary.foldl_insert {α : Type} {v : α} {xs : List String} {d : Dictionary α}
    (hnodup : xs.Nodup) (hfresh : ∀ x ∈ xs, x ∉ d.keys) :
    xs.foldl (fun d x => d.insert x v) d = d ++ xs.map fun x => (x, v) := by
  induction xs generalizing d with
  | nil => exact (append_nil _).symm
  | cons x xs ih =>
    rw [nodup_cons] at hnodup
    rw [forall_mem_cons] at hfresh
    have hinsert := insert_of_not_mem_keys (v := v) hfresh.1
    rw [foldl_cons, hinsert, ih hnodup.2]
    · rw [append_assoc]
      rfl
    · intro y hy hkey
      rw [keys, map_append, mem_append] at hkey
      rcases hkey with hkey | hkey
      · exact hfresh.2 y hy hkey
      · obtain rfl := mem_singleton.mp hkey
        exact hnodup.1 hy

theorem Dictionary.get?_map_const {α : Type} {v : α} {xs : List String} {x : String} (h : x ∈ xs) :
    Dictionary.get? (xs.map fun x => (x, v)) x = some v := by
  induction xs with
  | nil => cases h
  | cons y xs ih =>
    rw [map_cons, get?_cons]
    split
    · rfl
    · rename_i hne
      exact ih ((mem_cons.mp h).resolve_left hne)

namespace Specification

open Flattening

/-- A specification is well scoped and well typed: names are used at the types they are declared
with, none is an input and a variable, calls are those of the catalog, and tests are truth values. -/
structure WellFormed (s : Specification) : Prop where
  declared : s.undeclared = []
  disjoint : ∀ x ∈ s.inputs.keys, x ∉ s.locals.keys
  calls : ∀ e ∈ Stmt.exprsAll s.statements, e.Registered
  tests : ∀ e ∈ Stmt.testsAll s.statements, e.type = .bool

end Specification

/-- What flattening adds to a specification. There is a start for each loop that is gone, and one for
each that is left though vertices are counted for it; with rounds in all loops, none is. -/
structure Flattened.Extends (f : Flattened) (s : Specification) (vertex cursor : String)
    (starts : List String) : Prop where
  isShader : f.specification.isShader = s.isShader
  outputs : f.specification.outputs = s.outputs
  repeats : f.specification.repeats = s.repeats
  inputs : f.specification.inputs = s.inputs ++ [(f.index, ⟨.float, some (.scalar 0)⟩)]
  locals : f.specification.locals =
    s.locals ++ (vertex :: cursor :: starts).map fun x => (x, .int)
  nodup : (f.index :: vertex :: cursor :: starts).Nodup
  fresh : ∀ x ∈ f.index :: vertex :: cursor :: starts, x ∉ s.declared
  loops : Stmt.loopCount f.specification.statements + starts.length =
    Stmt.loopCount s.statements + Stmt.countedLoops f.specification.statements
  rounds : (∀ t ∈ Stmt.partsAll s.statements, t.HasRounds) →
    Stmt.countedLoops f.specification.statements = 0

namespace Specification

open Flattening

variable {s : Specification} {f : Flattened} {vertex cursor : String} {starts : List String}

/-- The statements in front of a flattened body. -/
def prologue (index vertex cursor : String) : List Stmt :=
  [.assign vertex (.intrinsic "int" [.var .float index] .int), .assign cursor (.int 0)]

theorem flatten_extends (h : s.flatten = .ok f) : ∃ vertex cursor starts body,
    f.Extends s vertex cursor starts ∧ Rewrites { vertex, cursor } starts s.statements body ∧
      Recounts starts.length s.statements body ∧ slotsAll s.statements ≤ maxEmits ∧
      f.specification.statements = prologue f.index vertex cursor ++ body := by
  obtain ⟨vertex, cursor, body, names', hindex, hvertex, hcursor, hbody, hle, hf⟩ := flatten_eq h
  obtain ⟨starts, hstarts, hrewrites, hcounts⟩ := hbody.rewrites
  obtain ⟨hcount, -⟩ := hbody.counts
  have hloopStarts : names'.loopStarts = starts := hstarts.loopStarts
  have hindexFresh : f.index ∉ s.declared := hindex ▸ Name.fresh_not_mem _ _
  have hvertexFresh : vertex ∉ f.index :: s.declared := hvertex ▸ Name.fresh_not_mem _ _
  have hcursorFresh : cursor ∉ vertex :: f.index :: s.declared := hcursor ▸ Name.fresh_not_mem _ _
  have hstartsFresh : ∀ x ∈ starts, x ∉ cursor :: vertex :: f.index :: s.declared := hstarts.fresh
  simp only [mem_cons, not_or] at hvertexFresh hcursorFresh hstartsFresh
  have hnodup : (f.index :: vertex :: cursor :: starts).Nodup := by
    simp only [nodup_cons, mem_cons, not_or]
    exact ⟨⟨Ne.symm hvertexFresh.1, Ne.symm hcursorFresh.2.1, fun h => (hstartsFresh _ h).2.2.1 rfl⟩,
      ⟨Ne.symm hcursorFresh.1, fun h => (hstartsFresh _ h).2.1 rfl⟩,
      fun h => (hstartsFresh _ h).1 rfl, hstarts.nodup⟩
  have hfresh : ∀ x ∈ f.index :: vertex :: cursor :: starts, x ∉ s.declared := by
    simp only [forall_mem_cons]
    exact ⟨hindexFresh, hvertexFresh.2, hcursorFresh.2.2, fun x hx => (hstartsFresh x hx).2.2.2⟩
  rw [hloopStarts, foldl_insert (nodup_cons.mp hnodup).2
    fun x hx h => hfresh x (mem_cons_of_mem _ hx) (mem_append_right _ h),
    insert_of_not_mem_keys fun h => hindexFresh (mem_append_left _ h)] at hf
  have hstatements : f.specification.statements = prologue f.index vertex cursor ++ body := by
    rw [hf]
    rfl
  refine ⟨vertex, cursor, starts, body, ?_, hrewrites, hcounts, by omega, hstatements⟩
  have hloops : loopCount f.specification.statements = loopCount body := by
    rw [hstatements, loopCount_append, prologue]
    exact Nat.zero_add _
  have hcounted : countedLoops f.specification.statements = countedLoops body := by
    rw [hstatements, countedLoops_append, prologue]
    exact Nat.zero_add _
  exact {
    isShader := by rw [hf]
    outputs := by rw [hf]
    repeats := by rw [hf]
    inputs := by rw [hf]
    locals := by rw [hf]
    nodup := hnodup
    fresh := hfresh
    loops := by rw [hloops, hcounted, hcounts.loops]
    rounds := by rw [hcounted]; exact hcounts.rounds }

section Extends

variable (hext : f.Extends s vertex cursor starts)
include hext

/-- What was declared is declared as before. -/
theorem declaredType?_of_extends {x : String} {t : ValueType} (h : s.declaredType? x = some t) :
    f.specification.declaredType? x = some t := by
  have hne : x ≠ f.index := by
    rintro rfl
    exact hext.fresh _ mem_cons_self (mem_declared_of_declaredType? h)
  unfold declaredType? at h ⊢
  rw [hext.inputs, hext.locals, get?_append, get?_append]
  cases hinput : s.inputs.get? x with
  | some i =>
    rw [hinput] at h
    exact h
  | none =>
    rw [hinput] at h
    have hlocal : s.locals.get? x = some t := h
    have hindex : Dictionary.get? [(f.index, (⟨.float, some (.scalar 0)⟩ : Input))] x = none := by
      rw [get?_cons, if_neg hne]
      rfl
    rw [hindex, hlocal]
    rfl

theorem declaredType?_index : f.specification.declaredType? f.index = some .float := by
  have hfresh := hext.fresh f.index mem_cons_self
  have hinput : s.inputs.get? f.index = none :=
    (not_mem_keys_iff _ _).mp fun h => hfresh (mem_append_left _ h)
  unfold declaredType?
  rw [hext.inputs, get?_append, hinput, get?_cons, if_pos rfl]
  rfl

theorem declaredType?_new {x : String} (hx : x ∈ vertex :: cursor :: starts) :
    f.specification.declaredType? x = some .int := by
  have hfresh := hext.fresh x (mem_cons_of_mem _ hx)
  have hne : x ≠ f.index := fun h => (nodup_cons.mp hext.nodup).1 (h ▸ hx)
  have hinput : s.inputs.get? x = none :=
    (not_mem_keys_iff _ _).mp fun h => hfresh (mem_append_left _ h)
  have hlocal : s.locals.get? x = none :=
    (not_mem_keys_iff _ _).mp fun h => hfresh (mem_append_right _ h)
  unfold declaredType?
  rw [hext.inputs, hext.locals, get?_append, get?_append, hinput, hlocal,
    get?_cons, if_neg hne, get?_map_const hx]
  rfl

theorem disjoint_of_extends (h : ∀ x ∈ s.inputs.keys, x ∉ s.locals.keys) :
    ∀ x ∈ f.specification.inputs.keys, x ∉ f.specification.locals.keys := by
  have hlocals : f.specification.locals.keys = s.locals.keys ++ (vertex :: cursor :: starts) := by
    rw [hext.locals, Dictionary.keys, map_append, map_map]
    simp [Dictionary.keys, Function.comp_def]
  have hinputs : f.specification.inputs.keys = s.inputs.keys ++ [f.index] := by
    rw [hext.inputs, Dictionary.keys, map_append]
    rfl
  rw [hlocals, hinputs, forall_mem_append, forall_mem_singleton]
  simp only [mem_append, not_or]
  refine ⟨fun x hx => ⟨h x hx, fun hnew => ?_⟩, fun hold => ?_, (nodup_cons.mp hext.nodup).1⟩
  · exact hext.fresh x (mem_cons_of_mem _ hnew) (mem_append_left _ hx)
  · exact hext.fresh _ mem_cons_self (mem_append_right _ hold)

end Extends

section Flattened

variable {body : List Stmt} (hext : f.Extends s vertex cursor starts)
  (hbody : Rewrites { vertex, cursor } starts s.statements body)
  (hstatements : f.specification.statements = prologue f.index vertex cursor ++ body)
include hext hbody hstatements

theorem undeclared_of_rewrites (h : s.undeclared = []) : f.specification.undeclared = [] := by
  have hvertex := declaredType?_new hext mem_cons_self
  have hcursor := declaredType?_new hext (mem_cons_of_mem _ mem_cons_self)
  have hindex := declaredType?_index hext
  refine undeclared_eq_nil fun m hm => ?_
  rw [hstatements, mentionsAll_append] at hm
  rcases mem_append.mp hm with hm | hm
  · have hmentions : mentionsAll (prologue f.index vertex cursor) =
        [(vertex, .int), (f.index, .float), (cursor, .int)] := rfl
    rw [hmentions] at hm
    simp only [mem_cons, not_mem_nil, or_false] at hm
    rcases hm with rfl | rfl | rfl
    · exact hvertex
    · exact hindex
    · exact hcursor
  · rcases hbody.mentions m hm with hm | ⟨htype, hname⟩
    · exact declaredType?_of_extends hext (declaredType?_of_undeclared_nil h m hm)
    · rw [htype]
      exact declaredType?_new hext hname

omit hext in
/-- New expressions are well typed. -/
theorem forall_exprs_of_rewrites {P : Expr → Prop} (h : ∀ e ∈ exprsAll s.statements, P e)
    (hnew : ∀ e : Expr, e.WellTyped → P e) :
    ∀ e ∈ exprsAll f.specification.statements, P e := by
  have hcatalog : ∃ i ∈ Catalog.find? (Intrinsic.signature "int" [.float] .int),
      i.params = [.float] ∧ i.returns = .int := by decide +kernel
  have hindex : (Expr.intrinsic "int" [.var .float f.index] .int).WellTyped :=
    ⟨⟨trivial, trivial⟩, hcatalog⟩
  have hzero : (Expr.int 0).WellTyped := rfl
  have hprologue : exprsAll (prologue f.index vertex cursor) =
      [.intrinsic "int" [.var .float f.index] .int, .int 0] := rfl
  rw [hstatements, exprsAll_append, hprologue, forall_mem_append, forall_mem_cons,
    forall_mem_singleton]
  refine ⟨⟨hnew _ hindex, hnew _ hzero⟩, fun e he => ?_⟩
  exact (hbody.exprs e he).elim (h e) (hnew e)

theorem wellFormed_of_rewrites (h : s.WellFormed) : f.specification.WellFormed where
  declared := undeclared_of_rewrites hext hbody hstatements h.declared
  disjoint := disjoint_of_extends hext h.disjoint
  calls := forall_exprs_of_rewrites hbody hstatements h.calls
    fun _ => Expr.registered_of_wellTyped
  tests := by
    have hprologue : testsAll (prologue f.index vertex cursor) = [] := rfl
    rw [hstatements, testsAll_append, hprologue, nil_append]
    exact fun e he => (hbody.tests e he).elim (h.tests e) id

theorem wellTyped_of_rewrites (h : s.WellTyped) : f.specification.WellTyped where
  declared := undeclared_of_rewrites hext hbody hstatements h.declared
  exprs := forall_exprs_of_rewrites hbody hstatements h.exprs fun _ he => he
  defaults := by
    intro x input v hinput hv
    rw [hext.inputs, get?_append] at hinput
    cases hold : s.inputs.get? x with
    | some i =>
      rw [hold] at hinput
      cases hinput
      exact h.defaults x input v hold hv
    | none =>
      rw [hold, get?_cons] at hinput
      split at hinput
      · cases hinput
        cases hv
        rfl
      · cases hinput
  emitted := by
    have hprologue : emitsAll (prologue f.index vertex cursor) = [] := rfl
    rw [hstatements, emitsAll_append, hprologue, nil_append, hbody.emits, hext.outputs]
    exact h.emitted

end Flattened

/-- A specification that can be flattened can be flattened again, as no count has grown. -/
theorem flatten_flatten (h : s.flatten = .ok f) : ∃ g, f.specification.flatten = .ok g := by
  obtain ⟨vertex, cursor, starts, body, -, -, hcounts, hle, hstatements⟩ := flatten_extends h
  have hslots := hcounts.slots
  refine flatten_of_countFits ?_ ?_
  · rw [hstatements, slotsAll_append, prologue]
    simp only [slotsAll, slots]
    omega
  · rw [hstatements, partsAll_append, forall_mem_append]
    refine ⟨?_, hcounts.fits⟩
    simp [prologue, partsAll, parts, CountFits]

/-- The specification that is flattened so many times. -/
def flattenTimes : Nat → Specification → Except FlattenError Specification
  | 0, s => .ok s
  | n + 1, s => do
    let f ← s.flatten
    f.specification.flattenTimes n

/-- The flattened form of a well-formed specification is well formed, and well typed if that was. It
has the input for the index and the variables that flattening needs in addition, and it can be
flattened any number of times. -/
theorem wellFormed_flatten (hs : s.WellFormed) (h : s.flatten = .ok f) :
    f.specification.WellFormed ∧ (s.WellTyped → f.specification.WellTyped) ∧
      (∃ vertex cursor starts, f.Extends s vertex cursor starts) ∧
      ∀ n, ∃ t, f.specification.flattenTimes n = .ok t ∧ t.WellFormed := by
  have hkeeps : ∀ {s : Specification} {f : Flattened}, s.flatten = .ok f → s.WellFormed →
      f.specification.WellFormed := by
    intro s f h hs
    obtain ⟨_, _, _, _, hext, hbody, -, -, hstatements⟩ := flatten_extends h
    exact wellFormed_of_rewrites hext hbody hstatements hs
  obtain ⟨vertex, cursor, starts, body, hext, hbody, -, -, hstatements⟩ := flatten_extends h
  refine ⟨hkeeps h hs, wellTyped_of_rewrites hext hbody hstatements,
    ⟨vertex, cursor, starts, hext⟩, fun n => ?_⟩
  -- Each time the specification before can be flattened, hence so can the one after it.
  clear hext hbody hstatements
  induction n generalizing s f with
  | zero => exact ⟨_, rfl, hkeeps h hs⟩
  | succ n ih =>
    obtain ⟨g, hg⟩ := flatten_flatten h
    obtain ⟨t, ht, hwell⟩ := ih (hkeeps h hs) hg
    refine ⟨t, ?_, hwell⟩
    rw [flattenTimes, hg]
    exact ht

/-- Loops in each other, with names that flattening would choose. -/
def clashingNames : Specification where
  inputs := [("s3idx", { type := .float, default := some (.scalar 1) })]
  outputs := [("a", .float)]
  locals := [("s3loop", .int), ("s3vidx", .int)]
  statements :=
    [.loop "s3loop" 1 3
      [.condition (.test "<" (.var .int "s3loop") (.int 2))
        [.loop "s3vidx" 0 1 [.emit [("a", .var .float "s3idx")]]]
        [.emit [("a", .var .float "s3idx")]]]]

theorem wellFormed_clashingNames : clashingNames.WellFormed where
  declared := by decide +kernel
  disjoint := by decide
  calls := by
    have htyped : ∀ e ∈ exprsAll clashingNames.statements, e.WellTyped := by decide +kernel
    exact fun e he => Expr.registered_of_wellTyped (htyped e he)
  tests := by decide +kernel

theorem wellFormed_flatten_clashingNames : ∃ f, clashingNames.flatten = .ok f ∧
    f.specification.WellFormed ∧ ∃ t, f.specification.flattenTimes 5 = .ok t ∧ t.WellFormed := by
  obtain ⟨f, hf⟩ : ∃ f, clashingNames.flatten = .ok f := ⟨_, rfl⟩
  obtain ⟨hwell, -, -, htimes⟩ := wellFormed_flatten wellFormed_clashingNames hf
  exact ⟨f, hf, hwell, htimes 5⟩

/-- A loop inside of one that has no round. -/
def idleLoop : Specification where
  inputs := []
  outputs := [("a", .float)]
  locals := [("i", .int), ("j", .int)]
  statements := [.loop "i" 1 0 [.loop "j" 1 3 [.emit [("a", .const .float (.scalar 1))]]]]

/-- Both loops stay as they are, and still there is a variable for the start of one. -/
theorem flatten_idleLoop : idleLoop.WellFormed ∧ ∃ f, idleLoop.flatten = .ok f ∧
    Stmt.loopCount f.specification.statements = Stmt.loopCount idleLoop.statements ∧
    f.specification.locals =
      idleLoop.locals ++ [("s3vidx", .int), ("s3emitidx", .int), ("s3loop", .int)] := by
  have htyped : ∀ e ∈ Stmt.exprsAll idleLoop.statements, e.WellTyped := by decide +kernel
  refine ⟨⟨by decide +kernel, by decide, fun e he => Expr.registered_of_wellTyped (htyped e he),
    by decide⟩, _, rfl, rfl, rfl⟩

end Specification

end DataMarks
