/-
  Arguments that are passed in temporaries.

  Where no temporary is in use yet, the arguments of a call go to the first so many of them
  (`Compile.runs_temporaries`). The parameters are forwarded to these (`Passed.forwarding`),
  and a run of the assignments gives each temporary the value of its argument and leaves all
  other variables (`Passed.runAll_code`).
-/
import DataMarks.Proofs.MirroredSteps
import DataMarks.Proofs.Simulation

namespace DataMarks

open Dictionary List Name

theorem Dictionary.get?_map_iff {α β : Type} {as : List α} {key : α → String} {value : α → β}
    (hnodup : (as.map key).Nodup) {x : String} {v : β} :
    get? (as.map fun a => (key a, value a)) x = some v ↔ ∃ a ∈ as, key a = x ∧ value a = v := by
  constructor
  · intro h
    obtain ⟨a, ha, heq⟩ := mem_map.mp (mem_of_get? h)
    cases heq
    exact ⟨a, ha, rfl, rfl⟩
  · rintro ⟨a, ha, rfl, rfl⟩
    refine get?_of_mem ?_ (mem_map_of_mem ha)
    rwa [keys, map_map]

/-- A parameter with its argument, and the number of the temporary that holds it. -/
structure Passed where
  param : Surface.Param
  argument : Expr
  number : Nat

variable {bound : List (Surface.Param × Expr)}

namespace Passed

def temporary (b : Passed) : String := Name.candidate "tmp" b.number

def holder (b : Passed) : Variable := ⟨b.temporary, b.argument.type, b.temporary⟩

/-- Parameters and arguments, numbered from `i` on. -/
def numbered : Nat → List (Surface.Param × Expr) → List Passed
  | _, [] => []
  | i, b :: bound => ⟨b.1, b.2, i⟩ :: numbered (i + 1) bound

def formals (bs : List Passed) : Dictionary String := bs.map fun b => (b.param.name, b.temporary)

def holders (bs : List Passed) : Dictionary Variable := bs.map fun b => (b.temporary, b.holder)

def types (bs : List Passed) : Dictionary ValueType :=
  bs.map fun b => (b.temporary, b.argument.type)

def code (bs : List Passed) : List Stmt := bs.map fun b => .assign b.temporary b.argument

theorem temporary_inj {b b' : Passed} : b.temporary = b'.temporary ↔ b.number = b'.number :=
  (candidate_injective "tmp").eq_iff

theorem mem_numbered {i : Nat} {b : Passed} (h : b ∈ numbered i bound) :
    (b.param, b.argument) ∈ bound ∧ i ≤ b.number ∧ b.number < i + bound.length := by
  induction bound generalizing i with
  | nil => cases h
  | cons a bound ih =>
    rw [length_cons]
    rcases mem_cons.mp h with rfl | h
    · exact ⟨mem_cons_self, by simp, by simp⟩
    · obtain ⟨hmem, hle, hlt⟩ := ih h
      exact ⟨mem_cons_of_mem _ hmem, by omega, by omega⟩

theorem map_param_numbered (i : Nat) (bound : List (Surface.Param × Expr)) :
    (numbered i bound).map (fun b => b.param.name) = bound.map fun b => b.1.name := by
  induction bound generalizing i with
  | nil => rfl
  | cons a bound ih => rw [numbered, map_cons, map_cons, ih]

theorem nodup_temporary_numbered (i : Nat) (bound : List (Surface.Param × Expr)) :
    ((numbered i bound).map temporary).Nodup := by
  induction bound generalizing i with
  | nil => exact nodup_nil
  | cons a bound ih =>
    refine nodup_cons.mpr ⟨fun hmem => ?_, ih (i + 1)⟩
    obtain ⟨b, hb, heq⟩ := mem_map.mp hmem
    have hle := (mem_numbered hb).2.1
    have hnumber : b.number = i := temporary_inj.mp heq
    omega

end Passed

/-! ## Compiled arguments -/

namespace Compile

open Passed

/-- Arguments go to the temporaries that follow. -/
theorem runs_temporaries {i : Nat} {t : Compiler} {f : Frame} {done : Dictionary String}
    (hinner : t.scope.inner = [f]) (hcounts : t.scope.Counts i)
    (hnodup : (done.keys ++ bound.map fun b => b.1.name).Nodup) :
    ∃ scope, Runs (temporaries bound done) t (done ++ formals (numbered i bound))
        { t with scope } (code (numbered i bound)) ∧
      scope = { t.scope with
        inner := [{ f with vars := f.vars ++ holders (numbered i bound) }]
        issued := t.scope.issued ++ types (numbered i bound) } ∧
      scope.Counts (i + bound.length) := by
  induction bound generalizing i t f done with
  | nil =>
    refine ⟨t.scope, ?_, ?_, hcounts⟩
    · rw [numbered, formals, map_nil, append_nil]
      exact runs_pure_iff.mpr ⟨rfl, rfl, rfl⟩
    · simp [numbered, holders, types, ← hinner]
  | cons b bound ih =>
    obtain ⟨p, e⟩ := b
    rw [map_cons] at hnodup
    have hp : p.name ∉ done.keys := fun hmem =>
      (disjoint_of_nodup_append hnodup) hmem mem_cons_self
    -- the new temporary is neither given out nor in the frame
    have hissued : candidate "tmp" i ∉ t.scope.issued.keys := fun hmem =>
      absurd ((hcounts.issued i).mp hmem) (Nat.lt_irrefl i)
    have hvars : candidate "tmp" i ∉ f.vars.keys := by
      intro hmem
      refine absurd (hcounts.visible i ?_) (Nat.lt_irrefl i)
      refine Scope.mem_visible (f := f) ?_ (mem_append_left _ hmem)
      rw [hinner]
      exact mem_cons_of_mem _ mem_cons_self
    have hname := hcounts.temporary_name (t := e.type)
    have hcounts₁ := hcounts.temporary hinner (t := e.type)
    have htemporary : t.scope.temporary e.type =
        ((t.scope.temporary e.type).1, (t.scope.temporary e.type).2) := rfl
    obtain ⟨-, -, -, -, hscope⟩ := Scope.temporary_eq hinner htemporary
    rw [hname, insert_of_not_mem_keys hvars, insert_of_not_mem_keys hissued] at hscope
    have hdone : done.insert p.name (candidate "tmp" i) =
        done ++ [(p.name, candidate "tmp" i)] := insert_of_not_mem_keys hp
    have hnodup₁ : (Dictionary.keys (done ++ [(p.name, candidate "tmp" i)]) ++
        bound.map fun b => b.1.name).Nodup := by
      simpa [Dictionary.keys] using hnodup
    obtain ⟨scope, hruns, hscope', hcounts'⟩ := ih (i := i + 1)
      (t := { t with scope := (t.scope.temporary e.type).2 })
      (by rw [hscope]) hcounts₁ hnodup₁
    refine ⟨scope, ?_, ?_, ?_⟩
    · rw [temporaries, numbered]
      refine runs_bind_iff.mpr ⟨_, _, [], _, runs_temporary_iff.mpr ⟨rfl, rfl, rfl⟩, ?_, rfl⟩
      rw [hname, hdone]
      refine runs_bind_iff.mpr ⟨(), _, _, _, runs_write_iff.mpr ⟨rfl, rfl⟩, ?_, rfl⟩
      simpa [formals, code, Passed.temporary] using hruns
    · rw [hscope', hscope]
      simp [numbered, holders, types, holder, Passed.temporary]
    · rw [length_cons]
      convert hcounts' using 1
      omega

end Compile

variable {env : Env}

namespace Passed

/-! ## Forwarded parameters -/

section Forwarding

variable {bound : List (Surface.Param × Expr)} (hplain : ∀ b ∈ bound, Name.Plain b.1.name)
  (hnodup : (bound.map fun b => b.1.name).Nodup)

include hnodup in
theorem get?_formals_iff {x y : String} : (formals (numbered 0 bound)).get? x = some y ↔
    ∃ b ∈ numbered 0 bound, b.param.name = x ∧ b.temporary = y := by
  refine get?_map_iff ?_
  rwa [map_param_numbered]

/-- Parameters are forwarded to the first temporaries. -/
def forwarding : Forwarding where
  formals := formals (numbered 0 bound)
  count := bound.length
  plain := by
    intro x y h
    obtain ⟨b, hb, rfl, -⟩ := (get?_formals_iff hnodup).mp h
    exact hplain _ (mem_numbered hb).1
  temporary := by
    intro x y h
    obtain ⟨b, hb, -, rfl⟩ := (get?_formals_iff hnodup).mp h
    exact ⟨b.number, by simpa using (mem_numbered hb).2.2, rfl⟩
  injective := by
    intro x x' y h h'
    obtain ⟨b, hb, rfl, rfl⟩ := (get?_formals_iff hnodup).mp h
    obtain ⟨b', hb', rfl, heq⟩ := (get?_formals_iff hnodup).mp h'
    rw [inj_on_of_nodup_map (nodup_temporary_numbered 0 bound) hb' hb heq]

theorem get?_holders_iff {y : String} {v : Variable} :
    (holders (numbered 0 bound)).get? y = some v ↔
      ∃ b ∈ numbered 0 bound, b.temporary = y ∧ b.holder = v :=
  get?_map_iff (nodup_temporary_numbered 0 bound)

end Forwarding

/-! ## Runs -/

/-- Each temporary gets the value of its argument. -/
theorem runAll_code {bs : List Passed} (hnodup : (bs.map temporary).Nodup)
    (heval : ∀ b ∈ bs, ∃ v, b.argument.eval env = .ok v)
    (hreads : ∀ b ∈ bs, ∀ r ∈ b.argument.reads, Name.Plain r.1) :
    ∃ env', Stmt.runAll (code bs) env = .ok (.finished env' []) ∧
      (∀ x, x ∉ bs.map temporary → env'.get? x = env.get? x) ∧
      ∀ b ∈ bs, ∀ v, b.argument.eval env = .ok v → env'.get? b.temporary = some v := by
  induction bs generalizing env with
  | nil => exact ⟨env, rfl, fun _ _ => rfl, fun _ h => absurd h not_mem_nil⟩
  | cons b bs ih =>
    rw [map_cons, nodup_cons] at hnodup
    rw [forall_mem_cons] at heval hreads
    obtain ⟨⟨v, hv⟩, heval⟩ := heval
    -- later arguments read no temporary, so they have the values that they had before
    have hsame : ∀ a ∈ bs, a.argument.eval (Dictionary.insert b.temporary v env) =
        a.argument.eval env := by
      intro a ha
      refine Expr.eval_congr fun r hr => get?_insert_of_ne ?_ v env
      intro heq
      have hplain := hreads.2 a ha r hr
      rw [heq] at hplain
      exact not_plain_candidate b.number hplain
    obtain ⟨env', hrun, hkept, hset⟩ := ih hnodup.2
      (fun a ha => by rw [hsame a ha]; exact heval a ha) hreads.2
    refine ⟨env', ?_, ?_, ?_⟩
    · rw [code, map_cons, Stmt.runAll_cons_assign hv]
      exact hrun
    · intro x hx
      rw [map_cons, mem_cons, not_or] at hx
      rw [hkept x hx.2, get?_insert_of_ne hx.1]
    · rw [forall_mem_cons]
      refine ⟨fun v' hv' => ?_, fun a ha v' hv' => hset a ha v' (by rw [hsame a ha]; exact hv')⟩
      rw [hv] at hv'
      cases hv'
      rw [hkept _ hnodup.1, get?_insert_self]

/-! ## Parameters passed on -/

end Passed

/-- An expression that a parameter's own name is passed as, to a parameter of the same type: a
constant of the name, converted, or else the input. -/
inductive PassedOn (p : Surface.Param) : Expr → Prop
  | constant {c : Constant} {t : ValueType} {e : Expr} {rank : Nat}
      (name : Catalog.constant? p.name = some c) (type : ValueType.ofName? p.type.name = some t)
      (coerced : (Expr.const c.type c.value).coerce? t = some (e, rank)) : PassedOn p e
  | input {t : ValueType} (name : Catalog.constant? p.name = none)
      (type : ValueType.ofName? p.type.name = some t) : PassedOn p (.var t p.name)

namespace PassedOn

variable {p : Surface.Param} {e : Expr}

theorem type (h : PassedOn p e) : ValueType.ofName? p.type.name = some e.type := by
  cases h with
  | constant name type coerced => rw [type, Expr.type_of_coerce? coerced]
  | input name type => exact type

theorem reads (h : PassedOn p e) : ∀ r ∈ e.reads, r.1 = p.name := by
  cases h with
  | constant name type coerced =>
    rw [Expr.reads_of_coerce? coerced, Expr.reads]
    exact forall_mem_nil _
  | input name type =>
    rw [Expr.reads]
    exact forall_mem_singleton.mpr rfl

/-- What is passed on has a value, which is that of the input if there is no constant. -/
theorem eval (h : PassedOn p e) {v : Value} (hv : env.get? p.name = some v) :
    ∃ v', e.eval env = .ok v' ∧ (Catalog.constant? p.name = none → v' = v) := by
  cases h with
  | @constant c t e rank name type coerced =>
    have hconst : (Expr.const c.type c.value).eval env = .ok c.value := by rw [Expr.eval]
    refine ⟨c.value, Expr.eval_of_coerce? coerced hconst, fun hnone => ?_⟩
    rw [name] at hnone
    cases hnone
  | input name type => exact ⟨v, by rw [Expr.eval, hv], fun _ => rfl⟩

end PassedOn

namespace Passed

variable {bound : List (Surface.Param × Expr)} {hplain : ∀ b ∈ bound, Name.Plain b.1.name}
  {hnodup : (bound.map fun b => b.1.name).Nodup}
variable {inputs : Dictionary Input}

/-- Through the frame that forwards the parameters, a name means what it means among the inputs. -/
theorem means {scope : Scope} (h : InputScope scope inputs)
    (hinputs : ∀ x ∈ inputs.keys, Name.Plain x)
    (htypes : ∀ b ∈ bound, (inputs.get? b.1.name).map Input.type = some b.2.type) (x : String) :
    Option.Rel ((forwarding hplain hnodup).Found x) (scope.outermost.vars.get? x)
      (Scope.lookup scope.outermost
        [{ formals := formals (numbered 0 bound) }, { vars := holders (numbered 0 bound) }]
        ((forwarding hplain hnodup).name x)) := by
  cases hget : (formals (numbered 0 bound)).get? x with
  | some y =>
    obtain ⟨b, hb, rfl, rfl⟩ := (get?_formals_iff hnodup).mp hget
    have hunique := Forwarding.unique_of_get? (forwarding hplain hnodup) hget
    have hx := hplain _ (mem_numbered hb).1
    have hholder : (holders (numbered 0 bound)).get? b.temporary = some b.holder :=
      get?_holders_iff.mpr ⟨b, hb, rfl, rfl⟩
    obtain ⟨i, hi, htype⟩ := Option.map_eq_some_iff.mp (htypes _ (mem_numbered hb).1)
    rw [Forwarding.name_plain _ hx, Scope.lookup_formals rfl hget, Scope.lookup_vars hholder,
      h.get?_vars, hi]
    exact .some ⟨htype.symm, hunique.symm, fun _ => rfl⟩
  | none =>
    have hunique := Forwarding.unique_of_none (forwarding hplain hnodup) hget
    by_cases htemporary : Scope.IsTemporary x
    · obtain ⟨i, rfl⟩ := htemporary
      have hinput : ∀ j, scope.outermost.vars.get? (candidate "tmp" j) = none := by
        intro j
        rw [h.get?_vars, (not_mem_keys_iff _ _).mp fun hmem =>
          not_plain_candidate j (hinputs _ hmem)]
        rfl
      have hformal : (formals (numbered 0 bound)).get? (candidate "tmp" (i + bound.length)) =
          none := Forwarding.get?_candidate (forwarding hplain hnodup) _
      have hholder : (holders (numbered 0 bound)).get? (candidate "tmp" (i + bound.length)) =
          none := by
        cases hv : (holders (numbered 0 bound)).get? (candidate "tmp" (i + bound.length)) with
        | none => rfl
        | some v =>
          obtain ⟨b, hb, heq, -⟩ := get?_holders_iff.mp hv
          have hlt := (mem_numbered hb).2.2
          have hnumber : b.number = i + bound.length := candidate_injective _ heq
          omega
      have hname : (forwarding hplain hnodup).name (candidate "tmp" i) =
          candidate "tmp" (i + bound.length) := Forwarding.name_candidate _ i
      rw [hname, Scope.lookup_below rfl hformal, Scope.lookup_below hholder rfl, hinput i]
      show Option.Rel _ none (scope.outermost.vars.get? _)
      rw [hinput]
      exact .none
    · have hname : (forwarding hplain hnodup).name x = x := shift_of_not_temporary htemporary
      have hholder : (holders (numbered 0 bound)).get? x = none := by
        cases hv : (holders (numbered 0 bound)).get? x with
        | none => rfl
        | some v =>
          obtain ⟨b, -, rfl, -⟩ := get?_holders_iff.mp hv
          exact absurd ⟨b.number, rfl⟩ htemporary
      rw [hname, Scope.lookup_below rfl hget, Scope.lookup_below hholder rfl]
      show Option.Rel _ (scope.outermost.vars.get? x) (scope.outermost.vars.get? x)
      rw [h.get?_vars]
      cases inputs.get? x with
      | none => exact .none
      | some i => exact .some ⟨rfl, by rw [hunique, hname], fun _ => rfl⟩

/-- Where inputs are passed on in temporaries, the body that they are passed to starts in a scope
that mirrors the one of the inputs. -/
theorem mirrors {scope scope' : Scope} (h : InputScope scope inputs)
    (hinputs : ∀ x ∈ inputs.keys, Name.Plain x)
    (htypes : ∀ b ∈ bound, (inputs.get? b.1.name).map Input.type = some b.2.type)
    (hinner : scope'.inner = [{ vars := holders (numbered 0 bound) }])
    (houtermost : scope'.outermost = scope.outermost)
    (hissued : scope'.issued = scope.issued ++ types (numbered 0 bound))
    (hcounts : scope'.Counts bound.length) :
    (forwarding hplain hnodup).Mirrors 0 (scope.push [])
      (scope'.push (formals (numbered 0 bound))) := by
  have hkeys : ∀ x, x ∈ scope.issued.keys ↔ x ∈ inputs.keys := by
    intro x
    rw [mem_keys_iff, h.get?_issued, Option.isSome_map, ← mem_keys_iff]
  have hparams : ∀ x ∈ Dictionary.keys (formals (numbered 0 bound)), ∃ b ∈ numbered 0 bound,
      b.param.name = x := by
    intro x hx
    obtain ⟨e, he, rfl⟩ := mem_map.mp hx
    obtain ⟨b, hb, rfl⟩ := mem_map.mp he
    exact ⟨b, hb, rfl⟩
  have htemporary : ∀ x ∈ Dictionary.keys (types (numbered 0 bound)), Scope.IsTemporary x := by
    intro x hx
    obtain ⟨e, he, rfl⟩ := mem_map.mp hx
    obtain ⟨b, hb, rfl⟩ := mem_map.mp he
    exact ⟨b.number, rfl⟩
  refine
    { frames := ?_
      counts := ?_
      issued := ?_
      forwarded := ?_ }
  · show (forwarding hplain hnodup).Stacks scope.outermost scope'.outermost 0
      ({ formals := [] } :: scope.inner) ({ formals := formals (numbered 0 bound) } :: scope'.inner)
    rw [h.inner, hinner, houtermost]
    exact .base (fun _ => .none) rfl rfl (means h hinputs htypes)
  · refine ⟨0, (h.counts hinputs).push (by simp [Dictionary.keys]), ?_⟩
    rw [Nat.zero_add]
    refine hcounts.push fun x hx => ?_
    obtain ⟨b, hb, rfl⟩ := hparams x hx
    exact hplain _ (mem_numbered hb).1
  · intro x hx
    show x ∈ scope.issued.keys ↔ x ∈ scope'.issued.keys
    rw [hissued, Dictionary.keys, Dictionary.keys, map_append, mem_append]
    refine (or_iff_left fun hmem => ?_).symm
    exact hx.not_temporary (htemporary x hmem)
  · intro x hx
    show x ∈ scope.issued.keys
    obtain ⟨b, hb, rfl⟩ := hparams x hx
    have htype := htypes _ (mem_numbered hb).1
    rw [hkeys, mem_keys_iff]
    cases hget : inputs.get? b.param.name with
    | none => rw [hget] at htype; cases htype
    | some i => rfl

variable (hplain hnodup) in
/-- After the assignments, the variables of the body hold what the inputs hold. -/
theorem follows (hpasses : ∀ b ∈ bound, PassedOn b.1 b.2)
    (hheld : ∀ b ∈ bound, ∃ v, env.get? b.1.name = some v)
    (hfree : ∀ i, env.get? (candidate "tmp" i) = none) :
    ∃ env', Stmt.runAll (code (numbered 0 bound)) env = .ok (.finished env' []) ∧
      env.Follows (forwarding hplain hnodup).unique (forwarding hplain hnodup).hidden env' := by
  have heval : ∀ b ∈ numbered 0 bound, ∃ v v', env.get? b.param.name = some v ∧
      b.argument.eval env = .ok v' ∧ (Catalog.constant? b.param.name = none → v' = v) := by
    intro b hb
    obtain ⟨v, hv⟩ := hheld _ (mem_numbered hb).1
    obtain ⟨v', hv', hsame⟩ := (hpasses _ (mem_numbered hb).1).eval hv
    exact ⟨v, v', hv, hv', hsame⟩
  obtain ⟨env', hrun, hkept, hset⟩ := runAll_code (nodup_temporary_numbered 0 bound)
    (fun b hb => by obtain ⟨v, v', -, hv', -⟩ := heval b hb; exact ⟨v', hv'⟩)
    (fun b hb r hr => by
      rw [(hpasses _ (mem_numbered hb).1).reads r hr]
      exact hplain _ (mem_numbered hb).1)
  refine ⟨env', hrun, fun x hx => ?_⟩
  cases hget : (forwarding hplain hnodup).formals.get? x with
  | some y =>
    rw [Forwarding.unique_of_get? _ hget]
    obtain ⟨b, hb, rfl, rfl⟩ := (get?_formals_iff hnodup).mp hget
    obtain ⟨v, v', hv, hv', hsame⟩ := heval b hb
    have hconstant : Catalog.constant? b.param.name = none := by
      cases hc : Catalog.constant? b.param.name with
      | none => rfl
      | some c =>
        refine absurd (mem_filter.mpr ⟨mem_keys_of_get? hget, ?_⟩) hx
        rw [hc]
        rfl
    rw [hset b hb v' hv', hsame hconstant, hv]
  | none =>
    rw [Forwarding.unique_of_none _ hget]
    by_cases htemporary : Scope.IsTemporary x
    · obtain ⟨i, rfl⟩ := htemporary
      rw [Forwarding.name_candidate, hfree i, hkept, hfree]
      intro hmem
      obtain ⟨b, hb, heq⟩ := mem_map.mp hmem
      have hlt := (mem_numbered hb).2.2
      have hnumber : b.number = i + bound.length := candidate_injective _ heq
      omega
    · rw [Forwarding.name, shift_of_not_temporary htemporary, hkept]
      intro hmem
      obtain ⟨b, -, heq⟩ := mem_map.mp hmem
      exact htemporary ⟨b.number, heq.symm⟩

end Passed

end DataMarks
