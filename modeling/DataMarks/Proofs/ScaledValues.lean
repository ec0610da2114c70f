/-
  The expansion of scales keeps what a mark draws.

  An expanded mark first assigns each scaled input, and each input that takes a
  scaled input from a neighbour, its value. Where the names that the expansion makes
  are new, nothing else of the mark changes, so it emits what the mark emits for the
  values of the scales (`Mark.evaluate_prepared`).
-/
import DataMarks.Proofs.AgreeingRuns
import DataMarks.Proofs.MarkCalls
import DataMarks.Proofs.ScalePrologue
import DataMarks.Proofs.ScaleReads
import DataMarks.Proofs.Soundness

namespace DataMarks

open Dictionary List Expansion Specification

variable {δ : Type}

/-! ## Runs -/

variable {given : Dictionary Value} {env : Env}

/-- Assignments of values that read none of the variables that are assigned. -/
theorem Stmt.runAll_assignments {prologue rest : List Stmt} {names : List String}
    {values : Dictionary Value}
    (hassign : ∀ st ∈ prologue, ∃ y e v, st = .assign y e ∧ e.eval given = .ok v ∧
      values.get? y = some v ∧ ∀ r ∈ e.reads, r.1 ∈ names)
    (hnames : ∀ x ∈ names, x ∉ assignsAll prologue)
    (henv : ∀ x ∈ names, env.get? x = given.get? x) :
    ∃ env', runAll (prologue ++ rest) env = runAll rest env' ∧
      ∀ x, env'.get? x = if x ∈ assignsAll prologue then values.get? x else env.get? x := by
  induction prologue generalizing env with
  | nil => exact ⟨env, rfl, fun x => by simp [assignsAll]⟩
  | cons st prologue ih =>
    obtain ⟨⟨y, e, v, rfl, hv, hy, hreads⟩, hrest⟩ := forall_mem_cons.mp hassign
    simp only [assignsAll, assigns, singleton_append, mem_cons, not_or] at hnames
    have hv' : e.eval env = .ok v := by
      rw [Expr.eval_congr fun r hr => henv r.1 (hreads r hr), hv]
    have henv' : ∀ x ∈ names, (env.insert y v).get? x = given.get? x := by
      intro x hx
      rw [get?_insert_of_ne (hnames x hx).1]
      exact henv x hx
    obtain ⟨env', hrun, hget⟩ := ih hrest (fun x hx => (hnames x hx).2) henv'
    refine ⟨env', ?_, fun x => ?_⟩
    · rw [cons_append, runAll_cons_assign hv', hrun]
    · simp only [hget, assignsAll, assigns, singleton_append, mem_cons]
      by_cases hx : x ∈ assignsAll prologue
      · simp [hx]
      · by_cases hxy : x = y
        · simp [hxy, hy]
        · simp [hx, hxy, get?_insert_of_ne hxy]

/-! ## Marks -/

variable {s : Scaling δ} {inputs : Dictionary Input}

namespace Mark

/-- Marks that come about through calls that do not fail. -/
inductive Reached (spec shader : Specification) : Mark δ → Prop
  | new : Reached spec shader (Mark.new spec shader)
  | bind {m m' : Mark δ} {name : String} {source : Source δ} {events : List (Event δ)}
      (hm : Reached spec shader m) (h : m.bind name source = .ok (m', events)) :
      Reached spec shader m'
  | bindScale {m m' : Mark δ} {name : String} {s : Scaling δ} (hm : Reached spec shader m)
      (h : m.bindScale name s = .ok m') : Reached spec shader m'
  | setData {m : Mark δ} (hm : Reached spec shader m) (data : List δ) :
      Reached spec shader (m.setData data)
  | setInstance {m : Mark δ} (hm : Reached spec shader m) (f : δ → Nat → List δ → Instance δ) :
      Reached spec shader (m.setInstance f)
  | prepare {m m' : Mark δ} {events : List (Event δ)} (hm : Reached spec shader m)
      (h : m.prepare = .ok (m', events)) : Reached spec shader m'
  | render {m m' : Mark δ} {events : List (Event δ)} (hm : Reached spec shader m)
      (h : m.render = .ok (m', events)) : Reached spec shader m'

/-- Scaled inputs are inputs of the specification that take nothing from a neighbour. -/
def WellBound (spec : Specification) (m : Mark δ) : Prop :=
  m.specification = spec ∧ ∀ n s, (n, MarkBinding.scaled s) ∈ m.bindings →
    n ∈ spec.inputs.keys ∧ n ∉ m.shifts.keys

variable {m : Mark δ} {spec shader : Specification}

/-- What holds of the bindings of a new mark, and goes on to hold where an input is bound, holds of
every mark that comes about through calls. -/
theorem Reached.keeps {P : Dictionary (MarkBinding δ) → Dictionary Shift → Prop}
    (hnew : P (defaults spec.inputs) (neighbours spec.inputs))
    (hset : ∀ bindings shifts name i b, P bindings shifts → spec.inputs.get? name = some i →
      (∀ s, b = .scaled s → s.returns = i.type) → P (bindings.insert name b) (shifts.erase name))
    (h : m.Reached spec shader) : m.specification = spec ∧ P m.bindings m.shifts := by
  induction h with
  | new => exact ⟨rfl, hnew⟩
  | @bind m m' name source events hm h ih =>
    obtain ⟨i, hi, -, hm'⟩ := bind_ok_iff.mp h
    rw [ih.1] at hi
    have hbound := hset _ _ name i (.plain ⟨i.type, source⟩) ih.2 hi fun s hs => by cases hs
    rw [rebind] at hm'
    split at hm'
    · cases hm'
      exact ⟨ih.1, hbound⟩
    · cases hm'
      exact ⟨ih.1, hbound⟩
  | bindScale hm h ih =>
    obtain ⟨i, hi, htype, rfl⟩ := bindScale_ok_iff.mp h
    rw [ih.1] at hi
    refine ⟨ih.1, hset _ _ _ i _ ih.2 hi fun s hs => ?_⟩
    cases hs
    exact htype
  | setData hm data ih => exact ih
  | setInstance hm f ih => exact ih
  | prepare hm h ih =>
    obtain ⟨live, _, -, rfl, -⟩ := prepare_ok_iff.mp h
    exact ih
  | render hm h ih =>
    obtain ⟨_, hp, -⟩ := render_ok_iff.mp h
    obtain ⟨live, _, -, rfl, -⟩ := prepare_ok_iff.mp hp
    exact ih

theorem scaled_not_mem_defaults {n : String} :
    (n, MarkBinding.scaled s) ∉ Mark.defaults inputs := by
  intro hn
  obtain ⟨⟨k, i⟩, -, h⟩ := mem_filterMap.mp hn
  obtain ⟨v, -, h⟩ := Option.map_eq_some_iff.mp h
  cases h

theorem Reached.wellBound (h : m.Reached spec shader) : m.WellBound spec := by
  refine h.keeps (P := fun bindings shifts => ∀ n s, (n, MarkBinding.scaled s) ∈ bindings →
    n ∈ spec.inputs.keys ∧ n ∉ shifts.keys) (fun n s hn => absurd hn scaled_not_mem_defaults) ?_
  intro bindings shifts name i b hbound hi _ n s hn
  rw [not_mem_keys_iff, get?_erase]
  obtain heq | hn := eq_or_mem_of_mem_insert hn
  · cases heq
    exact ⟨mem_keys_of_get? hi, if_pos rfl⟩
  · obtain ⟨hinput, hfree⟩ := hbound n s hn
    refine ⟨hinput, ?_⟩
    rw [(not_mem_keys_iff _ _).mp hfree, ite_self]

/-- The value that the scaling of `name` has for the neighbour that `suffix` says, where the
parameters have the values `given`, is the value of that neighbour's input. -/
def ScaledTo (given values : Dictionary Value) (s : Scaling δ) (name suffix : String) : Prop :=
  ∃ e v, s.expression (Expansion.arguments name suffix s.parameters) = .ok e ∧
    e.eval given = .ok v ∧ values.get? (name ++ suffix) = some v

/-- Values of the inputs of a mark for values `given` of the inputs of its expanded specification:
scaled ones where scales are expanded, and the given ones elsewhere. -/
structure Unexpanded (m : Mark δ) (given values : Dictionary Value) : Prop where
  scaled : ∀ n s, (n, MarkBinding.scaled s) ∈ m.bindings → ScaledTo given values s n ""
  beside : ∀ n s, (n, MarkBinding.scaled s) ∈ m.bindings → ∀ shift ∈ Shift.suffixes,
    n ++ shift.1 ∈ m.specification.inputs.keys → ScaledTo given values s n shift.1
  others : ∀ x ∈ m.specification.inputs.keys,
    (∀ n s, (n, MarkBinding.scaled s) ∈ m.bindings → x ≠ n ∧ ∀ shift ∈ Shift.suffixes,
      x ≠ n ++ shift.1) → values.get? x = given.get? x

theorem Unexpanded.scaledTo {values : Dictionary Value} (h : m.Unexpanded given values)
    {n suffix : String} (hn : (n, MarkBinding.scaled s) ∈ m.bindings)
    (hsuffix : suffix ∈ Shift.endings) (hinput : n ++ suffix ∈ m.specification.inputs.keys) :
    ScaledTo given values s n suffix := by
  obtain rfl | hsuffix := mem_cons.mp hsuffix
  · exact h.scaled n s hn
  · obtain ⟨shift, hshift, rfl⟩ := mem_map.mp hsuffix
    exact h.beside n s hn shift hshift hinput

end Mark

namespace Specification

theorem bindInputs_of_keys (h : ∀ x ∈ inputs.keys, x ∈ given.keys) :
    ∃ env, bindInputs given inputs = .ok env := by
  cases hbind : bindInputs given inputs with
  | ok env => exact ⟨env, rfl⟩
  | error e =>
    obtain ⟨x, input, -, hx, -, hnone⟩ := bindInputs_error hbind
    exact absurd (h x (mem_map_of_mem (f := Prod.fst) hx)) ((not_mem_keys_iff x given).mpr hnone)

theorem evaluate_of_bindInputs {spec : Specification} (h : bindInputs given spec.inputs = .ok env) :
    spec.evaluate given = (Stmt.runAll spec.statements env).map Outcome.vertices := by
  rw [evaluate, h]
  show (Stmt.runAll spec.statements env >>= fun o => pure o.vertices) = _
  cases Stmt.runAll spec.statements env <;> rfl

end Specification

/-! ## Expanded marks -/

/-- A scaled value reads the variables that stand for parameters, at their types. -/
theorem Expansion.reads_of_arguments {n suffix : String} {value : Expr}
    (h : s.expression (arguments n suffix s.parameters) = .ok value) :
    ∀ r ∈ value.reads, ∃ p ∈ s.parameters, r = (p.copyName n suffix, p.type) := by
  refine Scaling.expression_readsOnly
    (P := fun r => ∃ p ∈ s.parameters, r = (p.copyName n suffix, p.type)) ?_ h
  intro g hg
  obtain ⟨p, hp, rfl⟩ := mem_map.mp (mem_of_mem_ofEntries hg)
  intro r hr
  rw [Expr.reads, mem_singleton] at hr
  exact ⟨p, hp, hr⟩

namespace Mark

variable {m : Mark δ} {spec shader : Specification} {e : Expansion δ}
  {given values : Dictionary Value}

/-- Where generated names are new and neighbours of scaled inputs are not bound themselves, an
expansion assigns all scaled values and leaves the other inputs. -/
theorem WellBound.follows (hm : m.WellBound spec)
    (hnew : ∀ x ∈ m.generated, x ∉ spec.declared ∧ x ∉ e.locals.keys)
    (hshifts : ∀ n s, (n, MarkBinding.scaled s) ∈ m.bindings → ∀ shift ∈ Shift.suffixes,
      n ++ shift.1 ∈ spec.inputs.keys → n ++ shift.1 ∈ m.shifts.keys)
    (hrun : expandAll m.bindings (spec.unexpanded m.bindings m.shifts) = .ok e) :
    Expansion.Follows m m.bindings e ∧ Expansion.Covers m m.bindings e := by
  obtain ⟨rfl, hscaled⟩ := hm
  have hstart : Expansion.Follows m [] (m.specification.unexpanded m.bindings m.shifts) := by
    refine ⟨fun _ hst => (not_mem_nil hst).elim, fun x _ => ?_, fun x hx => .inl hx⟩
    rw [assigned]
    simp [unexpanded, Stmt.assignsAll]
  refine hstart.expandAll (fun x hx => (hnew x hx).1) (fun x hx => (hnew x hx).2)
    (List.Subset.refl _) (fun n s hn => (hscaled n s hn).1) ?_
    (fun _ _ hn => (not_mem_nil hn).elim) hrun (List.Subset.refl _)
  rintro n s hn n₁ s₁ hn₁ shift hshift rfl
  obtain ⟨hinput, hfree⟩ := hscaled _ s hn
  exact hfree (hshifts n₁ s₁ hn₁ shift hshift hinput)

variable {x : String}

/-- Inputs that the prologue does not assign have the given values. -/
theorem Unexpanded.get?_of_not_assigned (hvalues : m.Unexpanded given values)
    (hcovers : Expansion.Covers m m.bindings e) (hx : x ∈ m.specification.inputs.keys)
    (hassigned : x ∉ e.assigned) : values.get? x = given.get? x := by
  refine hvalues.others x hx fun n s hn => ⟨?_, fun shift hshift => ?_⟩
  · rintro rfl
    have hempty : x ++ "" = x := String.append_empty
    exact hassigned (hempty ▸ hcovers x s hn "" mem_cons_self (hempty.symm ▸ hx))
  · rintro rfl
    exact hassigned (hcovers n s hn shift.1 (mem_cons_of_mem _ (mem_map_of_mem hshift)) hx)

section Prologue

variable (hvalues : m.Unexpanded given values) (hfollows : Expansion.Follows m m.bindings e)
include hvalues hfollows

/-- Inputs that the prologue assigns have scaled values. -/
theorem Unexpanded.get?_of_assigned (hassigned : x ∈ e.assigned) :
    x ∈ m.specification.inputs.keys ∧ ∃ v, values.get? x = some v := by
  obtain ⟨n, s, suffix, hn, hsuffix, hinput, rfl⟩ := hfollows.assigned_cases hassigned
  obtain ⟨_, v, -, -, hget⟩ := hvalues.scaledTo hn hsuffix hinput
  exact ⟨hinput, v, hget⟩

/-- The prologue runs, and gives the variables that it assigns their values. -/
theorem Unexpanded.runAll_prologue (henv : ∀ x ∈ e.inputs.keys, env.get? x = given.get? x)
    (rest : List Stmt) :
    ∃ env', Stmt.runAll (e.prologue ++ rest) env = Stmt.runAll rest env' ∧
      ∀ x, env'.get? x = if x ∈ e.assigned then values.get? x else env.get? x := by
  refine Stmt.runAll_assignments ?_ (fun x hx => hfollows.not_mem_assigned hx) henv
  intro st hst
  obtain ⟨n, s, suffix, value, hn, hsuffix, hinput, hvalue, rfl, hargs⟩ := hfollows.prologue st hst
  obtain ⟨e', v, he', hv, hget⟩ := hvalues.scaledTo hn hsuffix hinput
  rw [hvalue] at he'
  cases he'
  refine ⟨_, value, v, rfl, hv, hget, fun r hr => ?_⟩
  obtain ⟨p, hp, hr⟩ := reads_of_arguments hvalue r hr
  rw [hr]
  exact hargs p hp

variable (hcovers : Expansion.Covers m m.bindings e) (hgiven : ∀ x ∈ e.inputs.keys, x ∈ given.keys)
include hcovers hgiven

/-- Every input of the mark has a value. -/
theorem Unexpanded.mem_keys (hx : x ∈ m.specification.inputs.keys) : x ∈ values.keys := by
  by_cases hassigned : x ∈ e.assigned
  · obtain ⟨-, v, hv⟩ := hvalues.get?_of_assigned hfollows hassigned
    exact mem_keys_of_get? hv
  · have hinput := hfollows.declared x (mem_append_left _ hx)
    rw [if_neg hassigned] at hinput
    rw [mem_keys_iff, hvalues.get?_of_not_assigned hcovers hx hassigned, ← mem_keys_iff]
    refine hgiven x ?_
    rwa [mem_keys_iff, hinput, ← mem_keys_iff]

/-- Behind the prologue, the names that the mark declares have the values that they have at the
start of the mark itself. -/
theorem Unexpanded.prologue_agrees :
    ∃ env env' start, bindInputs given e.inputs = .ok env ∧
      Stmt.runAll (e.prologue ++ m.specification.statements) env =
        Stmt.runAll m.specification.statements env' ∧
      bindInputs values m.specification.inputs = .ok start ∧
      Agree m.specification.declared [] env' start := by
  obtain ⟨env, henv⟩ := bindInputs_of_keys hgiven
  obtain ⟨start, hstart⟩ := bindInputs_of_keys
    fun x hx => hvalues.mem_keys hfollows hcovers hgiven (x := x) hx
  have hget := get?_of_bindInputs henv
  have hget' := get?_of_bindInputs hstart
  have hgiven' : ∀ x ∈ e.inputs.keys, env.get? x = given.get? x := by
    intro x hx
    obtain ⟨i, hi⟩ := exists_of_mem_keys hx
    obtain ⟨v, hv⟩ := exists_of_mem_keys (hgiven x hx)
    rw [hget, hi, hv]
    rfl
  obtain ⟨env', hrun, hassign⟩ :=
    hvalues.runAll_prologue hfollows hgiven' m.specification.statements
  refine ⟨env, env', start, henv, hrun, hstart, fun x hx _ => ?_⟩
  rw [hassign, hget']
  by_cases hassigned : x ∈ e.assigned
  · obtain ⟨hinput, v, hv⟩ := hvalues.get?_of_assigned hfollows hassigned
    obtain ⟨i, hi⟩ := exists_of_mem_keys hinput
    rw [if_pos hassigned, hi, hv]
    rfl
  · rw [if_neg hassigned, hget, hfollows.declared x hx, if_neg hassigned]
    cases hi : m.specification.inputs.get? x with
    | none => rfl
    | some i =>
      rw [hvalues.get?_of_not_assigned hcovers (mem_keys_of_get? hi) hassigned]

end Prologue

/-- An expanded mark emits for any values of its inputs what the mark emits for the values of its
scales, or fails in the same way: where the specification declares what it mentions, the names that
the expansion makes are neither declared nor names of variables, and the inputs that take a scaled
input from a neighbour still do so. -/
theorem evaluate_prepared {p : Prepared δ} (hm : m.Reached spec shader)
    (hdeclared : spec.undeclared = [])
    (hnew : ∀ x ∈ m.generated, x ∉ spec.declared ∧ x ∉ p.specification.locals.keys)
    (hshifts : ∀ n s, (n, MarkBinding.scaled s) ∈ m.bindings → ∀ shift ∈ Shift.suffixes,
      n ++ shift.1 ∈ spec.inputs.keys → n ++ shift.1 ∈ m.shifts.keys)
    (hp : m.prepared = .ok p) (hgiven : ∀ x ∈ p.specification.inputs.keys, x ∈ given.keys)
    (hvalues : m.Unexpanded given values) :
    p.specification.evaluate given = spec.evaluate values := by
  have hbound := hm.wellBound
  obtain rfl : m.specification = spec := hbound.1
  obtain ⟨e, hrun, -, rfl⟩ := Specification.prepare_ok_iff.mp hp
  obtain ⟨hfollows, hcovers⟩ := hbound.follows hnew hshifts hrun
  obtain ⟨env, env', start, henv, hprologue, hstart, hagree⟩ :=
    hvalues.prologue_agrees hfollows hcovers hgiven
  have hmentions : ∀ x ∈ Stmt.mentionsAll m.specification.statements,
      x.1 ∈ m.specification.declared := fun x hx =>
    Specification.mem_declared_of_declaredType?
      (Specification.declaredType?_of_undeclared_nil hdeclared x hx)
  calc (m.specification.expanded e).specification.evaluate given
      = (Stmt.runAll (e.prologue ++ m.specification.statements) env).map Outcome.vertices :=
        Specification.evaluate_of_bindInputs henv
    _ = (Stmt.runAll m.specification.statements env').map Outcome.vertices := by rw [hprologue]
    _ = (Stmt.runAll m.specification.statements start).map Outcome.vertices :=
        (Stmt.runAll_alike hmentions hagree).vertices.symm
    _ = m.specification.evaluate values := (Specification.evaluate_of_bindInputs hstart).symm

/-- Lines from each datum's neighbour to the datum. -/
def segments : Specification where
  inputs := [("x", ⟨.float, none⟩), ("x_p", ⟨.float, none⟩), ("size", ⟨.float, some (.scalar 1)⟩)]
  outputs := [("start", .float), ("stop", .float), ("size", .float)]
  locals := []
  statements := [.emit [("start", .var .float "x_p"), ("stop", .var .float "x"),
    ("size", .var .float "size")]]

/-- A scale for the position of data. -/
def position : Scaling Value :=
  .continuous .linear .float Scaling.unitDomain (Scaling.unitRange .float)
    (.value (.function fun v _ => v))

def scaledSegments : Mark Value :=
  { (Mark.new segments segments).setBinding "x" (.scaled position) with live := none }

def segmentValues : Dictionary Value :=
  [("xsd0", .scalar 0), ("xsd1", .scalar 1), ("xsr0", .scalar 0), ("xsr1", .scalar 1),
    ("xa0", .scalar 2), ("xa0_p", .scalar 3), ("size", .scalar 4)]

theorem evaluate_prepared_segments :
    ∃ p values, scaledSegments.Reached segments segments ∧ segments.undeclared = [] ∧
      (∀ x ∈ scaledSegments.generated,
        x ∉ segments.declared ∧ x ∉ p.specification.locals.keys) ∧
      scaledSegments.prepared = .ok p ∧ scaledSegments.Unexpanded segmentValues values ∧
      p.specification.evaluate segmentValues = segments.evaluate values := by
  have hreached : scaledSegments.Reached segments segments :=
    .bindScale .new (bindScale_ok_iff.mpr ⟨_, rfl, rfl, rfl⟩)
  have hscaled : ∀ n s, (n, MarkBinding.scaled s) ∈ scaledSegments.bindings →
      n = "x" ∧ s = position := by
    intro n s hn
    have hn : (n, MarkBinding.scaled s) ∈
        [("size", .plain ⟨.float, .literal (.scalar 1)⟩), ("x", .scaled position)] := hn
    simpa using hn
  obtain ⟨e, v, he, hv⟩ : ∃ e v,
      position.expression (Expansion.arguments "x" "" position.parameters) = .ok e ∧
        e.eval segmentValues = .ok v := ⟨_, _, rfl, rfl⟩
  obtain ⟨e', v', he', hv'⟩ : ∃ e v,
      position.expression (Expansion.arguments "x" "_p" position.parameters) = .ok e ∧
        e.eval segmentValues = .ok v := ⟨_, _, rfl, rfl⟩
  have hvalues : scaledSegments.Unexpanded segmentValues
      [("x", v), ("x_p", v'), ("size", .scalar 4)] := by
    refine ⟨fun n s hn => ?_, fun n s hn shift hshift hinput => ?_, fun x hx hfree => ?_⟩
    · obtain ⟨rfl, rfl⟩ := hscaled n s hn
      exact ⟨e, v, he, hv, rfl⟩
    · obtain ⟨rfl, rfl⟩ := hscaled n s hn
      have hshift : shift.1 = "_p" := by
        revert shift
        decide
      rw [hshift]
      exact ⟨e', v', he', hv', rfl⟩
    · have hsize : ∀ x ∈ segments.inputs.keys,
          (x ≠ "x" ∧ ∀ shift ∈ Shift.suffixes, x ≠ "x" ++ shift.1) → x = "size" := by decide
      rw [hsize x hx (hfree "x" position (.tail _ (.head _)))]
      rfl
  have hshifts : ∀ n s, (n, MarkBinding.scaled s) ∈ scaledSegments.bindings →
      ∀ shift ∈ Shift.suffixes, n ++ shift.1 ∈ segments.inputs.keys →
        n ++ shift.1 ∈ scaledSegments.shifts.keys := by
    intro n s hn
    rw [(hscaled n s hn).1]
    decide
  refine ⟨_, _, hreached, by decide, ?_, rfl, hvalues, ?_⟩
  · decide
  · exact evaluate_prepared hreached (by decide) (by decide) hshifts rfl (by decide) hvalues

end Mark

end DataMarks
