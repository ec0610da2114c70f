/-
  Overload resolution picks the best candidate.

  A callee binds if each of its parameters can be filled (`Overload.Slot`): from the
  position of the parameter, by its keyword or with its default, and then as it is or through a
  conversion of the catalog. `Overload.bind` finds just these slots
  (`Overload.bind_eq_some_iff_binds`), and of all candidates that bind, resolution takes the
  earliest one of least cost (`Resolver.resolve_best`), which is the sum of the ranks of the
  inserted conversions and then their number.
-/
import DataMarks.Proofs.Overloads
import Mathlib.Algebra.GroupWithZero.Nat
import Mathlib.Data.List.Induction
import Mathlib.Data.Prod.Lex

namespace DataMarks

open List

namespace Overload

/-! ## Filled parameters -/

/-- Where the argument of a parameter comes from: a position of the call, a place among its
keywords, or the default of the parameter. -/
inductive Origin
  | positional (i : Nat)
  | keyword (j : Nat)
  | default
deriving DecidableEq, Repr

def Origin.keyword? : Origin → Option Nat
  | keyword j => some j
  | positional _ | default => none

/-- Where the argument of the parameter at position `i` has to come from. -/
def origin (args : Arguments) (i : Nat) (f : Formal) : Origin :=
  if i < args.positional.length then .positional i
  else
    match f.name.bind fun n => args.keywords.findIdx? fun k => n == k.1 with
    | some j => .keyword j
    | none => .default

/-- The argument that comes from a place, for a parameter of a type. -/
def argumentAt? (args : Arguments) (f : Formal) (t : ValueType) : Origin → Option Expr
  | .positional i => args.positional[i]?
  | .keyword j => args.keywords[j]?.map Prod.snd
  | .default => f.default.map (.const t)

/-- A parameter with the argument given for it and the conversion inserted, if there is one. -/
structure Slot where
  formal : Formal
  origin : Origin
  given : Expr
  conversion : Option Conversion

namespace Slot

/-- The expression that the parameter gets. -/
def arg (s : Slot) : Expr :=
  s.conversion.elim s.given fun c => .call c.target c.internalName [s.given]

def rank (s : Slot) : Nat := s.conversion.elim 0 Conversion.rank

/-- The parameter at position `i` has an argument from where it has to come from, which has the
declared type or is converted to it. -/
structure Filled (args : Arguments) (i : Nat) (s : Slot) : Prop where
  origin : s.origin = Overload.origin args i s.formal
  given : argumentAt? args s.formal s.arg.type s.origin = some s.given
  type : s.formal.type = some s.arg.type
  conversion : ∀ c ∈ s.conversion,
    s.given.type ≠ c.target ∧ Catalog.conversion? s.given.type c.target = some c

end Slot

/-- Slots that fill the parameters of a callee, no fewer than there are positional arguments, and
with as many of them filled by keyword as there are keywords. -/
structure Binds (c : Callee) (args : Arguments) (slots : List Slot) : Prop where
  formals : slots.map Slot.formal = c.formals
  filled : ∀ (i : Nat) (s : Slot), slots[i]? = some s → s.Filled args i
  positional : args.positional.length ≤ slots.length
  keywords : args.keywords.length ≤ (slots.filterMap fun s => s.origin.keyword?).length

/-- What slots amount to. -/
def fitOf (slots : List Slot) : Fit where
  args := slots.map Slot.arg
  rank := (slots.map Slot.rank).sum
  conversions := slots.countP fun s => s.conversion.isSome
  byKeyword := (slots.filterMap fun s => s.origin.keyword?).length

/-! ## Binding fills the parameters -/

theorem lookup_eq_findIdx? {α : Type} (k : String) (l : List (String × α)) :
    l.lookup k = (l.findIdx? fun e => k == e.1).bind fun j => l[j]?.map Prod.snd := by
  induction l with
  | nil => rfl
  | cons e l ih =>
    obtain ⟨k', a⟩ := e
    rw [lookup_cons, findIdx?_cons]
    cases k == k' with
    | true => simp
    | false =>
      rw [if_neg Bool.false_ne_true, Option.bind_map]
      exact ih

/-- The argument that binding takes is the one from where it has to come from. -/
theorem argument?_eq (args : Arguments) (i : Nat) (f : Formal) (t : ValueType) :
    argument? args.keywords f t (args.positional.drop i) =
      (argumentAt? args f t (origin args i f)).map fun e =>
        (e, (origin args i f).keyword?.toList.length) := by
  have hkeyword : keyword? args.keywords f =
      (f.name.bind fun n => args.keywords.findIdx? fun k => n == k.1).bind fun j =>
        args.keywords[j]?.map Prod.snd := by
    unfold keyword?
    cases f.name with
    | none => rfl
    | some n => exact lookup_eq_findIdx? n args.keywords
  unfold argument? origin
  rw [head?_drop, hkeyword]
  by_cases hi : i < args.positional.length
  · rw [if_pos hi, getElem?_eq_getElem hi, argumentAt?, getElem?_eq_getElem hi]
    rfl
  · rw [if_neg hi, getElem?_eq_none (Nat.le_of_not_lt hi)]
    cases hj : f.name.bind fun n => args.keywords.findIdx? fun k => n == k.1 with
    | none =>
      simp only [Option.bind_none, argumentAt?, Option.map_map]
      rfl
    | some j =>
      obtain ⟨n, -, hj⟩ := Option.bind_eq_some_iff.mp hj
      have hlt : j < args.keywords.length := (findIdx?_eq_some_iff_getElem.mp hj).1
      simp [argumentAt?, getElem?_eq_getElem hlt, Origin.keyword?]

namespace Slot

variable {args : Arguments} {i : Nat}

/-- An expression as it is or converted, with the rank of the conversion. -/
theorem exists_conversion {e : Expr} {t : ValueType} {r : Expr × Nat} (h : e.coerce? t = some r)
    (f : Formal) (o : Origin) :
    ∃ conversion, (⟨f, o, e, conversion⟩ : Slot).arg.type = t ∧
      r = ((⟨f, o, e, conversion⟩ : Slot).arg, (⟨f, o, e, conversion⟩ : Slot).rank) ∧
      (conversion = none ↔ e.type = t) ∧
      ∀ c ∈ conversion, e.type ≠ c.target ∧ Catalog.conversion? e.type c.target = some c := by
  unfold Expr.coerce? at h
  split at h
  · rename_i ht
    cases h
    exact ⟨none, ht, rfl, by simp [ht], by simp⟩
  · rename_i ht
    obtain ⟨c, hc, rfl⟩ := Option.map_eq_some_iff.mp h
    obtain ⟨-, -, htarget⟩ := Catalog.find?_conversion hc
    subst htarget
    refine ⟨some c, rfl, rfl, by simp [ht], ?_⟩
    intro c' hc'
    cases hc'
    exact ⟨ht, hc⟩

/-- What binding finds for a parameter fills it. -/
theorem exists_filled {f : Formal} {t : ValueType} {a r : Expr × Nat} (ht : f.type = some t)
    (ha : argument? args.keywords f t (args.positional.drop i) = some a)
    (hr : a.1.coerce? t = some r) :
    ∃ s : Slot, s.formal = f ∧ s.Filled args i ∧ r = (s.arg, s.rank) ∧
      (s.conversion = none ↔ a.1.type = t) ∧ a.2 = s.origin.keyword?.toList.length := by
  rw [argument?_eq] at ha
  obtain ⟨e, he, rfl⟩ := Option.map_eq_some_iff.mp ha
  obtain ⟨conversion, htype, hr, hsame, hconversion⟩ :=
    exists_conversion hr f (Overload.origin args i f)
  refine ⟨⟨f, Overload.origin args i f, e, conversion⟩, rfl, ?_, hr, hsame, rfl⟩
  exact ⟨rfl, by rw [htype]; exact he, by rw [htype]; exact ht, hconversion⟩

/-- Binding finds what fills a parameter. -/
theorem Filled.argument? {s : Slot} (h : s.Filled args i) :
    Overload.argument? args.keywords s.formal s.arg.type (args.positional.drop i) =
      some (s.given, s.origin.keyword?.toList.length) := by
  rw [argument?_eq, ← h.origin, h.given]
  rfl

theorem Filled.coerce? {s : Slot} (h : s.Filled args i) :
    s.given.coerce? s.arg.type = some (s.arg, s.rank) ∧
      (s.conversion = none ↔ s.given.type = s.arg.type) := by
  obtain ⟨f, o, e, conversion⟩ := s
  cases conversion with
  | none => exact ⟨if_pos rfl, by simp [arg]⟩
  | some c =>
    obtain ⟨hne, hc⟩ := h.conversion c rfl
    refine ⟨?_, iff_of_false (by simp) hne⟩
    show e.coerce? c.target = _
    rw [Expr.coerce?, if_neg hne, show Catalog.conversion? e.type c.target = some c from hc]
    rfl

end Slot

theorem fitOf_cons (s : Slot) (slots : List Slot) :
    fitOf (s :: slots) = {
      args := s.arg :: (fitOf slots).args
      rank := s.rank + (fitOf slots).rank
      conversions := (if s.conversion = none then 0 else 1) + (fitOf slots).conversions
      byKeyword := s.origin.keyword?.toList.length + (fitOf slots).byKeyword } := by
  unfold fitOf
  congr 1
  · cases hc : s.conversion with
    | none => simp [hc]
    | some c => simp [hc, Nat.add_comm]
  · cases ho : s.origin.keyword? with
    | none => simp [ho]
    | some j => simp [ho, Nat.add_comm]

/-- The parameters from position `i` on are bound if they can be filled. -/
theorem bindFormals_eq_some_iff {fs : List Formal} {i : Nat} {fit : Fit} :
    bindFormals args.keywords fs (args.positional.drop i) = some fit ↔
      ∃ slots, slots.map Slot.formal = fs ∧
        (∀ k s, slots[k]? = some s → Slot.Filled args (i + k) s) ∧ fit = fitOf slots := by
  induction fs generalizing i fit with
  | nil =>
    constructor
    · intro h
      cases h
      exact ⟨[], rfl, by simp, rfl⟩
    · rintro ⟨slots, hformals, -, rfl⟩
      rw [map_eq_nil_iff] at hformals
      rw [hformals]
      rfl
  | cons f fs ih =>
    rw [bindFormals_cons, tail_drop]
    constructor
    · intro h
      obtain ⟨t, ht, h⟩ := Option.bind_eq_some_iff.mp h
      obtain ⟨a, ha, h⟩ := Option.bind_eq_some_iff.mp h
      obtain ⟨r, hr, h⟩ := Option.bind_eq_some_iff.mp h
      obtain ⟨rest, hrest, h⟩ := Option.bind_eq_some_iff.mp h
      cases h
      obtain ⟨s, rfl, hs, rfl, hsame, hkeyword⟩ := Slot.exists_filled ht ha hr
      obtain ⟨slots, rfl, hslots, rfl⟩ := ih.mp hrest
      refine ⟨s :: slots, rfl, ?_, ?_⟩
      · intro k s' hs'
        cases k with
        | zero =>
          cases hs'
          exact hs
        | succ k =>
          rw [Nat.add_comm k 1, ← Nat.add_assoc]
          exact hslots k s' hs'
      · rw [fitOf_cons]
        simp only [hsame, hkeyword]
    · rintro ⟨slots, hformals, hfilled, rfl⟩
      obtain ⟨s, slots, rfl, rfl, rfl⟩ := map_eq_cons_iff.mp hformals
      have hs : s.Filled args i := hfilled 0 s rfl
      have hrest : bindFormals args.keywords (slots.map Slot.formal)
          (args.positional.drop (i + 1)) = some (fitOf slots) := by
        refine ih.mpr ⟨slots, rfl, fun k s' hs' => ?_, rfl⟩
        rw [Nat.add_assoc, Nat.add_comm 1 k]
        exact hfilled (k + 1) s' hs'
      rw [hs.type, Option.bind_some, hs.argument?, Option.bind_some, hs.coerce?.1,
        Option.bind_some, hrest, Option.bind_some, fitOf_cons]
      simp only [hs.coerce?.2]

/-- A callee binds if its parameters can be filled and that uses as many arguments as there are. -/
theorem bind_eq_some_iff_binds {fit : Fit} :
    bind c args = some fit ↔ ∃ slots, Binds c args slots ∧ fit = fitOf slots := by
  have hstart : bindFormals args.keywords c.formals args.positional = some fit ↔
      ∃ slots, slots.map Slot.formal = c.formals ∧
        (∀ k s, slots[k]? = some s → Slot.Filled args k s) ∧ fit = fitOf slots := by
    simpa only [drop_zero, Nat.zero_add] using @bindFormals_eq_some_iff args c.formals 0 fit
  rw [bind_eq_some_iff, hstart]
  constructor
  · rintro ⟨⟨slots, hformals, hfilled, rfl⟩, hpositional, hkeywords⟩
    rw [← hformals, length_map] at hpositional
    exact ⟨slots, ⟨hformals, hfilled, hpositional, hkeywords⟩, rfl⟩
  · rintro ⟨slots, h, rfl⟩
    refine ⟨⟨slots, h.formals, h.filled, rfl⟩, ?_, h.keywords⟩
    rw [← h.formals, length_map]
    exact h.positional

/-! ## The earliest of the cheapest -/

/-- The sum of the ranks of conversions, and then their number. -/
def cost (slots : List Slot) : ℕ ×ₗ ℕ :=
  toLex ((slots.map Slot.rank).sum, slots.countP fun s => s.conversion.isSome)

theorem better_fitOf_iff : Better (fitOf slots) (fitOf slots') ↔ cost slots < cost slots' := by
  unfold cost
  rw [Prod.Lex.toLex_lt_toLex]
  rfl

/-- A callee binds at less cost than all before it, and at no more than those behind it. -/
structure Best (args : Arguments) (cs : List Callee) (c : Callee) (slots : List Slot) : Prop where
  binds : Binds c args slots
  split : ∃ before after, cs = before ++ c :: after ∧
    (∀ c' ∈ before, ∀ slots', Binds c' args slots' → cost slots < cost slots') ∧
    ∀ c' ∈ after, ∀ slots', Binds c' args slots' → cost slots ≤ cost slots'

variable {args : Arguments} {cs : List Callee} {c c' : Callee} {slots slots' : List Slot}

/-- A callee binds in one way only, as far as fits go. -/
theorem Binds.fitOf_eq (h : Binds c args slots) (h' : Binds c args slots') :
    fitOf slots = fitOf slots' := by
  have hbind := bind_eq_some_iff_binds.mpr ⟨slots, h, rfl⟩
  rw [bind_eq_some_iff_binds.mpr ⟨slots', h', rfl⟩] at hbind
  exact (Option.some.inj hbind).symm

theorem Binds.cost_eq (h : Binds c args slots) (h' : Binds c args slots') :
    cost slots = cost slots' :=
  congrArg (fun fit : Fit => toLex (fit.rank, fit.conversions)) (h.fitOf_eq h')

theorem Best.mem (h : Best args cs c slots) : c ∈ cs := by
  obtain ⟨before, after, rfl, -⟩ := h.split
  exact mem_append_right _ mem_cons_self

/-- Nothing among the callees binds at less cost. -/
theorem Best.le (h : Best args cs c slots) (hc' : c' ∈ cs) (hslots' : Binds c' args slots') :
    cost slots ≤ cost slots' := by
  obtain ⟨before, after, rfl, hbefore, hafter⟩ := h.split
  rcases mem_append.mp hc' with hmem | hmem
  · exact (hbefore c' hmem slots' hslots').le
  · rcases mem_cons.mp hmem with rfl | hmem
    · exact (h.binds.cost_eq hslots').le
    · exact hafter c' hmem slots' hslots'

/-- There is no more than one best callee: of two, the one behind would cost less. -/
theorem Best.unique (h : Best args cs c slots) (h' : Best args cs c' slots') :
    c = c' ∧ fitOf slots = fitOf slots' := by
  obtain ⟨before, after, rfl, hbefore, hafter⟩ := h.split
  obtain ⟨before', after', hsplit, hbefore', hafter'⟩ := h'.split
  rcases append_eq_append_iff.mp hsplit with ⟨more, rfl, hmore⟩ | ⟨more, rfl, hmore⟩
  · cases more with
    | nil =>
      cases hmore
      exact ⟨rfl, h.binds.fitOf_eq h'.binds⟩
    | cons d more =>
      cases hmore
      have hlt := hbefore' c (mem_append_right _ mem_cons_self) slots h.binds
      exact absurd (hafter c' (mem_append_right _ mem_cons_self) slots' h'.binds) hlt.not_ge
  · cases more with
    | nil =>
      cases hmore
      exact ⟨rfl, h.binds.fitOf_eq h'.binds⟩
    | cons d more =>
      cases hmore
      have hlt := hbefore c' (mem_append_right _ mem_cons_self) slots' h'.binds
      exact absurd (hafter' c (mem_append_right _ mem_cons_self) slots h.binds) hlt.not_ge

/-- The better of a callee and the best one before it. -/
def pick (args : Arguments) (best : Option (Callee × Fit)) (c : Callee) : Option (Callee × Fit) :=
  (bind c args).elim best fun fit =>
    best.elim (some (c, fit)) fun b => if Better fit b.2 then some (c, fit) else some b

theorem choose_eq_foldl (args : Arguments) (best : Option (Callee × Fit)) (cs : List Callee) :
    choose args best cs = cs.foldl (pick args) best := by
  induction cs generalizing best with
  | nil => rfl
  | cons c cs ih =>
    have hstep : choose args best (c :: cs) = choose args (pick args best c) cs := by
      conv_lhs => unfold choose
      unfold pick
      cases bind c args with
      | none => rfl
      | some fit => cases best <;> rfl
    rw [hstep, ih, foldl_cons]

/-- The best candidate stays the best before one that is no cheaper. -/
theorem Best.concat (h : Best args cs c slots)
    (hle : ∀ slots', Binds c' args slots' → cost slots ≤ cost slots') :
    Best args (cs ++ [c']) c slots := by
  obtain ⟨before, after, rfl, hbefore, hafter⟩ := h.split
  refine ⟨h.binds, before, after ++ [c'], by simp, hbefore, ?_⟩
  intro d hd slots' hslots'
  rcases mem_append.mp hd with hd | hd
  · exact hafter d hd slots' hslots'
  · rw [mem_singleton.mp hd] at hslots'
    exact hle slots' hslots'

/-- A candidate that is cheaper than all before it is the best. -/
theorem Binds.best_concat (h : Binds c args slots)
    (hlt : ∀ c' ∈ cs, ∀ slots', Binds c' args slots' → cost slots < cost slots') :
    Best args (cs ++ [c]) c slots :=
  ⟨h, cs, [], rfl, hlt, fun _ hd => (not_mem_nil hd).elim⟩

/-- The choice among callees is the best of them, if any of them binds. -/
theorem choose_best (args : Arguments) (cs : List Callee) :
    (choose args none cs = none ∧ ∀ c ∈ cs, ∀ slots, ¬ Binds c args slots) ∨
      ∃ c slots, choose args none cs = some (c, fitOf slots) ∧ Best args cs c slots := by
  induction cs using List.reverseRecOn with
  | nil => exact .inl ⟨rfl, fun c hc => by cases hc⟩
  | append_singleton cs c ih =>
    rw [choose_eq_foldl, foldl_concat, ← choose_eq_foldl, pick]
    cases hc : bind c args with
    | none =>
      have hnone : ∀ slots, ¬ Binds c args slots := by
        intro slots hslots
        rw [bind_eq_some_iff_binds.mpr ⟨slots, hslots, rfl⟩] at hc
        cases hc
      rcases ih with ⟨heq, hall⟩ | ⟨c', slots, heq, hbest⟩
      · refine .inl ⟨heq, fun d hd => ?_⟩
        rcases mem_append.mp hd with hd | hd
        · exact hall d hd
        · rw [mem_singleton.mp hd]
          exact hnone
      · exact .inr ⟨c', slots, heq, hbest.concat fun slots' hslots' => absurd hslots' (hnone slots')⟩
    | some fit =>
      obtain ⟨slots, hslots, rfl⟩ := bind_eq_some_iff_binds.mp hc
      rcases ih with ⟨heq, hall⟩ | ⟨c', slots', heq, hbest⟩
      · rw [heq]
        refine .inr ⟨c, slots, rfl, hslots.best_concat ?_⟩
        intro d hd slots' hslots'
        exact absurd hslots' (hall d hd slots')
      · rw [heq, Option.elim_some, Option.elim_some]
        simp only [better_fitOf_iff]
        by_cases hlt : cost slots < cost slots'
        · rw [if_pos hlt]
          refine .inr ⟨c, slots, rfl, hslots.best_concat ?_⟩
          intro d hd slots'' hslots''
          exact hlt.trans_le (hbest.le hd hslots'')
        · rw [if_neg hlt]
          refine .inr ⟨c', slots', rfl, hbest.concat ?_⟩
          intro slots'' hslots''
          rw [← hslots.cost_eq hslots'']
          exact not_lt.mp hlt

end Overload

/-! ## Resolution -/

namespace Resolver

/-- The overloads of a name: those of the innermost entered module that declares it, or else the
intrinsics of the name in the order of their declaration and then the loaded functions of the name
in the order of loading. -/
inductive Candidates (r : Resolver) (name : String) : List Callee → Prop
  | declared {inner outer : List (Option String)} {m : String}
      (modules : r.modules = inner ++ some m :: outer)
      (here : Library.functions m name ≠ [])
      (inside : ∀ m', some m' ∈ inner → Library.functions m' name = []) :
      Candidates r name ((Library.functions m name).map fun f => .defined ⟨some m, f⟩)
  | visible (nowhere : ∀ m, some m ∈ r.modules → Library.functions m name = []) :
      Candidates r name
        (((Catalog.intrinsics.filter fun i => i.name = name).map .intrinsic) ++
          (r.functions.filter fun d => d.function.name = name).map .defined)

theorem shadowing_cases (name : String) (modules : List (Option String)) :
    (shadowing name modules = [] ∧ ∀ m, some m ∈ modules → Library.functions m name = []) ∨
      ∃ inner m outer, modules = inner ++ some m :: outer ∧ Library.functions m name ≠ [] ∧
        (∀ m', some m' ∈ inner → Library.functions m' name = []) ∧
        shadowing name modules =
          (Library.functions m name).map fun f => .defined ⟨some m, f⟩ := by
  induction modules with
  | nil => exact .inl ⟨rfl, fun m hm => by cases hm⟩
  | cons m modules ih =>
    -- a module that does not declare the name is passed over
    have hpass : members name m = [] → (∀ m', some m' = m → Library.functions m' name = []) →
        (shadowing name (m :: modules) = [] ∧
            ∀ m', some m' ∈ m :: modules → Library.functions m' name = []) ∨
          ∃ inner m₁ outer, m :: modules = inner ++ some m₁ :: outer ∧
            Library.functions m₁ name ≠ [] ∧
            (∀ m', some m' ∈ inner → Library.functions m' name = []) ∧
            shadowing name (m :: modules) =
              (Library.functions m₁ name).map fun f => .defined ⟨some m₁, f⟩ := by
      intro hmembers hm
      rw [shadowing, hmembers]
      rcases ih with ⟨heq, hall⟩ | ⟨inner, m₁, outer, rfl, hhere, hinside, heq⟩
      · refine .inl ⟨heq, fun m' hm' => ?_⟩
        rcases mem_cons.mp hm' with heq' | hm'
        · exact hm m' heq'
        · exact hall m' hm'
      · refine .inr ⟨m :: inner, m₁, outer, rfl, hhere, fun m' hm' => ?_, heq⟩
        rcases mem_cons.mp hm' with heq' | hm'
        · exact hm m' heq'
        · exact hinside m' hm'
    cases m with
    | none => exact hpass rfl (by simp)
    | some m =>
      by_cases hm : Library.functions m name = []
      · exact hpass (by rw [members, hm]; rfl) (by simp [hm])
      · refine .inr ⟨[], m, modules, rfl, hm, by simp, ?_⟩
        rw [shadowing]
        split
        · rename_i hmembers
          exact absurd (map_eq_nil_iff.mp hmembers) hm
        · rfl

theorem candidates_spec (r : Resolver) (name : String) :
    r.Candidates name (r.candidates name) := by
  rw [candidates]
  rcases shadowing_cases name r.modules with ⟨heq, hall⟩ | ⟨inner, m, outer, hmodules, hm, hin, heq⟩
  · rw [heq]
    exact .visible hall
  · rw [heq]
    split
    · rename_i hnil
      exact absurd (map_eq_nil_iff.mp hnil) hm
    · exact .declared hmodules hm hin

/-- There are no candidates, or none that binds, or a best one. -/
theorem resolve_cases (r : Resolver) (name : String) (args : Arguments) :
    (r.candidates name = [] ∧ r.resolve name args = .error .undefined) ∨
      ((r.candidates name ≠ [] ∧ ∀ c ∈ r.candidates name, ∀ slots, ¬ Overload.Binds c args slots) ∧
        r.resolve name args = .error .unresolved) ∨
      ∃ c slots, Overload.Best args (r.candidates name) c slots ∧
        r.resolve name args = .ok (c, Overload.fitOf slots) := by
  rw [resolve]
  split
  · rename_i hnil
    exact .inl ⟨hnil, rfl⟩
  · rename_i hne
    refine .inr ?_
    rcases Overload.choose_best args (r.candidates name) with ⟨heq, hall⟩ | ⟨c, slots, heq, hbest⟩
    · exact .inl ⟨⟨hne, hall⟩, by rw [heq]⟩
    · exact .inr ⟨c, slots, hbest, by rw [heq]⟩

/-- A call is undefined if there are no candidates, and unresolved if none of them binds. Otherwise
it means the earliest candidate of least cost; its parameters get arguments of just their types,
and the rank is the sum over the conversions that are inserted. -/
theorem resolve_best (r : Resolver) (name : String) (args : Arguments) :
    ∃ cs, r.Candidates name cs ∧
      (r.resolve name args = .error .undefined ↔ cs = []) ∧
      (r.resolve name args = .error .unresolved ↔
        cs ≠ [] ∧ ∀ c ∈ cs, ∀ slots, ¬ Overload.Binds c args slots) ∧
      (∀ c fit, r.resolve name args = .ok (c, fit) ↔
        ∃ slots, Overload.Best args cs c slots ∧ fit = Overload.fitOf slots) ∧
      ∀ c fit, r.resolve name args = .ok (c, fit) →
        c.formals.map Formal.type = fit.args.map fun e => some e.type := by
  refine ⟨r.candidates name, r.candidates_spec name, ?_⟩
  simp only [← and_assoc]
  refine ⟨?_, fun c fit h => ?_⟩
  · rcases r.resolve_cases name args with ⟨hnil, heq⟩ | ⟨⟨hne, hall⟩, heq⟩ | ⟨c, slots, hbest, heq⟩
    · rw [heq]
      refine ⟨⟨by simp [hnil], by simp [hnil]⟩, fun c fit => iff_of_false (by simp) ?_⟩
      rintro ⟨slots, hbest, -⟩
      have hmem := hbest.mem
      rw [hnil] at hmem
      cases hmem
    · rw [heq]
      refine ⟨⟨by simp [hne], iff_of_true rfl ⟨hne, hall⟩⟩, fun c fit => iff_of_false (by simp) ?_⟩
      rintro ⟨slots, hbest, -⟩
      exact hall c hbest.mem slots hbest.binds
    · rw [heq]
      refine ⟨⟨?_, iff_of_false (by simp) fun h => h.2 c hbest.mem slots hbest.binds⟩, ?_⟩
      · exact iff_of_false (by simp) (List.ne_nil_of_mem hbest.mem)
      · intro c' fit
        constructor
        · intro h
          cases h
          exact ⟨slots, hbest, rfl⟩
        · rintro ⟨slots', hbest', rfl⟩
          obtain ⟨rfl, hfit⟩ := hbest.unique hbest'
          rw [hfit]
  · exact Overload.types_of_bindFormals (Overload.bind_eq_some_iff.mp (resolve_ok h).2).1

end Resolver

end DataMarks
