/-
  The names of the parameters of scalings.

  A name is a path: an argument is "a" and its position, and a parameter of a scale is "s" and
  its own name. No digit stands behind the digits of a position, so the path can be read off the
  name (`ScaleArgument.name_append_inj`). Hence all parameters of a scaling have different names
  if those of each scale in it have (`Scaling.nodup_parameters`), and expressions that stand for
  all parameters are all that is looked up (`Scaling.finds_expression`). Scalings that come about
  through the constructors of scales have both properties (`Scaling.Built.names_exact`).
-/
import DataMarks.Proofs.ScaleTypes

namespace DataMarks

open Dictionary List Parameter

variable {δ : Type}

/-! ## Paths -/

/-- The name does not start with a digit. -/
def NoLeadingDigit (x : String) : Prop := ∀ c ∈ x.toList.head?, c.isDigit = false

theorem takeWhile_repr {x : String} (hx : NoLeadingDigit x) (n : Nat) :
    ((Nat.repr n).toList ++ x.toList).takeWhile Char.isDigit = (Nat.repr n).toList := by
  have hall : ∀ d ∈ (Nat.repr n).toList, d.isDigit = true := by
    intro d hd
    rw [Nat.toList_repr] at hd
    exact Nat.isDigit_of_mem_toDigits (by decide) (by decide) hd
  have hnone : x.toList.takeWhile Char.isDigit = [] := by
    unfold NoLeadingDigit at hx
    cases hlist : x.toList with
    | nil => rfl
    | cons c cs =>
      rw [hlist] at hx
      rw [takeWhile_cons, hx c rfl]
      rfl
  rw [takeWhile_append_of_pos hall, hnone, append_nil]

variable {i : Nat}

namespace ScaleArgument

theorem toList_name_append (i : Nat) (x : String) :
    (name i ++ x).toList = 'a' :: ((Nat.repr i).toList ++ x.toList) := by
  rw [name, String.toList_append, String.toList_append]
  rfl

/-- The position of an argument ends where the digits end. -/
theorem name_append_inj {j : Nat} {x y : String} (hx : NoLeadingDigit x) (hy : NoLeadingDigit y)
    (h : name i ++ x = name j ++ y) : i = j ∧ x = y := by
  have hlist := congrArg String.toList h
  rw [toList_name_append, toList_name_append] at hlist
  have hbehind := (List.cons.inj hlist).2
  have hdigits : (Nat.repr i).toList = (Nat.repr j).toList := by
    rw [← takeWhile_repr hx, hbehind, takeWhile_repr hy]
  refine ⟨Name.repr_injective (String.toList_inj.mp hdigits), ?_⟩
  rw [hdigits] at hbehind
  exact String.toList_inj.mp (append_cancel_left hbehind)

theorem noLeadingDigit_name (i : Nat) (x : String) : NoLeadingDigit (name i ++ x) := by
  unfold NoLeadingDigit
  rw [toList_name_append]
  exact fun c hc => by cases hc; rfl

end ScaleArgument

theorem toList_own (x : String) : ("s" ++ x).toList = 's' :: x.toList := by
  rw [String.toList_append]
  rfl

theorem noLeadingDigit_own (x : String) : NoLeadingDigit ("s" ++ x) := by
  unfold NoLeadingDigit
  rw [toList_own]
  exact fun c hc => by cases hc; rfl

theorem own_ne_name (x : String) (i : Nat) (y : String) : "s" ++ x ≠ ScaleArgument.name i ++ y := by
  intro h
  have hlist := congrArg String.toList h
  rw [toList_own, ScaleArgument.toList_name_append] at hlist
  cases hlist

/-! ## Different names -/

theorem map_name_within (owner : String) (ps : List (Parameter δ)) :
    (ps.map (within owner)).map name =
      (ps.map name).map (owner ++ ·) := by
  rw [map_map, map_map]
  rfl

variable {ps : List (Parameter δ)}

theorem nodup_within (h : (ps.map name).Nodup) (owner : String) :
    ((ps.map (within owner)).map name).Nodup := by
  rw [map_name_within]
  exact h.map fun _ _ => (String.append_right_inj owner).mp

/-- How many arguments a scale takes. -/
def Scale.arity : Scale δ → Nat
  | intrinsic f => f.params.length
  | continuous .. | custom .. => 1

variable {args : List (ScaleArgument δ)} {types : List ValueType}

namespace Scaling

mutual

/-- Every scale in a scaling has parameters of different names and as many arguments as it takes. -/
def WellFormed : Scaling δ → Prop
  | apply scale _ _ args => (scale.parameters.map Parameter.name).Nodup ∧
      args.length = scale.arity ∧ ArgsWellFormed args

def ArgsWellFormed : List (ScaleArgument δ) → Prop
  | [] => True
  | .value _ :: args => ArgsWellFormed args
  | .scaling s :: args => s.WellFormed ∧ ArgsWellFormed args

end

mutual

theorem noLeadingDigit_parameters : ∀ {s : Scaling δ} {p : Parameter δ}, p ∈ s.parameters →
    NoLeadingDigit p.name
  | apply scale _ types args, p, hp => by
    rw [parameters] at hp
    rcases mem_append.mp hp with hp | hp
    · obtain ⟨q, -, rfl⟩ := mem_map.mp hp
      exact noLeadingDigit_own q.name
    · obtain ⟨j, x, -, -, hname⟩ := name_argParameters hp
      rw [hname]
      exact ScaleArgument.noLeadingDigit_name j x

/-- The parameters of arguments are called like an argument, and no digit stands behind that. -/
theorem name_argParameters : ∀ {args : List (ScaleArgument δ)} {i : Nat} {types : List ValueType}
    {p : Parameter δ}, p ∈ argParameters i types args →
    ∃ j x, i ≤ j ∧ NoLeadingDigit x ∧ p.name = ScaleArgument.name j ++ x
  | [], i, types, p, hp => by
    rw [argParameters] at hp
    cases hp
  | .value source :: args, i, types, p, hp => by
    rw [argParameters] at hp
    rcases mem_cons.mp hp with rfl | hp
    · exact ⟨i, "", Nat.le_refl i, fun c hc => (by cases hc), (String.append_empty).symm⟩
    · obtain ⟨j, x, hj, hname⟩ := name_argParameters hp
      exact ⟨j, x, Nat.le_of_succ_le hj, hname⟩
  | .scaling s :: args, i, types, p, hp => by
    rw [argParameters] at hp
    rcases mem_append.mp hp with hp | hp
    · obtain ⟨q, hq, rfl⟩ := mem_map.mp hp
      exact ⟨i, q.name, Nat.le_refl i, noLeadingDigit_parameters hq, rfl⟩
    · obtain ⟨j, x, hj, hname⟩ := name_argParameters hp
      exact ⟨j, x, Nat.le_of_succ_le hj, hname⟩

end

/-- What belongs to an argument is called differently from all that belongs to later ones. -/
theorem name_not_mem_later {x : String} (hx : NoLeadingDigit x) :
    ScaleArgument.name i ++ x ∉ (argParameters (i + 1) types args).map Parameter.name := by
  intro hmem
  obtain ⟨p, hp, hname⟩ := mem_map.mp hmem
  obtain ⟨j, y, hj, hy, hp⟩ := name_argParameters hp
  rw [hp] at hname
  have := (ScaleArgument.name_append_inj hy hx hname).1
  omega

mutual

/-- All parameters have different names if those of each scale have. -/
theorem nodup_parameters : ∀ {s : Scaling δ}, s.WellFormed → (s.parameters.map Parameter.name).Nodup
  | apply scale _ types args, h => by
    rw [WellFormed] at h
    rw [parameters, map_append]
    refine (nodup_within h.1 "s").append (nodup_argParameters h.2.2) fun x hown harg => ?_
    rw [map_name_within] at hown
    obtain ⟨own, -, rfl⟩ := mem_map.mp hown
    obtain ⟨p, hp, hname⟩ := mem_map.mp harg
    obtain ⟨j, y, -, -, hp⟩ := name_argParameters hp
    exact own_ne_name own j y (hname.symm.trans hp)

theorem nodup_argParameters : ∀ {args : List (ScaleArgument δ)} {i : Nat} {types : List ValueType},
    ArgsWellFormed args → ((argParameters i types args).map name).Nodup
  | [], i, types, h => by
    rw [argParameters]
    exact nodup_nil
  | .value source :: args, i, types, h => by
    rw [ArgsWellFormed] at h
    rw [argParameters, map_cons, nodup_cons]
    refine ⟨?_, nodup_argParameters h⟩
    rw [← String.append_empty (s := name _)]
    exact name_not_mem_later fun c hc => by cases hc
  | .scaling s :: args, i, types, h => by
    rw [ArgsWellFormed] at h
    rw [argParameters, map_append]
    refine (nodup_within (nodup_parameters h.1) _).append (nodup_argParameters h.2)
      fun x harg hlater => ?_
    rw [map_name_within] at harg
    obtain ⟨own, hown, rfl⟩ := mem_map.mp harg
    obtain ⟨p, hp, rfl⟩ := mem_map.mp hown
    exact name_not_mem_later (noLeadingDigit_parameters hp) hlater

end

end Scaling

/-! ## Expressions for all parameters -/

/-- The outcome is not that a name stands for nothing. -/
def Finds {α : Type} (r : Except BindingError α) : Prop := ∀ x, r ≠ .error (.undefinedAttribute x)

theorem finds_ok {α : Type} (a : α) : Finds (.ok a) := by
  intro x h
  cases h

theorem Finds.bind {α β : Type} {r : Except BindingError α} {f : α → Except BindingError β}
    (h : Finds r) (hf : ∀ a, r = .ok a → Finds (f a)) : Finds (r >>= f) := by
  cases r with
  | error e =>
    intro x hx
    cases hx
    exact h x rfl
  | ok a => exact hf a rfl

theorem Dictionary.finds_find {α : Type} {d : Dictionary α} {k : String} (h : k ∈ d.keys) :
    Finds (d.find k) := by
  obtain ⟨a, ha⟩ := exists_of_mem_keys h
  rw [Dictionary.find, ha]
  exact finds_ok a

namespace Scale

variable {given own : Dictionary Expr} {values : List Expr}

theorem finds_select {owner : String}
    (h : ∀ p ∈ ps.map (within owner), p.name ∈ given.keys) :
    Finds (select given owner ps) := by
  refine Finds.bind ?_ fun es _ => finds_ok _
  induction ps with
  | nil => exact finds_ok _
  | cons p ps ih =>
    obtain ⟨hp, hps⟩ := forall_mem_cons.mp h
    rw [mapM_cons]
    refine Finds.bind ((finds_find hp).bind fun e _ => finds_ok _) fun b _ => ?_
    exact (ih hps).bind fun es _ => finds_ok _

theorem finds_argument (h : i < values.length) : Finds (argument values i) := by
  rw [argument, getElem?_eq_getElem h]
  exact finds_ok _

theorem finds_convert {ts : List ValueType} (h : i + ts.length ≤ values.length) :
    Finds (convert values i ts) := by
  induction ts generalizing i with
  | nil =>
    rw [convert]
    exact finds_ok _
  | cons t ts ih =>
    rw [length_cons] at h
    rw [convert]
    refine (finds_argument (by omega)).bind fun arg _ => ?_
    split
    · exact fun x hx => by cases hx
    · exact (ih (by omega)).bind fun args _ => finds_ok _

/-- A scale looks up its parameters and as many arguments as it takes. -/
theorem finds_expression {scale : Scale δ} (hvalues : values.length = scale.arity)
    (hown : ∀ p ∈ scale.parameters, p.name ∈ own.keys) : Finds (scale.expression own values) := by
  cases scale with
  | continuous interpolation t domain range =>
    have hown : "d0" ∈ own.keys ∧ "d1" ∈ own.keys ∧ "r0" ∈ own.keys ∧ "r1" ∈ own.keys := by
      simpa [parameters] using hown
    have hvalue : 0 < values.length := hvalues ▸ Nat.one_pos
    rw [expression]
    refine (finds_argument hvalue).bind fun value _ => ?_
    refine (finds_find hown.1).bind fun d₀ _ => ?_
    refine (finds_find hown.2.1).bind fun d₁ _ => ?_
    refine (finds_find hown.2.2.1).bind fun r₀ _ => ?_
    exact (finds_find hown.2.2.2).bind fun r₁ _ => finds_ok _
  | intrinsic f =>
    rw [expression]
    refine (finds_convert ?_).bind fun args _ => finds_ok _
    rw [hvalues, Nat.zero_add]
    exact Nat.le_refl _
  | custom body ps =>
    rw [expression]
    refine (finds_argument (hvalues ▸ Nat.one_pos)).bind fun value _ => ?_
    cases Standalone.expr (own.insert "value" value) body with
    | error e => exact fun x hx => by cases hx
    | ok e => exact finds_ok e

end Scale

namespace Scaling

theorem length_argExpressions {given : Dictionary Expr} {values : List Expr}
    (h : argExpressions given i args = .ok values) : values.length = args.length := by
  induction args generalizing i values with
  | nil =>
    rw [argExpressions] at h
    cases h
    rfl
  | cons arg args ih =>
    cases arg with
    | value source =>
      rw [argExpressions] at h
      obtain ⟨e, -, h⟩ := bind_ok.mp h
      obtain ⟨rest, hrest, h⟩ := bind_ok.mp h
      cases h
      rw [length_cons, length_cons, ih hrest]
    | scaling s =>
      rw [argExpressions] at h
      obtain ⟨inner, -, h⟩ := bind_ok.mp h
      obtain ⟨e, -, h⟩ := bind_ok.mp h
      obtain ⟨rest, hrest, h⟩ := bind_ok.mp h
      cases h
      rw [length_cons, length_cons, ih hrest]

mutual

/-- All that a scaling looks up is there if each of its parameters has an expression. -/
theorem finds_expression : ∀ {s : Scaling δ} {given : Dictionary Expr}, s.WellFormed →
    (∀ p ∈ s.parameters, p.name ∈ given.keys) → Finds (s.expression given)
  | apply scale _ types args, given, hs, h => by
    rw [WellFormed] at hs
    rw [parameters] at h
    obtain ⟨hown, hargs⟩ := forall_mem_append.mp h
    rw [expression]
    refine (Scale.finds_select hown).bind fun own hselect => ?_
    refine (finds_argExpressions hs.2.2 hargs).bind fun values hvalues => ?_
    refine Scale.finds_expression ((length_argExpressions hvalues).trans hs.2.1) fun p hp => ?_
    exact (Scale.mem_keys_select hselect).mpr (mem_map_of_mem hp)

theorem finds_argExpressions : ∀ {args : List (ScaleArgument δ)} {given : Dictionary Expr} {i : Nat}
    {types : List ValueType}, ArgsWellFormed args →
    (∀ p ∈ argParameters i types args, p.name ∈ given.keys) → Finds (argExpressions given i args)
  | [], given, i, types, hs, h => by
    rw [argExpressions]
    exact finds_ok _
  | .value source :: args, given, i, types, hs, h => by
    rw [ArgsWellFormed] at hs
    rw [argParameters] at h
    obtain ⟨hvalue, hargs⟩ := forall_mem_cons.mp h
    rw [argExpressions]
    refine (finds_find hvalue).bind fun e _ => ?_
    exact (finds_argExpressions hs hargs).bind fun es _ => finds_ok _
  | .scaling s :: args, given, i, types, hs, h => by
    rw [ArgsWellFormed] at hs
    rw [argParameters] at h
    obtain ⟨hinner, hargs⟩ := forall_mem_append.mp h
    rw [argExpressions]
    refine (Scale.finds_select hinner).bind fun inner hselect => ?_
    refine (finds_expression hs.1 fun p hp => ?_).bind fun e _ => ?_
    · exact (Scale.mem_keys_select hselect).mpr (mem_map_of_mem hp)
    · exact (finds_argExpressions hs.2 hargs).bind fun es _ => finds_ok _

end

end Scaling

/-! ## Construction -/

namespace Overload

/-- Parameters without names and defaults get positional arguments only. -/
theorem length_of_bindFormals {keywords : List (String × Expr)} {positional : List Expr} {fit : Fit}
    (h : bindFormals keywords
      (types.map fun t => { name := none, type := some t, default := none }) positional = some fit) :
    types.length ≤ positional.length := by
  induction types generalizing positional fit with
  | nil => exact Nat.zero_le _
  | cons t types ih =>
    rw [map_cons, bindFormals_cons] at h
    obtain ⟨t', -, h⟩ := Option.bind_eq_some_iff.mp h
    obtain ⟨arg, harg, h⟩ := Option.bind_eq_some_iff.mp h
    obtain ⟨coerced, -, h⟩ := Option.bind_eq_some_iff.mp h
    obtain ⟨rest, hrest, -⟩ := Option.bind_eq_some_iff.mp h
    cases positional with
    | nil => cases harg
    | cons e positional => exact Nat.succ_le_succ (ih hrest)

theorem length_of_bind_intrinsic {f : Intrinsic} {args : Arguments} {fit : Fit}
    (h : bind (.intrinsic f) args = some fit) : args.positional.length ≤ f.params.length ∧
      f.params.length ≤ args.positional.length := by
  obtain ⟨hformals, hused, -⟩ := bind_eq_some_iff.mp h
  rw [Callee.formals, length_map] at hused
  exact ⟨hused, length_of_bindFormals hformals⟩

end Overload

namespace Scaling

variable {s : Scaling δ}

/-- An intrinsic is applied to as many arguments as it has parameters. -/
theorem call_arity {name : String} (h : Scaling.call name args = .ok s) :
    ∃ f : Intrinsic, args.length = f.params.length ∧
      s = apply (.intrinsic f) f.returns (args.map ScaleArgument.type) args := by
  unfold Scaling.call at h
  dsimp only at h
  split at h
  · rename_i f fit hresolve
    cases h
    have hlength := Overload.length_of_bind_intrinsic (Resolver.resolve_ok hresolve).2
    rw [length_map, length_zipIdx, length_map] at hlength
    exact ⟨f, Nat.le_antisymm hlength.1 hlength.2, rfl⟩
  · cases h
  · cases h

theorem argsWellFormed_iff : ArgsWellFormed args ↔ ∀ s, .scaling s ∈ args → s.WellFormed := by
  induction args with
  | nil => simp [ArgsWellFormed]
  | cons arg args ih =>
    cases arg with
    | value source => simp [ArgsWellFormed, ih]
    | scaling s => simp [ArgsWellFormed, ih]

namespace Built

/-- The operators and vectors of two numbers are calls with two arguments. -/
theorem binary {name : String} {lhs rhs : ScaleArgument δ}
    (hlhs : ∀ s, lhs = .scaling s → s.Built) (hrhs : ∀ s, rhs = .scaling s → s.Built)
    (h : Scaling.call name [lhs, rhs] = .ok s) : s.Built := by
  refine .call (fun s' hs' => ?_) h
  rcases mem_cons.mp hs' with hs' | hs'
  · exact hlhs s' hs'.symm
  · exact hrhs s' (mem_singleton.mp hs').symm

theorem wellFormed (h : s.Built) : s.WellFormed := by
  induction h with
  | @continuous interpolation t domain range arg harg ih =>
    rw [Scaling.continuous, WellFormed, argsWellFormed_iff]
    refine ⟨?_, rfl, fun s hs => ih s (mem_singleton.mp hs).symm⟩
    show ["d0", "d1", "r0", "r1"].Nodup
    decide
  | call hargs h ih =>
    obtain ⟨f, harity, rfl⟩ := call_arity h
    rw [WellFormed, argsWellFormed_iff]
    exact ⟨nodup_nil, harity, ih⟩
  | @custom body entries arg s harg h ih =>
    obtain ⟨e₀, -, rfl⟩ := custom_ok h
    rw [WellFormed, argsWellFormed_iff]
    refine ⟨?_, rfl, fun s hs => ih s (mem_singleton.mp hs).symm⟩
    rw [Scale.parameters, map_map]
    exact nodup_keys_ofEntries entries

/-- The parameters of a scaling have different names. Where expressions are given for just these
names, none is looked up in vain, and the scaled value reads the variables of the given
expressions only. -/
theorem names_exact (h : s.Built) :
    (s.parameters.map Parameter.name).Nodup ∧
    ∀ given : Dictionary Expr, (∀ x, x ∈ given.keys ↔ x ∈ s.parameters.map Parameter.name) →
      (∀ x, s.expression given ≠ .error (.undefinedAttribute x)) ∧
      ∀ e, s.expression given = .ok e → e.ReadsOnly fun r => ∃ g ∈ given, r ∈ g.2.reads := by
  refine ⟨nodup_parameters h.wellFormed, fun given hgiven => ⟨?_, fun e he => ?_⟩⟩
  · exact finds_expression h.wellFormed fun p hp => (hgiven p.name).mpr (List.mem_map_of_mem hp)
  · exact expression_readsOnly (fun g hg r hr => ⟨g, hg, hr⟩) he

/-- A logarithm in a sum, which is stretched and then is the first of two coordinates. -/
def Stretched (sum stretched pair : Scaling Unit) : Prop :=
  Scaling.add (.scaling (.continuous .log .float unitDomain (unitRange .float)
    (.value (.number 3)))) (.value (.number 1)) = .ok sum ∧
  Scaling.custom (.binary default .mul (.name default "value") (.name default "k"))
    (Dictionary.ofEntries [("k", .number 2)]) (.scaling sum) = .ok stretched ∧
  Scaling.vector2 (.scaling stretched) (.value (.number 5)) = .ok pair

theorem Stretched.built {sum stretched pair : Scaling Unit}
    (h : Stretched sum stretched pair) : pair.Built := by
  obtain ⟨hsum, hstretched, hpair⟩ := h
  rw [add, operator] at hsum
  refine binary (fun s hs => ?_) (fun s hs => by cases hs) hpair
  cases hs
  refine .custom (fun s hs => ?_) hstretched
  cases hs
  refine binary (fun s hs => ?_) (fun s hs => by cases hs) hsum
  cases hs
  exact .continuous _ _ _ _ fun s hs => by cases hs

theorem names_exact_stretched : ∃ sum stretched pair, Stretched sum stretched pair ∧
    pair.parameters.map Parameter.name =
      ["a0sk", "a0a0a0sd0", "a0a0a0sd1", "a0a0a0sr0", "a0a0a0sr1", "a0a0a0a0", "a0a0a1", "a1"] ∧
    (pair.parameters.map Parameter.name).Nodup ∧
    ∀ x, pair.expression pair.standIns ≠ .error (.undefinedAttribute x) := by
  obtain ⟨sum, stretched, pair, h, hnames⟩ : ∃ sum stretched pair, Stretched sum stretched pair ∧
      pair.parameters.map Parameter.name =
        ["a0sk", "a0a0a0sd0", "a0a0a0sd1", "a0a0a0sr0", "a0a0a0sr1", "a0a0a0a0", "a0a0a1", "a1"] :=
    ⟨_, _, _, ⟨rfl, rfl, rfl⟩, rfl⟩
  obtain ⟨hnodup, hfinds⟩ := names_exact h.built
  refine ⟨sum, stretched, pair, h, hnames, hnodup, (hfinds _ fun x => ?_).1⟩
  rw [standIns, Dictionary.mem_keys_ofEntries, Dictionary.keys, List.map_map]
  rfl

end Built

end Scaling

end DataMarks
