/-
  A call loses no argument, where parameters have different names.

  Binding counts the parameters that are filled by keyword and looks no further. If no two
  parameters have one name, different parameters take different keywords, so as many as there
  are keywords take all of them (`Overload.Binds.keywords_perm`), and each argument goes to
  one parameter (`Resolver.resolve_uses`). Two parameters of one name are both filled from
  one keyword, and then the count is right although another keyword is dropped
  (`Resolver.resolve_dropped`): loading a file does not refuse such functions.
-/
import DataMarks.Proofs.BestOverload
import DataMarks.Proofs.Loading
import DataMarks.Proofs.Run
import Mathlib.Data.List.Perm.Subperm

namespace DataMarks

open List

namespace Overload

variable {args : Arguments} {c : Callee} {slots : List Slot} {s : Slot} {i j : Nat}

/-! ## Where arguments go -/

theorem Slot.Filled.positional_iff (h : s.Filled args i) :
    s.origin = .positional j ↔ j = i ∧ i < args.positional.length := by
  rw [h.origin, Overload.origin]
  split
  · simp [*, eq_comm]
  · split <;> simp [*]

/-- A parameter that is filled by keyword is behind the positional arguments, and the keyword is
its name. -/
theorem Slot.Filled.keyword (h : s.Filled args i) (hj : s.origin = .keyword j) :
    args.positional.length ≤ i ∧
      ∃ n, s.formal.name = some n ∧ args.keywords[j]? = some (n, s.given) := by
  have hgiven := h.given
  rw [hj, argumentAt?] at hgiven
  obtain ⟨⟨k, e⟩, hk, rfl⟩ := Option.map_eq_some_iff.mp hgiven
  rw [h.origin, Overload.origin] at hj
  split at hj
  · cases hj
  · rename_i hi
    refine ⟨Nat.le_of_not_lt hi, ?_⟩
    split at hj
    · rename_i j' hfind
      cases hj
      obtain ⟨n, hn, hfind⟩ := Option.bind_eq_some_iff.mp hfind
      obtain ⟨hlt, hname, -⟩ := findIdx?_eq_some_iff_getElem.mp hfind
      rw [getElem?_eq_getElem hlt, Option.some.injEq] at hk
      rw [hk, beq_iff_eq] at hname
      exact ⟨n, hn, by rw [getElem?_eq_getElem hlt, hk, hname]⟩
    · cases hj

/-- No two parameters have one name. -/
def DistinctNames (fs : List Formal) : Prop := (fs.filterMap Formal.name).Nodup

theorem Binds.pairwise_names (h : Binds c args slots) (hnames : DistinctNames c.formals) :
    slots.Pairwise fun a b => ∀ n, a.formal.name = some n → b.formal.name ≠ some n := by
  rw [DistinctNames, ← h.formals, filterMap_map, List.Nodup, pairwise_filterMap] at hnames
  refine hnames.imp fun hab n ha hb => ?_
  exact hab n ha n hb rfl

/-- A parameter is found by its name. -/
theorem Binds.index_eq (h : Binds c args slots) (hnames : DistinctNames c.formals) {i i' : Nat}
    {s s' : Slot} (hs : slots[i]? = some s) (hs' : slots[i']? = some s') {n : String}
    (hn : s.formal.name = some n) (hn' : s'.formal.name = some n) : i = i' := by
  have hpairs := pairwise_iff_getElem.mp (h.pairwise_names hnames)
  obtain ⟨hi, rfl⟩ := List.getElem?_eq_some_iff.mp hs
  obtain ⟨hi', rfl⟩ := List.getElem?_eq_some_iff.mp hs'
  rcases Nat.lt_trichotomy i i' with hlt | heq | hlt
  · exact absurd hn' (hpairs i i' hi hi' hlt n hn)
  · exact heq
  · exact absurd hn (hpairs i' i hi' hi hlt n hn')

/-- An argument fills one parameter only. -/
theorem Binds.origin_inj (h : Binds c args slots) (hnames : DistinctNames c.formals) {i i' : Nat}
    {s s' : Slot} (hs : slots[i]? = some s) (hs' : slots[i']? = some s')
    (heq : s.origin = s'.origin) (hgiven : s.origin ≠ .default) : i = i' := by
  cases ho : s.origin with
  | positional k =>
    have hi := (h.filled i s hs).positional_iff.mp ho
    have hi' := (h.filled i' s' hs').positional_iff.mp (heq ▸ ho)
    exact hi.1.symm.trans hi'.1
  | keyword j =>
    obtain ⟨-, n, hn, hj⟩ := (h.filled i s hs).keyword ho
    obtain ⟨-, n', hn', hj'⟩ := (h.filled i' s' hs').keyword (heq ▸ ho)
    rw [hj, Option.some.injEq, Prod.mk.injEq] at hj'
    exact h.index_eq hnames hs hs' hn (hj'.1 ▸ hn')
  | default => exact absurd ho hgiven

/-! ## Keywords -/

theorem Origin.keyword?_eq_some_iff {o : Origin} : o.keyword? = some j ↔ o = .keyword j := by
  cases o <;> simp [Origin.keyword?]

/-- The keywords that fill parameters are all keywords, each once. -/
theorem Binds.keywords_perm (h : Binds c args slots) (hnames : DistinctNames c.formals) :
    (slots.filterMap fun s => s.origin.keyword?).Perm (List.range args.keywords.length) := by
  have hnodup : (slots.filterMap fun s => s.origin.keyword?).Nodup := by
    rw [List.Nodup, pairwise_filterMap, pairwise_iff_getElem]
    rintro i i' hi hi' hlt j hj _ hj' rfl
    rw [Origin.keyword?_eq_some_iff] at hj hj'
    refine hlt.ne (h.origin_inj hnames (getElem?_eq_getElem hi) (getElem?_eq_getElem hi')
      (hj.trans hj'.symm) ?_)
    simp [hj]
  have hsub : (slots.filterMap fun s => s.origin.keyword?) ⊆ List.range args.keywords.length := by
    intro j hj
    obtain ⟨s, hs, ho⟩ := mem_filterMap.mp hj
    obtain ⟨i, hi⟩ := mem_iff_getElem?.mp hs
    obtain ⟨-, n, -, hj⟩ := (h.filled i s hi).keyword (Origin.keyword?_eq_some_iff.mp ho)
    exact mem_range.mpr (List.getElem?_eq_some_iff.mp hj).1
  refine (hnodup.subperm hsub).perm_of_length_le ?_
  rw [length_range]
  exact h.keywords

/-- Each keyword fills the parameter of its name. -/
theorem Binds.keyword_used (h : Binds c args slots) (hnames : DistinctNames c.formals) {k : String}
    {e : Expr} (hk : args.keywords[j]? = some (k, e)) :
    ∃ (i : Nat) (s : Slot), args.positional.length ≤ i ∧ slots[i]? = some s ∧
      s.origin = .keyword j ∧ s.formal.name = some k ∧ s.given = e := by
  have hj : j ∈ List.range args.keywords.length := mem_range.mpr (List.getElem?_eq_some_iff.mp hk).1
  obtain ⟨s, hs, ho⟩ := mem_filterMap.mp ((h.keywords_perm hnames).mem_iff.mpr hj)
  rw [Origin.keyword?_eq_some_iff] at ho
  obtain ⟨i, hi⟩ := mem_iff_getElem?.mp hs
  obtain ⟨hle, n, hn, hgiven⟩ := (h.filled i s hi).keyword ho
  rw [hk, Option.some.injEq, Prod.mk.injEq] at hgiven
  exact ⟨i, s, hle, hi, ho, hgiven.1 ▸ hn, hgiven.2.symm⟩

theorem Binds.nodup_keywords (h : Binds c args slots) (hnames : DistinctNames c.formals) :
    (args.keywords.map Prod.fst).Nodup := by
  rw [List.Nodup, pairwise_map, pairwise_iff_getElem]
  intro j j' hj hj' hlt heq
  obtain ⟨i, s, -, hi, ho, hn, -⟩ := h.keyword_used hnames (getElem?_eq_getElem hj)
  obtain ⟨i', s', -, hi', ho', hn', -⟩ := h.keyword_used hnames (getElem?_eq_getElem hj')
  obtain rfl : i = i' := h.index_eq hnames hi hi' hn (heq ▸ hn')
  rw [hi] at hi'
  cases hi'
  rw [ho] at ho'
  cases ho'
  exact absurd hlt (lt_irrefl j)

/-- A keyword is the name of a parameter, and not of one with a positional argument. -/
theorem Binds.keyword_names (h : Binds c args slots) (hnames : DistinctNames c.formals) {k : String}
    (hk : k ∈ args.keywords.map Prod.fst) :
    some k ∈ c.formals.map Formal.name ∧
      some k ∉ (c.formals.take args.positional.length).map Formal.name := by
  obtain ⟨⟨k, e⟩, hmem, rfl⟩ := mem_map.mp hk
  obtain ⟨j, hj⟩ := mem_iff_getElem?.mp hmem
  obtain ⟨i, s, hle, hi, -, hn, -⟩ := h.keyword_used hnames hj
  rw [← h.formals]
  refine ⟨?_, fun htake => ?_⟩
  · exact mem_map.mpr ⟨s.formal, mem_map_of_mem (mem_of_getElem? hi), hn⟩
  · rw [← map_take, map_map] at htake
    obtain ⟨s', hs', hn'⟩ := mem_map.mp htake
    obtain ⟨i', hi'⟩ := mem_iff_getElem?.mp hs'
    rw [getElem?_take] at hi'
    split at hi'
    · rename_i hlt
      have heq := h.index_eq hnames hi hi' hn hn'
      omega
    · cases hi'

theorem Binds.positional_used (h : Binds c args slots) {e : Expr}
    (he : args.positional[i]? = some e) :
    ∃ s, slots[i]? = some s ∧ s.origin = .positional i ∧ s.given = e := by
  have hi : i < args.positional.length := (List.getElem?_eq_some_iff.mp he).1
  obtain ⟨s, hs⟩ : ∃ s, slots[i]? = some s := ⟨_, getElem?_eq_getElem (hi.trans_le h.positional)⟩
  have hfilled := h.filled i s hs
  have ho := hfilled.positional_iff.mpr ⟨rfl, hi⟩
  refine ⟨s, hs, ho, ?_⟩
  have hgiven := hfilled.given
  rw [ho, argumentAt?, he] at hgiven
  exact (Option.some.inj hgiven).symm

end Overload

namespace Resolver

theorem distinctNames_of_mem_candidates {r : Resolver} {name : String}
    (hnames : ∀ d ∈ r.functions, d.function.name = name →
      (d.function.params.map Surface.Param.name).Nodup)
    {c : Callee} (hc : c ∈ r.candidates name) : Overload.DistinctNames c.formals := by
  have hdefined : ∀ d : Definition, (d.function.params.map Surface.Param.name).Nodup →
      Overload.DistinctNames (Callee.formals (.defined d)) := by
    intro d hd
    rw [Overload.DistinctNames, Callee.formals, filterMap_map]
    rwa [← filterMap_eq_map] at hd
  have hcandidates := r.candidates_spec name
  generalize r.candidates name = cs at hc hcandidates
  cases hcandidates with
  | declared _ _ _ =>
    obtain ⟨f, hf, rfl⟩ := mem_map.mp hc
    refine hdefined _ ?_
    unfold Library.functions at hf
    split at hf
    · rename_i m hm
      rw [Library.module?] at hm
      exact Library.nodup_params_of_mem (mem_of_find?_eq_some hm) (mem_filter.mp hf).1
    · cases hf
  | visible _ =>
    rcases mem_append.mp hc with hc | hc
    · obtain ⟨f, -, rfl⟩ := mem_map.mp hc
      rw [Overload.DistinctNames, Callee.formals, filterMap_map]
      simp
    · obtain ⟨d, hd, rfl⟩ := mem_map.mp hc
      rw [mem_filter, decide_eq_true_eq] at hd
      exact hdefined d (hnames d hd.1 hd.2)

/-- Where no loaded function of the name has two parameters of one name, a call that is resolved
fills the parameter at its index with each positional argument and a parameter of its name, behind
these, with each keyword; no argument fills two parameters. So there are no more positional arguments
than parameters, no keyword twice, and none that names no parameter or one that is filled already. -/
theorem resolve_uses {r : Resolver} {name : String} {args : Arguments} {c : Callee} {fit : Fit}
    (hnames : ∀ d ∈ r.functions, d.function.name = name →
      (d.function.params.map Surface.Param.name).Nodup)
    (h : r.resolve name args = .ok (c, fit)) :
    ∃ slots, Overload.Binds c args slots ∧ fit = Overload.fitOf slots ∧
      (∀ (i : Nat) (e : Expr), args.positional[i]? = some e →
        ∃ s, slots[i]? = some s ∧ s.origin = .positional i ∧ s.given = e) ∧
      (∀ (j : Nat) (k : String) (e : Expr), args.keywords[j]? = some (k, e) →
        ∃ (i : Nat) (s : Overload.Slot), args.positional.length ≤ i ∧ slots[i]? = some s ∧
          s.origin = .keyword j ∧ s.formal.name = some k ∧ s.given = e) ∧
      (∀ (i i' : Nat) (s s' : Overload.Slot), slots[i]? = some s → slots[i']? = some s' →
        s.origin = s'.origin → s.origin ≠ .default → i = i') ∧
      args.positional.length ≤ c.formals.length ∧ (args.keywords.map Prod.fst).Nodup ∧
      ∀ k ∈ args.keywords.map Prod.fst, some k ∈ c.formals.map Formal.name ∧
        some k ∉ (c.formals.take args.positional.length).map Formal.name := by
  obtain ⟨hc, hbind⟩ := resolve_ok h
  obtain ⟨slots, hslots, rfl⟩ := Overload.bind_eq_some_iff_binds.mp hbind
  have hdistinct := distinctNames_of_mem_candidates hnames hc
  refine ⟨slots, hslots, rfl, fun i e he => hslots.positional_used he,
    fun j k e hk => hslots.keyword_used hdistinct hk,
    fun i i' s s' hs hs' heq hgiven => hslots.origin_inj hdistinct hs hs' heq hgiven,
    ?_, hslots.nodup_keywords hdistinct, fun k hk => hslots.keyword_names hdistinct hk⟩
  exact (Overload.bind_eq_some_iff.mp hbind).2.1

/-- What holds of the functions of a text that is loaded, evaluated from its characters. -/
theorem exists_of_loaded {source : String} {P : Resolver → Prop} [∀ r, Decidable (P r)]
    (h : ((Surface.File.parseChars 2 source.utf8ByteSize source.toList).toOption.any fun file =>
      (Compile.load file {}).result.isOk && decide (P (Compile.load file {}).state.resolver)) = true) :
    ∃ file s code, Surface.File.parse 2 source = .ok file ∧
      Compile.Runs (Compile.load file) {} () s code ∧ P s.resolver := by
  obtain ⟨file, hfile, hload⟩ := (Option.any_eq_true _ _).mp h
  rw [Bool.and_eq_true, decide_eq_true_eq] at hload
  have hparse : Surface.File.parse 2 source = .ok file := by
    rw [Surface.File.parse_eq]
    exact toOption_eq_some_iff.mp hfile
  refine ⟨file, _, (Compile.load file {}).code, hparse, ?_, hload.2⟩
  unfold Compile.Runs
  cases hr : Compile.load file {} with
  | mk result state code =>
    cases result with
    | error e =>
      rw [hr] at hload
      cases hload.1
    | ok u => rfl

/-- A function with defaults. -/
def blending : String := "function blend(a: float, b: float = 2, c: int = 3): float { return a; }"

/-- A call with an argument for the first parameter of `blending` and one for the last. -/
def blendingCall : Arguments :=
  { positional := [.var .float "v"], keywords := [("c", .var .int "w")] }

theorem loaded_blending : ∃ file s code, Surface.File.parse 2 blending = .ok file ∧
    Compile.Runs (Compile.load file) {} () s code ∧
    (∀ d ∈ s.resolver.functions, d.function.name = "blend" →
      (d.function.params.map Surface.Param.name).Nodup) ∧
    (s.resolver.resolve "blend" blendingCall).isOk = true := by
  refine exists_of_loaded (P := fun r => (∀ d ∈ r.functions, d.function.name = "blend" →
    (d.function.params.map Surface.Param.name).Nodup) ∧
    (r.resolve "blend" blendingCall).isOk = true) ?_
  rw [blending, String.toList_ofList]
  decide +kernel

theorem resolve_uses_blending : ∃ file s code c fit slots,
    Surface.File.parse 2 blending = .ok file ∧ Compile.Runs (Compile.load file) {} () s code ∧
    (∀ d ∈ s.resolver.functions, d.function.name = "blend" →
      (d.function.params.map Surface.Param.name).Nodup) ∧
    s.resolver.resolve "blend" blendingCall = .ok (c, fit) ∧ fit = Overload.fitOf slots ∧
    (∃ s, slots[0]? = some s ∧ s.origin = .positional 0 ∧ s.given = .var .float "v") ∧
    ∃ (i : Nat) (s : Overload.Slot), 1 ≤ i ∧ slots[i]? = some s ∧ s.origin = .keyword 0 ∧
      s.formal.name = some "c" ∧ s.given = .var .int "w" := by
  obtain ⟨file, s, code, hparse, hload, hnames, hok⟩ := loaded_blending
  cases hresolve : s.resolver.resolve "blend" blendingCall with
  | error e =>
    rw [hresolve] at hok
    cases hok
  | ok r =>
    obtain ⟨slots, -, hfit, hpositional, hkeywords, -⟩ := resolve_uses hnames hresolve
    exact ⟨file, s, code, r.1, r.2, slots, hparse, hload, hnames, hresolve, hfit,
      hpositional 0 _ rfl, hkeywords 0 "c" _ rfl⟩

/-- A function with two parameters of one name. -/
def doubled : String := "function f(a: float, a: float): float { return a; }"

/-- A call by keywords of which one is the name of no parameter of `doubled`. -/
def doubledCall : Arguments :=
  { positional := [], keywords := [("a", .var .float "v"), ("b", .var .float "w")] }

/-- A file with such a function is loaded, and a call of it is resolved although one keyword names no
parameter: the other keyword fills both. -/
theorem resolve_dropped : ∃ file s code c fit, Surface.File.parse 2 doubled = .ok file ∧
    Compile.Runs (Compile.load file) {} () s code ∧
    s.resolver.resolve "f" doubledCall = .ok (c, fit) ∧
    some "b" ∉ c.formals.map Formal.name ∧
    Expr.readsAll fit.args = [("v", .float), ("v", .float)] := by
  have hloaded : ∃ file s code, Surface.File.parse 2 doubled = .ok file ∧
      Compile.Runs (Compile.load file) {} () s code ∧
      ((s.resolver.resolve "f" doubledCall).toOption.any fun x =>
        decide (some "b" ∉ x.1.formals.map Formal.name ∧
          Expr.readsAll x.2.args = [("v", .float), ("v", .float)])) = true := by
    refine exists_of_loaded (P := fun r => ((r.resolve "f" doubledCall).toOption.any _) = true) ?_
    rw [doubled, String.toList_ofList]
    decide +kernel
  obtain ⟨file, s, code, hparse, hload, hany⟩ := hloaded
  obtain ⟨⟨c, fit⟩, hr, hP⟩ := (Option.any_eq_true _ _).mp hany
  rw [decide_eq_true_eq] at hP
  exact ⟨file, s, code, c, fit, hparse, hload, toOption_eq_some_iff.mp hr, hP⟩

end Resolver

end DataMarks
