/-
  One more function to call.

  A function that is loaded in addition is one more candidate for calls of its name, and for
  no others. A call that had a meaning keeps it, or now means the new function
  (`Resolver.Adds.resolve`).
-/
import DataMarks.Proofs.BestOverload

namespace DataMarks

open List

namespace Overload

/-- The best of candidates is the best without another of them. -/
theorem Best.without {args : Arguments} {xs ys : List Callee} {c g : Callee} {slots : List Slot}
    (h : Best args (xs ++ g :: ys) c slots) (hne : c ≠ g) : Best args (xs ++ ys) c slots := by
  obtain ⟨before, after, hsplit, hbefore, hafter⟩ := h.split
  refine ⟨h.binds, ?_⟩
  rcases append_eq_append_iff.mp hsplit with ⟨more, rfl, hmore⟩ | ⟨more, rfl, hmore⟩
  · cases more with
    | nil =>
      cases hmore
      exact absurd rfl hne
    | cons d more =>
      cases hmore
      refine ⟨xs ++ more, after, by simp, fun c' hc' => hbefore c' ?_, hafter⟩
      rcases mem_append.mp hc' with hc' | hc'
      · exact mem_append_left _ hc'
      · exact mem_append_right _ (mem_cons_of_mem _ hc')
  · cases more with
    | nil =>
      cases hmore
      exact absurd rfl hne
    | cons d more =>
      cases hmore
      refine ⟨before, more ++ ys, by simp, hbefore, fun c' hc' => hafter c' ?_⟩
      rcases mem_append.mp hc' with hc' | hc'
      · exact mem_append_left _ hc'
      · exact mem_append_right _ (mem_cons_of_mem _ hc')

end Overload

namespace Resolver

/-- The candidates are intrinsics, loaded functions of the name or functions of the library. -/
theorem mem_candidates {r : Resolver} {name : String} {c : Callee} (h : c ∈ r.candidates name) :
    (∃ i, c = .intrinsic i) ∨ (∃ d ∈ r.functions, d.function.name = name ∧ c = .defined d) ∨
      ∃ m ∈ Library.modules, ∃ f ∈ m.functions, c = .defined ⟨some m.name, f⟩ := by
  have hcandidates := r.candidates_spec name
  generalize r.candidates name = cs at h hcandidates
  cases hcandidates with
  | @declared _ _ m _ _ _ =>
    obtain ⟨f, hf, rfl⟩ := mem_map.mp h
    unfold Library.functions at hf
    split at hf
    · rename_i found hfound
      rw [Library.module?] at hfound
      have hname : found.name = m := by simpa using find?_some hfound
      refine .inr (.inr ⟨found, mem_of_find?_eq_some hfound, f, (mem_filter.mp hf).1, ?_⟩)
      rw [hname]
    · cases hf
  | visible _ =>
    rcases mem_append.mp h with h | h
    · obtain ⟨i, -, rfl⟩ := mem_map.mp h
      exact .inl ⟨i, rfl⟩
    · obtain ⟨d, hd, rfl⟩ := mem_map.mp h
      rw [mem_filter, decide_eq_true_eq] at hd
      exact .inr (.inl ⟨d, hd.1, hd.2, rfl⟩)

/-- `r'` has one more function to call, and has maybe entered the source text before any module. -/
structure Adds (g : Definition) (r r' : Resolver) : Prop where
  functions : ∃ before after, r.functions = before ++ after ∧
    r'.functions = before ++ g :: after
  modules : ∃ outer, r'.modules = r.modules ++ outer ∧ ∀ m ∈ outer, m = none

theorem shadowing_append {name : String} {ms outer : List (Option String)}
    (h : ∀ m ∈ outer, m = none) : shadowing name (ms ++ outer) = shadowing name ms := by
  induction ms with
  | nil =>
    induction outer with
    | nil => rfl
    | cons m outer ih =>
      rw [forall_mem_cons] at h
      rw [h.1]
      exact ih h.2
  | cons m ms ih => rw [cons_append, shadowing, shadowing, ih]

namespace Adds

variable {g : Definition} {r r' : Resolver}

theorem enter (h : Adds g r r') (module : Option String) :
    Adds g (r.enter module) (r'.enter module) := by
  obtain ⟨outer, houter, hnone⟩ := h.modules
  exact ⟨h.functions, outer, by rw [Resolver.enter, Resolver.enter, houter]; rfl, hnone⟩

theorem candidates (h : Adds g r r') (name : String) :
    r'.candidates name = r.candidates name ∨ g.function.name = name ∧
      ∃ xs ys, r.candidates name = xs ++ ys ∧ r'.candidates name = xs ++ .defined g :: ys := by
  obtain ⟨before, after, hfunctions, hfunctions'⟩ := h.functions
  obtain ⟨outer, hmodules, hnone⟩ := h.modules
  unfold Resolver.candidates
  rw [hmodules, shadowing_append hnone]
  split
  · rw [hfunctions, hfunctions', filter_append, filter_append, map_append,
      map_append, ← append_assoc, ← append_assoc]
    by_cases hname : g.function.name = name
    · refine .inr ⟨hname, _, _, rfl, ?_⟩
      rw [filter_cons_of_pos (by simpa using hname), map_cons]
    · rw [filter_cons_of_neg (by simpa using hname)]
      exact .inl rfl
  · exact .inl rfl

/-- A call means what it did, or the function that was added. -/
theorem resolve (h : Adds g r r') {name : String} {args : Arguments} {c : Callee} {fit : Fit}
    (hc : r.resolve name args = .ok (c, fit)) :
    r'.resolve name args = .ok (c, fit) ∨
      g.function.name = name ∧ ∃ fit', r'.resolve name args = .ok (.defined g, fit') := by
  rcases h.candidates name with heq | ⟨hname, xs, ys, hxs, hxs'⟩
  · left
    unfold Resolver.resolve at hc ⊢
    rwa [heq]
  · obtain ⟨hmem, hbind⟩ := resolve_ok hc
    rcases r.resolve_cases name args with ⟨-, heq⟩ | ⟨-, heq⟩ | ⟨d, slots, hbest, heq⟩
    · rw [heq] at hc
      cases hc
    · rw [heq] at hc
      cases hc
    · rw [heq] at hc
      cases hc
      rcases r'.resolve_cases name args with ⟨hnil, -⟩ | ⟨⟨-, hall⟩, -⟩ | ⟨d, slots', hbest', heq'⟩
      · rw [hxs'] at hnil
        exact absurd hnil (by simp)
      · refine absurd hbest.binds (hall c ?_ slots)
        rw [hxs] at hmem
        rw [hxs']
        exact mem_append.mpr ((mem_append.mp hmem).imp id (mem_cons_of_mem _))
      · by_cases hd : d = .defined g
        · exact .inr ⟨hname, _, by rw [heq', hd]⟩
        · rw [hxs'] at hbest'
          rw [hxs] at hbest
          obtain ⟨rfl, hfit⟩ := hbest.unique (hbest'.without hd)
          exact .inl (by rw [heq', hfit])

end Adds

end Resolver

end DataMarks
