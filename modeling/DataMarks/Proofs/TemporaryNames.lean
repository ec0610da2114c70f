/-
  Which names come out for variables and temporaries.

  A fresh name is the first candidate that is free (`Name.exists_fresh`), so it depends on
  nothing but the candidates that are used. Where all variables of the source have plain names,
  temporaries are numbered through: the ones in use are the first so many (`Scope.Counts`).

  A `Forwarding` sends some plain names to the first so many temporaries, and moves all other
  temporaries behind these. No two names get the same one (`Forwarding.unique_injective`).
-/
import DataMarks.Proofs.SourceNames

namespace DataMarks

open Dictionary List Name

variable {x : String}

namespace Name

/-! ## Fresh names -/

theorem fresh_eq_candidate {base : String} {used : List String} {n : Nat}
    (hbefore : ∀ k, k < n → candidate base k ∈ used) (hn : candidate base n ∉ used) :
    fresh base used = candidate base n := by
  obtain ⟨m, hm, hfree, hused⟩ := exists_fresh base used
  rw [hm]
  rcases Nat.lt_trichotomy m n with hlt | rfl | hlt
  · exact absurd (hbefore m hlt) hfree
  · rfl
  · exact absurd (hused n hlt) hn

/-- Of the used names only the candidates matter. -/
theorem fresh_congr {base : String} {used used' : List String}
    (h : ∀ k, candidate base k ∈ used ↔ candidate base k ∈ used') :
    fresh base used' = fresh base used := by
  obtain ⟨n, hn, hfree, hbefore⟩ := exists_fresh base used
  rw [hn]
  exact fresh_eq_candidate (fun k hk => (h k).mp (hbefore k hk)) fun hmem => hfree ((h n).mpr hmem)

/-! ## Temporaries further behind -/

open Classical in
/-- The name with so many more temporaries before it, if it is one of a temporary. -/
noncomputable def shift (n : Nat) (x : String) : String :=
  if h : ∃ k, x = candidate "tmp" k then candidate "tmp" (h.choose + n) else x

theorem shift_candidate (n k : Nat) : shift n (candidate "tmp" k) = candidate "tmp" (k + n) := by
  have h : ∃ j, candidate "tmp" k = candidate "tmp" j := ⟨k, rfl⟩
  rw [shift, dif_pos h, ← candidate_injective "tmp" h.choose_spec]

theorem shift_of_not_temporary {n : Nat} (h : ¬ Scope.IsTemporary x) : shift n x = x :=
  dif_neg h

theorem Plain.not_temporary (h : Plain x) : ¬ Scope.IsTemporary x := by
  rintro ⟨n, rfl⟩
  exact not_plain_candidate n h

theorem Plain.shift {x : String} (h : Plain x) (n : Nat) : shift n x = x :=
  shift_of_not_temporary h.not_temporary

theorem shift_injective (n : Nat) : Function.Injective (shift n) := by
  intro x y h
  by_cases hx : Scope.IsTemporary x
  · obtain ⟨i, rfl⟩ := hx
    rw [shift_candidate] at h
    by_cases hy : Scope.IsTemporary y
    · obtain ⟨j, rfl⟩ := hy
      rw [shift_candidate] at h
      obtain rfl : i = j := by have := candidate_injective _ h; omega
      rfl
    · rw [shift_of_not_temporary hy] at h
      exact absurd ⟨_, h.symm⟩ hy
  · rw [shift_of_not_temporary hx] at h
    by_cases hy : Scope.IsTemporary y
    · obtain ⟨j, rfl⟩ := hy
      rw [shift_candidate] at h
      exact absurd ⟨_, h⟩ hx
    · rwa [shift_of_not_temporary hy] at h

theorem shift_zero (x : String) : shift 0 x = x := by
  by_cases hx : Scope.IsTemporary x
  · obtain ⟨k, rfl⟩ := hx
    rw [shift_candidate, Nat.add_zero]
  · exact shift_of_not_temporary hx

end Name

/-- Plain names that stand for the first so many temporaries. -/
structure Forwarding where
  formals : Dictionary String
  count : Nat
  plain : ∀ x y, formals.get? x = some y → Name.Plain x
  temporary : ∀ x y, formals.get? x = some y → ∃ i, i < count ∧ y = Name.candidate "tmp" i
  injective : ∀ x x' y, formals.get? x = some y → formals.get? x' = some y → x = x'

namespace Forwarding

variable (w : Forwarding)

/-- A name of a frame among the forwarded names. -/
noncomputable def name (x : String) : String := Name.shift w.count x

/-- The unique name of a variable among the forwarded names. -/
noncomputable def unique (x : String) : String := (w.formals.get? x).getD (w.name x)

theorem unique_of_get? {y : String} (h : w.formals.get? x = some y) : w.unique x = y := by
  rw [unique, h, Option.getD_some]

theorem unique_of_none (h : w.formals.get? x = none) : w.unique x = w.name x := by
  rw [unique, h, Option.getD_none]

theorem get?_candidate (k : Nat) : w.formals.get? (candidate "tmp" k) = none := by
  cases h : w.formals.get? (candidate "tmp" k) with
  | none => rfl
  | some y => exact absurd (w.plain _ y h) (not_plain_candidate k)

theorem name_candidate (k : Nat) :
    w.name (candidate "tmp" k) = candidate "tmp" (k + w.count) :=
  shift_candidate _ _

theorem unique_candidate (k : Nat) :
    w.unique (candidate "tmp" k) = candidate "tmp" (k + w.count) := by
  rw [w.unique_of_none (w.get?_candidate k), w.name_candidate]

theorem name_plain (h : Name.Plain x) : w.name x = x := h.shift _

theorem name_injective : Function.Injective w.name := shift_injective _

/-- What is sent to one of the first temporaries is no moved name. -/
theorem name_ne {y z : String} (h : w.formals.get? x = some y) : w.name z ≠ y := by
  obtain ⟨i, hi, rfl⟩ := w.temporary x y h
  intro heq
  by_cases hz : Scope.IsTemporary z
  · obtain ⟨k, rfl⟩ := hz
    rw [w.name_candidate] at heq
    have := candidate_injective _ heq
    omega
  · rw [name, shift_of_not_temporary hz] at heq
    exact hz ⟨i, heq⟩

theorem unique_injective : Function.Injective w.unique := by
  intro x y h
  cases hx : w.formals.get? x with
  | some x' =>
    rw [w.unique_of_get? hx] at h
    cases hy : w.formals.get? y with
    | some y' =>
      rw [w.unique_of_get? hy] at h
      exact w.injective x y x' hx (h ▸ hy)
    | none =>
      rw [w.unique_of_none hy] at h
      exact absurd h.symm (w.name_ne hx)
  | none =>
    rw [w.unique_of_none hx] at h
    cases hy : w.formals.get? y with
    | some y' =>
      rw [w.unique_of_get? hy] at h
      exact absurd h (w.name_ne hy)
    | none =>
      rw [w.unique_of_none hy] at h
      exact w.name_injective h

/-- Nothing is forwarded. -/
def nothing : Forwarding where
  formals := []
  count := 0
  plain := fun _ _ h => by cases h
  temporary := fun _ _ h => by cases h
  injective := fun _ _ _ h => by cases h

end Forwarding

/-! ## Temporaries in use -/

namespace Scope

/-- The first so many temporaries are given out, and frames bind none but these. -/
structure Counts (s : Scope) (n : Nat) : Prop where
  issued : ∀ k, Name.candidate "tmp" k ∈ s.issued.keys ↔ k < n
  visible : ∀ k, Name.candidate "tmp" k ∈ s.visible → k < n

/-- A variable that goes into the current frame makes no other name visible. -/
theorem mem_visible_insert {s : Scope} {f : Frame} {below : List Frame} (hs : s.inner = f :: below)
    {v : Variable} {issued : Dictionary ValueType}
    (hx : x ∈ visible { s with inner := { f with vars := f.vars.insert v.name v } :: below, issued }) :
    x = v.name ∨ x ∈ s.visible := by
  obtain ⟨g, hg, hgx⟩ := mem_flatMap.mp hx
  rw [frames, mem_cons, mem_reverse, mem_cons] at hg
  rcases hg with rfl | rfl | hg
  · exact .inr (mem_visible mem_cons_self hgx)
  · have hf : f ∈ s.outermost :: s.inner := by simp [hs]
    rcases mem_append.mp hgx with hvars | hformals
    · rcases mem_keys_insert_iff.mp hvars with rfl | hvars
      · exact .inl rfl
      · exact .inr (mem_visible hf (mem_append_left _ hvars))
    · exact .inr (mem_visible hf (mem_append_right _ hformals))
  · refine .inr (mem_visible ?_ hgx)
    rw [hs]
    exact mem_cons_of_mem _ (mem_cons_of_mem _ hg)

namespace Counts

variable {s s' : Scope} {n : Nat} {t : ValueType} {f : Frame} {below : List Frame}

/-- The next temporary has the next name. -/
theorem temporary_name (h : s.Counts n) :
    (s.temporary t).1 = ⟨candidate "tmp" n, t, candidate "tmp" n⟩ := by
  have hname : fresh "tmp" (s.issued.keys ++ s.visible) = candidate "tmp" n := by
    refine fresh_eq_candidate (fun k hk => mem_append_left _ ((h.issued k).mpr hk)) ?_
    rw [mem_append, not_or]
    exact ⟨fun hn => absurd ((h.issued n).mp hn) (Nat.lt_irrefl n),
      fun hn => absurd (h.visible n hn) (Nat.lt_irrefl n)⟩
  rw [Scope.visible] at hname
  unfold Scope.temporary
  rw [hname]

theorem temporary (h : s.Counts n) (hs : s.inner = f :: below) :
    (s.temporary t).2.Counts (n + 1) := by
  have hname := h.temporary_name (t := t)
  have htemporary : s.temporary t = ((s.temporary t).1, (s.temporary t).2) := rfl
  obtain ⟨-, -, -, -, hscope⟩ := temporary_eq hs htemporary
  rw [hscope, hname]
  have hcandidate : ∀ k, candidate "tmp" k = candidate "tmp" n ↔ k = n :=
    fun k => (candidate_injective "tmp").eq_iff
  constructor
  · intro k
    rw [mem_keys_insert_iff, hcandidate, h.issued]
    omega
  · intro k hk
    rcases mem_visible_insert (v := ⟨_, t, _⟩) hs hk with hk | hk
    · have := (hcandidate k).mp hk
      omega
    · have := h.visible k hk
      omega

theorem declare (h : s.Counts n) (hs : s.inner = f :: below) {v : Variable} (hx : Name.Plain x)
    (hdeclare : s.declare x t = .ok (v, s')) : s'.Counts n := by
  have hunique : Name.Plain v.unique := by
    obtain ⟨k, hk, -⟩ := exists_fresh x s.issued.keys
    rw [(Scope.declared_ok_iff.mp hdeclare).2.1, hk]
    exact hx.candidate k
  obtain ⟨-, hname, -, -, rfl⟩ := declare_ok hs hdeclare
  have hne : ∀ {y k}, Name.Plain y → candidate "tmp" k ≠ y := by
    rintro y k hy rfl
    exact not_plain_candidate k hy
  constructor
  · intro k
    rw [mem_keys_insert_iff, h.issued, or_iff_right (hne hunique)]
  · intro k hk
    rcases mem_visible_insert hs hk with hk | hk
    · exact absurd hk (hne (hname ▸ hx))
    · exact h.visible k hk

theorem push (h : s.Counts n) {formals : Dictionary String}
    (hformals : ∀ x ∈ formals.keys, Name.Plain x) : (s.push formals).Counts n := by
  refine ⟨h.issued, fun k hk => ?_⟩
  obtain ⟨g, hg, hgk⟩ := mem_flatMap.mp hk
  rw [frames, mem_cons, mem_reverse] at hg
  rcases hg with rfl | hg
  · exact h.visible k (mem_visible mem_cons_self hgk)
  · rcases mem_cons.mp hg with rfl | hg
    · exact absurd (hformals _ hgk) (not_plain_candidate k)
    · exact h.visible k (mem_visible (mem_cons_of_mem _ hg) hgk)

theorem pop (h : s.Counts n) : s.pop.Counts n := by
  refine ⟨h.issued, fun k hk => ?_⟩
  obtain ⟨g, hg, hgk⟩ := mem_flatMap.mp hk
  rw [frames, mem_cons, mem_reverse] at hg
  refine h.visible k (mem_visible ?_ hgk)
  rcases hg with rfl | hg
  · exact mem_cons_self
  · exact mem_cons_of_mem _ (mem_of_mem_tail hg)

end Counts

end Scope

/-- Where all inputs have plain names, no temporary is in use. -/
theorem InputScope.counts {scope : Scope} {inputs : Dictionary Input}
    (h : InputScope scope inputs) (hplain : ∀ x ∈ inputs.keys, Name.Plain x) :
    scope.Counts 0 := by
  have hissued : scope.issued.keys = inputs.keys := by
    rw [h.issued]
    simp [Dictionary.keys]
  have hvisible : scope.visible = inputs.keys := by
    simp [Scope.visible, Scope.frames, h.inner, Frame.names, h.formals, h.vars, Dictionary.keys]
  constructor
  · intro k
    rw [hissued]
    refine iff_of_false (fun hk => ?_) (Nat.not_lt_zero k)
    exact not_plain_candidate k (hplain _ hk)
  · intro k hk
    rw [hvisible] at hk
    exact absurd (hplain _ hk) (not_plain_candidate k)

end DataMarks
