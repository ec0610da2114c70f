/-
  Scopes that mirror each other.

  A body is compiled in one scope as that of a mark, whose parameters are inputs in the
  outermost frame, and in another one as that of a function that is expanded, where a frame
  forwards the parameters to temporaries. `Forwarding.Mirrors` relates the two: the frames on
  top have the same variables up to the forwarding, and what lies below gives every name the
  same meaning. Both scopes then stay related while they take the same steps, and a name means
  the same variable in both (`Mirrors.get?`).
-/
import DataMarks.Proofs.Renaming
import DataMarks.Proofs.TemporaryNames

namespace DataMarks

open Dictionary

namespace Forwarding

variable (w : Forwarding)

/-- `v'` stands for a variable `v` that is declared in a frame, so for none that is forwarded. -/
structure StandsFor (v v' : Variable) : Prop where
  type : v'.type = v.type
  unique : v'.unique = w.unique v.unique
  own : v.unique ∉ w.formals.keys

/-- `v'` is found where a name `x` means `v`. A forwarded variable is found by its own name only. -/
structure Found (x : String) (v v' : Variable) : Prop where
  type : v'.type = v.type
  unique : v'.unique = w.unique v.unique
  own : v.unique ∈ w.formals.keys → v.unique = x

/-- Frames that declare the same variables. -/
def Declares (f f' : Frame) : Prop :=
  ∀ x, Option.Rel w.StandsFor (f.vars.get? x) (f'.vars.get? (w.name x))

/-- Frames of an expanded function that send each parameter to the same temporary. -/
structure Sends (formals formals' : Dictionary String) : Prop where
  eq : formals' = formals.map fun e => (e.1, w.name e.2)
  plain : ∀ x ∈ formals.keys, Name.Plain x
  temporary : ∀ x y, formals.get? x = some y → Scope.IsTemporary y

/-- Frames on top of each other that mirror each other, with so many frames of their own on top of
the two frames where the names are forwarded. -/
inductive Stacks (outermost outermost' : Frame) : Nat → List Frame → List Frame → Prop
  | base {f f' : Frame} {below : List Frame} (vars : w.Declares f f') (formals : f.formals = [])
      (forwards : f'.formals = w.formals)
      (means : ∀ x, Option.Rel (w.Found x) (outermost.vars.get? x)
        (Scope.lookup outermost' ({ formals := w.formals } :: below) (w.name x))) :
      Stacks outermost outermost' 0 [f] (f' :: below)
  | frame {k : Nat} {f f' : Frame} {fs fs' : List Frame} (vars : w.Declares f f')
      (formals : w.Sends f.formals f'.formals) (rest : Stacks outermost outermost' k fs fs') :
      Stacks outermost outermost' (k + 1) (f :: fs) (f' :: fs')

/-- Scopes that mirror each other. -/
structure Mirrors (k : Nat) (s t : Scope) : Prop where
  frames : w.Stacks s.outermost t.outermost k s.inner t.inner
  counts : ∃ n, s.Counts n ∧ t.Counts (n + w.count)
  issued : ∀ x, Name.Plain x → (x ∈ s.issued.keys ↔ x ∈ t.issued.keys)
  forwarded : ∀ x ∈ w.formals.keys, x ∈ s.issued.keys

variable {w} {k : Nat}

/-! ## Parameters -/

variable {x : String}

namespace Sends

theorem nil : w.Sends [] [] where
  eq := rfl
  plain := fun _ h => absurd h List.not_mem_nil
  temporary := fun _ _ h => by cases h

variable {formals formals' : Dictionary String}

theorem insert (h : w.Sends formals formals') {y : String} (hx : Name.Plain x)
    (hy : Scope.IsTemporary y) :
    w.Sends (formals.insert x y) (formals'.insert x (w.name y)) where
  eq := by rw [map_insert, h.eq]
  plain := by
    intro z hz
    rcases mem_keys_insert_iff.mp hz with rfl | hz
    · exact hx
    · exact h.plain z hz
  temporary := by
    intro z z' hz
    rcases get?_insert_cases hz with ⟨-, rfl⟩ | hz
    · exact hy
    · exact h.temporary z z' hz

theorem keys (h : w.Sends formals formals') : formals'.keys = formals.keys := by
  rw [h.eq]
  simp [Dictionary.keys]

theorem get? (h : w.Sends formals formals') (x : String) :
    formals'.get? (w.name x) = (formals.get? x).map w.name := by
  have hmap : ∀ y, formals'.get? y = (formals.get? y).map w.name := by
    intro y
    rw [h.eq, get?_map fun e : String × String => w.name e.2]
  have hnone : ∀ y, ¬ Name.Plain y → formals.get? y = none := by
    intro y hy
    rw [← not_mem_keys_iff]
    exact fun hmem => hy (h.plain y hmem)
  by_cases hx : Scope.IsTemporary x
  · obtain ⟨i, rfl⟩ := hx
    rw [w.name_candidate, hmap, hnone _ (Name.not_plain_candidate _),
      hnone _ (Name.not_plain_candidate _)]
  · rw [name, Name.shift_of_not_temporary hx, hmap]

end Sends

/-! ## Stacks -/

variable {v : Variable}

theorem StandsFor.found {v' : Variable} (h : w.StandsFor v v') (x : String) : w.Found x v v' :=
  ⟨h.type, h.unique, fun hmem => absurd hmem h.own⟩

theorem Declares.insert {f f' : Frame} (h : w.Declares f f') {v' : Variable} (hv : w.StandsFor v v') :
    w.Declares { f with vars := f.vars.insert x v }
      { f' with vars := f'.vars.insert (w.name x) v' } := by
  intro y
  rw [get?_insert, get?_insert]
  simp only [w.name_injective.eq_iff]
  split
  · exact .some hv
  · exact h y

theorem Declares.get?_eq_none {f f' : Frame} (h : w.Declares f f') (hx : f.vars.get? x = none) :
    f'.vars.get? (w.name x) = none := by
  have hrel := h x
  rw [hx] at hrel
  generalize f'.vars.get? (w.name x) = r at hrel ⊢
  cases hrel
  rfl

namespace Stacks

variable {outermost outermost' : Frame} {inner inner' : List Frame}

theorem exists_cons (h : w.Stacks outermost outermost' k inner inner') :
    ∃ f fs f' fs', inner = f :: fs ∧ inner' = f' :: fs' := by
  cases h with
  | base => exact ⟨_, _, _, _, rfl, rfl⟩
  | frame => exact ⟨_, _, _, _, rfl, rfl⟩

/-- The same variable goes into both frames on top. -/
theorem insert {f f' : Frame} {fs fs' : List Frame}
    (h : w.Stacks outermost outermost' k (f :: fs) (f' :: fs')) {v' : Variable}
    (hv : w.StandsFor v v') :
    w.Stacks outermost outermost' k ({ f with vars := f.vars.insert x v } :: fs)
      ({ f' with vars := f'.vars.insert (w.name x) v' } :: fs') := by
  cases h with
  | base vars formals forwards means => exact .base (vars.insert hv) formals forwards means
  | frame vars formals rest => exact .frame (vars.insert hv) formals rest

/-- A plain name that is free on top of the one stack is free on top of the other, but for the
names that are forwarded there. -/
theorem binds {f f' : Frame} {fs fs' : List Frame}
    (h : w.Stacks outermost outermost' k (f :: fs) (f' :: fs')) (hx : Name.Plain x)
    (hfree : f.binds x = false) : f'.binds x = (k == 0 && w.formals.contains x) := by
  have hvars : f.vars.get? x = none := by
    simpa [Dictionary.contains] using (Bool.or_eq_false_iff.mp hfree).1
  have hformals : f.formals.get? x = none := by
    simpa [Dictionary.contains] using (Bool.or_eq_false_iff.mp hfree).2
  cases h with
  | base vars formals forwards means =>
    have hvars' := vars.get?_eq_none hvars
    rw [w.name_plain hx] at hvars'
    rw [Frame.binds, Dictionary.contains, hvars', forwards]
    simp
  | frame vars formals rest =>
    have hvars' := vars.get?_eq_none hvars
    have hformals' := formals.get? x
    rw [w.name_plain hx] at hvars' hformals'
    rw [Frame.binds, Dictionary.contains, Dictionary.contains, hvars', hformals', hformals]
    simp

theorem lookup (h : w.Stacks outermost outermost' k inner inner') (x : String) :
    Option.Rel (w.Found x) (Scope.lookup outermost inner x)
      (Scope.lookup outermost' inner' (w.name x)) := by
  induction h generalizing x with
  | @base f f' below vars formals forwards means =>
    have hvars := vars x
    have hmeans := means x
    generalize hv : f.vars.get? x = v at hvars
    generalize hv' : f'.vars.get? (w.name x) = v' at hvars
    cases hvars with
    | some hstands =>
      rw [Scope.lookup_vars hv, Scope.lookup_vars hv']
      exact .some (hstands.found x)
    | none =>
      -- without variables in its top frame, the one stack is what is below, and the other one
      -- still forwards
      have hbelow : Scope.lookup outermost [f] x = outermost.vars.get? x := by
        rw [Scope.lookup_below hv (by rw [formals]; rfl)]
        rfl
      have hforward : Scope.lookup outermost' (f' :: below) (w.name x) =
          Scope.lookup outermost' ({ formals := w.formals } :: below) (w.name x) := by
        obtain ⟨vars', formals'⟩ := f'
        obtain rfl : formals' = w.formals := forwards
        exact Scope.lookup_congr (f := { formals := w.formals }) hv'
      rw [hbelow, hforward]
      exact hmeans
  | @frame k f f' fs fs' vars formals rest ih =>
    have hvars := vars x
    have hformals' := formals.get? x
    generalize hv : f.vars.get? x = v at hvars
    generalize hv' : f'.vars.get? (w.name x) = v' at hvars
    cases hvars with
    | some hstands =>
      rw [Scope.lookup_vars hv, Scope.lookup_vars hv']
      exact .some (hstands.found x)
    | none =>
      cases hformals : f.formals.get? x with
      | none =>
        rw [hformals, Option.map_none] at hformals'
        rw [Scope.lookup_below hv hformals, Scope.lookup_below hv' hformals']
        exact ih x
      | some y =>
        rw [hformals, Option.map_some] at hformals'
        rw [Scope.lookup_formals hv hformals, Scope.lookup_formals hv' hformals']
        have hrel := ih y
        generalize Scope.lookup outermost fs y = u at hrel ⊢
        generalize Scope.lookup outermost' fs' (w.name y) = u' at hrel ⊢
        cases hrel with
        | none => exact .none
        | some hfound =>
          -- a parameter is sent to a temporary, which is no forwarded name
          refine .some ⟨hfound.type, hfound.unique, fun hmem => ?_⟩
          obtain ⟨i, rfl⟩ := formals.temporary x y hformals
          rw [hfound.own hmem, mem_keys_iff, w.get?_candidate] at hmem
          cases hmem

end Stacks

/-! ## Scopes -/

namespace Mirrors

variable {s t : Scope}

/-- A name means the same variable in both scopes. -/
theorem get? (h : w.Mirrors k s t) (x : String) :
    Option.Rel (w.Found x) (s.get? x) (t.get? (w.name x)) :=
  h.frames.lookup x

theorem push (h : w.Mirrors k s t) {formals formals' : Dictionary String}
    (hformals : w.Sends formals formals') :
    w.Mirrors (k + 1) (s.push formals) (t.push formals') := by
  obtain ⟨n, hs, ht⟩ := h.counts
  have hplain' : ∀ x ∈ formals'.keys, Name.Plain x := by
    rw [hformals.keys]
    exact hformals.plain
  exact { h with
    frames := .frame (fun _ => .none) hformals h.frames
    counts := ⟨n, hs.push hformals.plain, ht.push hplain'⟩ }

theorem pop (h : w.Mirrors (k + 1) s t) : w.Mirrors k s.pop t.pop := by
  obtain ⟨n, hs, ht⟩ := h.counts
  have hstacks := h.frames
  generalize hi : s.inner = inner at hstacks
  generalize hi' : t.inner = inner' at hstacks
  cases hstacks with
  | frame _ _ rest =>
    refine { h with frames := ?_, counts := ⟨n, hs.pop, ht.pop⟩ }
    rw [Scope.pop, Scope.pop, hi, hi']
    exact rest

theorem temporary (h : w.Mirrors k s t) (type : ValueType) :
    (∃ i, (s.temporary type).1 = ⟨Name.candidate "tmp" i, type, Name.candidate "tmp" i⟩) ∧
      (t.temporary type).1.name = w.name (s.temporary type).1.name ∧
      (t.temporary type).1.unique = w.unique (s.temporary type).1.unique ∧
      w.Mirrors k (s.temporary type).2 (t.temporary type).2 := by
  obtain ⟨n, hs, ht⟩ := h.counts
  obtain ⟨f, fs, f', fs', hf, hf'⟩ := h.frames.exists_cons
  have hname := hs.temporary_name (t := type)
  have hname' := ht.temporary_name (t := type)
  have hstands : w.StandsFor (s.temporary type).1 (t.temporary type).1 := by
    rw [hname, hname']
    refine ⟨rfl, (w.unique_candidate n).symm, ?_⟩
    rw [not_mem_keys_iff]
    exact w.get?_candidate n
  have hmoved : (t.temporary type).1.name = w.name (s.temporary type).1.name := by
    rw [hname, hname', w.name_candidate]
  refine ⟨⟨n, hname⟩, hmoved, hstands.unique, ?_⟩
  have hcounts := hs.temporary hf (t := type)
  have hcounts' := ht.temporary hf' (t := type)
  have htemporary : s.temporary type = ((s.temporary type).1, (s.temporary type).2) := rfl
  have htemporary' : t.temporary type = ((t.temporary type).1, (t.temporary type).2) := rfl
  obtain ⟨-, -, -, -, hscope⟩ := Scope.temporary_eq hf htemporary
  obtain ⟨-, -, -, -, hscope'⟩ := Scope.temporary_eq hf' htemporary'
  have hstacks := h.frames
  rw [hf, hf'] at hstacks
  refine
    { frames := ?_
      counts := ⟨n + 1, hcounts, by rwa [Nat.add_right_comm]⟩
      issued := ?_
      forwarded := ?_ }
  · rw [hscope, hscope', hmoved]
    exact hstacks.insert hstands
  · intro x hx
    have hne : ∀ j, x ≠ Name.candidate "tmp" j := by
      rintro j rfl
      exact Name.not_plain_candidate j hx
    rw [hscope, hscope', mem_keys_insert_iff, mem_keys_insert_iff, hname,
      hname', or_iff_right (hne _), or_iff_right (hne _)]
    exact h.issued x hx
  · intro x hx
    rw [hscope]
    exact keys_subset_insert _ _ _ (h.forwarded x hx)

/-- A variable can be declared in both scopes, unless the name is forwarded where it is declared. -/
theorem declare (h : w.Mirrors k s t) (hx : Name.Plain x) {type : ValueType} {s' : Scope}
    (hdeclare : s.declare x type = .ok (v, s')) :
    (∃ v' t', t.declare x type = .ok (v', t') ∧ v'.unique = w.unique v.unique ∧
      w.Mirrors k s' t') ∨
    (k = 0 ∧ x ∈ w.formals.keys) ∧ t.declare x type = .error (.duplicate x) := by
  obtain ⟨n, hs, ht⟩ := h.counts
  obtain ⟨f, fs, f', fs', hf, hf'⟩ := h.frames.exists_cons
  have hstacks := h.frames
  rw [hf, hf'] at hstacks
  have hcounts := hs.declare hf hx hdeclare
  obtain ⟨hbinds, hname, htype, hfree, hscope⟩ := Scope.declare_ok hf hdeclare
  have hbinds' := hstacks.binds hx hbinds
  have hcurrent : t.current = f' := by rw [Scope.current, hf', List.headD_cons]
  cases hforward : k == 0 && w.formals.contains x with
  | true =>
    rw [Bool.and_eq_true, beq_iff_eq] at hforward
    refine .inr ⟨⟨hforward.1, ?_⟩, ?_⟩
    · rw [mem_keys_iff]
      exact hforward.2
    · have hbound : (t.frame .innermost).binds x = true := by
        rw [Scope.frame, hcurrent, hbinds', hforward.2, hforward.1]
        rfl
      rw [Scope.declare, Scope.add, if_pos hbound]
      rfl
  | false =>
    have hunique : v.unique = Name.fresh x s.issued.keys :=
      congrArg Variable.unique (Scope.declared_ok_iff.mp hdeclare).2.1
    have hplain : Name.Plain v.unique := by
      obtain ⟨i, hi, -⟩ := Name.exists_fresh x s.issued.keys
      rw [hunique, hi]
      exact hx.candidate i
    have hown : v.unique ∉ w.formals.keys := by
      intro hmem
      have hissued := h.forwarded _ hmem
      rw [mem_keys_iff, hfree] at hissued
      cases hissued
    have hsame : Name.fresh x t.issued.keys = v.unique := by
      rw [hunique]
      exact Name.fresh_congr fun i => h.issued _ (hx.candidate i)
    have hfixed : w.unique v.unique = v.unique := by
      rw [w.unique_of_none ((not_mem_keys_iff _ _).mp hown), w.name_plain hplain]
    have hfree' : (t.frame .innermost).binds x = false := by
      rw [Scope.frame, hcurrent, hbinds', hforward]
    obtain ⟨v', t', hdeclare'⟩ : ∃ v' t', t.declare x type = .ok (v', t') :=
      ⟨_, _, Scope.declared_ok_iff.mpr ⟨hfree', rfl, rfl⟩⟩
    have hunique' : v'.unique = v.unique := by
      rw [← hsame, (Scope.declared_ok_iff.mp hdeclare').2.1]
    have hcounts' := ht.declare hf' hx hdeclare'
    obtain ⟨-, hname', htype', -, hscope'⟩ := Scope.declare_ok hf' hdeclare'
    refine .inl ⟨v', t', hdeclare', by rw [hunique', hfixed], ?_⟩
    refine
      { frames := ?_
        counts := ⟨n, hcounts, hcounts'⟩
        issued := ?_
        forwarded := ?_ }
    · have hstands : w.StandsFor v v' := ⟨by rw [htype, htype'], by rw [hunique', hfixed], hown⟩
      have hinsert := hstacks.insert (x := x) hstands
      rw [w.name_plain hx] at hinsert
      rw [hscope, hscope', hname, hname']
      exact hinsert
    · intro y hy
      rw [hscope, hscope', mem_keys_insert_iff, mem_keys_insert_iff, hunique']
      exact or_congr Iff.rfl (h.issued y hy)
    · intro y hy
      rw [hscope]
      exact keys_subset_insert _ _ _ (h.forwarded y hy)

end Mirrors

end Forwarding

end DataMarks
