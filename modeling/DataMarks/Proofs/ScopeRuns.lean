/-
  Whole runs of a scope.

  A scope serves requests one after the other: to enter and leave frames, and to declare
  variables and temporaries. Both ways to declare take a name that is not given out, so what
  one request does is this: it adds one variable at the end of the list of names given out, or
  none (`attempt_grows`). Frames come and go, but the list only grows. So over a whole run the
  variables that were returned are just those that the scope has on its list
  (`run_accounts`).
-/
import DataMarks.Proofs.CompileState

namespace DataMarks.Scope

open List

/-- What a scope can be asked to do. -/
inductive Request
  | push (formals : Dictionary String)
  | pop
  | declare (place : Placement) (name : String) (type : ValueType)
  | temporary (type : ValueType)
deriving DecidableEq, Repr

/-- Does what is asked for, and gives the variable that it declares, if it declares one. The scope
is the one that is left, also where this fails. -/
def attempt (s : Scope) : Request → Except ScopeError (Option Variable) × Scope
  | .push formals => (.ok none, s.push formals)
  | .pop => (.ok none, s.pop)
  | .declare place x t => ((s.add place x t).1.map some, (s.add place x t).2)
  | .temporary t => (.ok (s.temporary t).1, (s.temporary t).2)

/-- The variable that a request declares. -/
def added (s : Scope) (r : Request) : Option Variable := (s.attempt r).1.toOption.join

/-- Serves requests in turn, and gives the variables that are declared, in order. -/
def run (s : Scope) : List Request → List Variable × Scope
  | [] => ([], s)
  | r :: rs =>
    ((s.added r).toList ++ ((s.attempt r).2.run rs).1, ((s.attempt r).2.run rs).2)

variable {s s' : Scope} {v : Variable} {vs : List Variable}

theorem run_append (s : Scope) (rs rs' : List Request) :
    s.run (rs ++ rs') = ((s.run rs).1 ++ ((s.run rs).2.run rs').1, ((s.run rs).2.run rs').2) := by
  induction rs generalizing s with
  | nil => rfl
  | cons r rs ih =>
    rw [cons_append, run, run, ih, append_assoc]

/-! ## One request -/

/-- Some frame of the scope has the variable. -/
def Holds (s : Scope) (v : Variable) : Prop :=
  ∃ f ∈ s.outermost :: s.inner, ∃ x, f.vars.get? x = some v

/-- What a request does to a scope: it adds at most one variable, and gives out a new name for
it. -/
structure Grows (s : Scope) (added : Option Variable) (s' : Scope) : Prop where
  issued : s'.issued = s.issued ++ added.toList.map fun v => (v.unique, v.type)
  fresh : ∀ v ∈ added, v.unique ∉ s.issued.keys
  holds : ∀ v, s'.Holds v → v ∈ added ∨ s.Holds v

theorem push_grows (s : Scope) (formals : Dictionary String) : s.Grows none (s.push formals) where
  issued := (append_nil _).symm
  fresh := by simp
  holds := by
    rintro v ⟨f, hf, x, hx⟩
    rcases mem_cons.mp hf with rfl | hf
    · exact .inr ⟨_, mem_cons_self, x, hx⟩
    · rcases mem_cons.mp hf with rfl | hf
      · cases hx
      · exact .inr ⟨f, mem_cons_of_mem _ hf, x, hx⟩

theorem pop_grows (s : Scope) : s.Grows none s.pop where
  issued := (append_nil _).symm
  fresh := by simp
  holds := by
    rintro v ⟨f, hf, x, hx⟩
    rcases mem_cons.mp hf with rfl | hf
    · exact .inr ⟨_, mem_cons_self, x, hx⟩
    · exact .inr ⟨f, mem_cons_of_mem _ (mem_of_mem_tail hf), x, hx⟩

/-- The two ways to change a frame differ in where the frame is; both put one variable there. -/
theorem grows_of_insert (hfresh : v.unique ∉ s.issued.keys)
    (hissued : s'.issued = s.issued.insert v.unique v.type)
    (hframes : ∀ f ∈ s'.outermost :: s'.inner, f ∈ s.outermost :: s.inner ∨
      ∃ g ∈ s.outermost :: s.inner, ∃ x, f.vars = g.vars.insert x v) : s.Grows (some v) s' where
  issued := by rw [hissued, Dictionary.insert_of_not_mem_keys hfresh]; rfl
  fresh := by
    intro w hw
    obtain rfl := Option.mem_some.mp hw
    exact hfresh
  holds := by
    rintro w ⟨f, hf, x, hx⟩
    rcases hframes f hf with hold | ⟨g, hg, y, hinsert⟩
    · exact .inr ⟨f, hold, x, hx⟩
    · rw [hinsert] at hx
      rcases Dictionary.get?_insert_cases hx with ⟨-, rfl⟩ | hx
      · exact .inl rfl
      · exact .inr ⟨g, hg, x, hx⟩

/-- Putting a variable into a frame changes this frame only. -/
theorem frames_modify (s : Scope) (x : String) (v : Variable) (place : Placement) :
    ∀ f ∈ (s.modify (fun f => { f with vars := f.vars.insert x v }) place).outermost ::
        (s.modify (fun f => { f with vars := f.vars.insert x v }) place).inner,
      f ∈ s.outermost :: s.inner ∨
        ∃ g ∈ s.outermost :: s.inner, ∃ x, f.vars = g.vars.insert x v := by
  intro f hf
  cases place with
  | outermost =>
    obtain rfl | hf := mem_cons.mp hf
    · exact .inr ⟨s.outermost, mem_cons_self, x, rfl⟩
    · exact .inl (mem_cons_of_mem _ hf)
  | innermost =>
    unfold modify modifyCurrent at hf
    cases hinner : s.inner with
    | nil =>
      rw [hinner] at hf
      obtain rfl | hf := mem_cons.mp hf
      · exact .inr ⟨s.outermost, mem_cons_self, x, rfl⟩
      · cases hf
    | cons g below =>
      rw [hinner] at hf
      obtain rfl | hf := mem_cons.mp hf
      · exact .inl mem_cons_self
      · obtain rfl | hf := mem_cons.mp hf
        · exact .inr ⟨g, mem_cons_of_mem _ mem_cons_self, x, rfl⟩
        · exact .inl (mem_cons_of_mem _ (mem_cons_of_mem _ hf))

/-- A temporary looks at the frames too, but the names given out are among those it avoids. -/
theorem temporary_grows (s : Scope) (t : ValueType) :
    s.Grows (some (s.temporary t).1) (s.temporary t).2 := by
  refine grows_of_insert (fun hmem => ?_) ?_ (frames_modify s _ _ .innermost)
  · exact Name.fresh_not_mem "tmp" (s.issued.keys ++ s.frames.flatMap Frame.names)
      (mem_append_left _ hmem)
  · exact congrArg (Dictionary.insert _ _) (issued_modify s _ .innermost)

/-- A declaration that fails leaves the scope as it is. -/
theorem attempt_of_error {r : Request} {e : ScopeError} (h : (s.attempt r).1 = .error e) :
    (s.attempt r).2 = s := by
  cases r with
  | push | pop | temporary => cases h
  | declare place x t =>
    rw [attempt, add] at h ⊢
    split
    · rfl
    · rename_i hbinds
      rw [if_neg hbinds] at h
      cases h

theorem attempt_grows (s : Scope) (r : Request) : s.Grows (s.added r) (s.attempt r).2 := by
  cases r with
  | push formals => exact push_grows s formals
  | pop => exact pop_grows s
  | declare place x t =>
    rw [added, attempt, add]
    split
    · exact ⟨(append_nil _).symm, by simp [Except.map, Except.toOption], fun v => .inr⟩
    · refine grows_of_insert (Name.fresh_not_mem x s.issued.keys) ?_ (frames_modify s x _ place)
      dsimp only
      rw [issued_modify]
  | temporary t => exact temporary_grows s t

/-! ## Runs -/

/-- The variables are those that were ever declared in the scope: the names given out are theirs,
each once, and the frames hold no others. -/
structure Accounts (s : Scope) (vs : List Variable) : Prop where
  nodup : (vs.map Variable.unique).Nodup
  issued : s.issued = vs.map fun v => (v.unique, v.type)
  holds : ∀ v, s.Holds v → v ∈ vs

theorem Accounts.keys (h : s.Accounts vs) : s.issued.keys = vs.map Variable.unique := by
  rw [h.issued, Dictionary.keys, map_map]
  rfl

theorem Accounts.grows {added : Option Variable} (h : s.Accounts vs) (hgrows : s.Grows added s') :
    s'.Accounts (vs ++ added.toList) where
  nodup := by
    rw [map_append]
    refine h.nodup.append ?_ ?_
    · cases added <;> simp
    · intro x hx hadded
      obtain ⟨v, hv, rfl⟩ := mem_map.mp hadded
      refine hgrows.fresh v (Option.mem_toList.mp hv) ?_
      rwa [h.keys]
  issued := by rw [hgrows.issued, h.issued, map_append]
  holds := by
    intro v hv
    rcases hgrows.holds v hv with hadded | hold
    · exact mem_append_right _ (Option.mem_toList.mpr hadded)
    · exact mem_append_left _ (h.holds v hold)

theorem accounts_new : ({} : Scope).Accounts [] where
  nodup := nodup_nil
  issued := rfl
  holds := by
    rintro v ⟨f, hf, x, hx⟩
    obtain rfl := mem_singleton.mp hf
    cases hx

theorem run_accounts (h : s.Accounts vs) (rs : List Request) :
    (s.run rs).2.Accounts (vs ++ (s.run rs).1) := by
  induction rs generalizing s vs with
  | nil =>
    rw [run, append_nil]
    exact h
  | cons r rs ih =>
    rw [run, ← append_assoc]
    exact ih (h.grows (attempt_grows s r))

/-- Over any run of requests on a new scope, the variables that are declared have different names
in the specification, whether or not their frames are still there. The scope lists just these
names, with the types and in the order of the declarations, and what it finds under a name is one
of these variables. A declaration that fails leaves the scope as it is, and it is as if it had not
been asked for. -/
theorem run_unique {rs : List Request} {vs : List Variable} {s : Scope}
    (hrun : ({} : Scope).run rs = (vs, s)) :
    (vs.map Variable.unique).Nodup ∧
    s.issued = vs.map (fun v => (v.unique, v.type)) ∧
    (∀ x v, s.find x = .ok v → v ∈ vs) ∧
    ∀ place x t e, (s.attempt (.declare place x t)).1 = .error e →
      (s.attempt (.declare place x t)).2 = s ∧ ∀ rest,
        ({} : Scope).run (rs ++ .declare place x t :: rest) = ({} : Scope).run (rs ++ rest) := by
  have haccounts := run_accounts accounts_new rs
  rw [hrun, List.nil_append] at haccounts
  refine ⟨haccounts.nodup, haccounts.issued, fun x v hfind => ?_,
    fun place x t e he => ⟨attempt_of_error he, fun rest => ?_⟩⟩
  · rw [find] at hfind
    cases hget : s.get? x with
    | none =>
      rw [hget] at hfind
      cases hfind
    | some w =>
      rw [hget] at hfind
      cases hfind
      exact haccounts.holds v (lookup_some hget)
  · rw [run_append, run_append, hrun, run, added, attempt_of_error he, he]
    rfl

/-- A run in which a popped frame had a variable `x`, a formal cannot be declared again, and a
name of the source looks like one that was made up for another variable. -/
def shadowing : List Request :=
  [.declare .outermost "x" .float, .push [("p", "x")], .declare .innermost "x" .int,
    .declare .innermost "p" .float, .temporary .vector2, .pop, .push [],
    .declare .innermost "x1" .bool, .declare .outermost "tmp" .color, .temporary .float]

theorem run_unique_shadowing : ∃ vs s, ({} : Scope).run shadowing = (vs, s) ∧
    vs.map Variable.unique = ["x", "x1", "tmp", "x11", "tmp1", "tmp2"] ∧
    (vs.map Variable.unique).Nodup ∧ s.issued = vs.map (fun v => (v.unique, v.type)) ∧
    (s.attempt (.declare .outermost "x" .int)).1 = .error (.duplicate "x") ∧
    (s.attempt (.declare .outermost "x" .int)).2 = s ∧
    ({} : Scope).run (shadowing ++ [.declare .outermost "x" .int, .temporary .int]) =
      ({} : Scope).run (shadowing ++ [.temporary .int]) := by
  have hfails : ((({} : Scope).run shadowing).2.attempt (.declare .outermost "x" .int)).1 =
      .error (.duplicate "x") := by
    rw [attempt, add, if_pos (by decide +kernel)]
    rfl
  have hrun : ({} : Scope).run shadowing =
      ((({} : Scope).run shadowing).1, (({} : Scope).run shadowing).2) := rfl
  obtain ⟨hnodup, hissued, -, hfailed⟩ := run_unique hrun
  obtain ⟨hleft, hrest⟩ := hfailed _ _ _ _ hfails
  exact ⟨_, _, hrun, by decide +kernel, hnodup, hissued, hfails, hleft, hrest _⟩

end DataMarks.Scope
