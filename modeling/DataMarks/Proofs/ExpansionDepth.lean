/-
  The expansion of calls ends.

  A function is not expanded inside itself, so the functions being expanded differ from
  each other, and all but the outermost are among those that calls can mean. There are
  finitely many of these, and each level of expansion takes one of them away
  (`Setting.length_free_enter_lt`). `watched` checks this on the way: it expands calls no
  deeper than a given number of levels and only under stacks that pass a test, and leaves
  everything else to an expander that may do anything. As it makes no difference what that
  one does, no compilation ever gets there (`Surface.File.compile_expansion_ends`).
-/
import DataMarks.Proofs.Loading
import DataMarks.Proofs.Overloads
import DataMarks.Proofs.SideBySide
import Mathlib.Data.List.Dedup

namespace DataMarks

open List Library

/-! ## Functions that calls can mean -/

/-- The functions of the library, by module and name. -/
def Library.keys : List (Option String × String) :=
  modules.flatMap fun m => m.functions.map fun f => (some m.name, f.name)

variable {f : Surface.Function} {name : String}

theorem Library.mem_keys_of_mem_functions {m : String} (h : f ∈ functions m name) :
    (some m, f.name) ∈ keys := by
  unfold functions at h
  split at h
  · rename_i found hfound
    rw [module?] at hfound
    have hname : found.name = m := by simpa using find?_some hfound
    refine mem_flatMap.mpr ⟨found, mem_of_find?_eq_some hfound, ?_⟩
    exact mem_map.mpr ⟨f, (mem_filter.mp h).1, by rw [hname]⟩
  · cases h

theorem Library.length_keys : keys.length = size := by
  simp [keys, size, length_flatMap]

variable {d : Definition}

namespace Resolver

/-- The functions that calls can mean, by module and name, each once. -/
def keys (r : Resolver) : List (Option String × String) :=
  (r.functions.map Definition.key ++ Library.keys).dedup

theorem length_keys_le (r : Resolver) : r.keys.length ≤ r.functions.length + Library.size := by
  have hle := (dedup_sublist (r.functions.map Definition.key ++ Library.keys)).length_le
  rwa [length_append, length_map, Library.length_keys] at hle

theorem key_mem_library_of_shadowing {ms : List (Option String)}
    (h : .defined d ∈ shadowing name ms) : d.key ∈ Library.keys := by
  induction ms with
  | nil => cases h
  | cons m ms ih =>
    unfold shadowing at h
    split at h
    · exact ih h
    · unfold members at h
      split at h
      · cases h
      · obtain ⟨f, hf, heq⟩ := mem_map.mp h
        cases heq
        exact mem_keys_of_mem_functions hf

/-- A call that is expanded means a function that is loaded or in the library. -/
theorem key_mem_keys {r : Resolver} {args : Arguments} {fit : Fit}
    (h : r.resolve name args = .ok (.defined d, fit)) : d.key ∈ r.keys := by
  rw [keys, mem_dedup, mem_append]
  have hd := (resolve_ok h).1
  unfold candidates at hd
  split at hd
  · rcases mem_append.mp hd with hd | hd
    · obtain ⟨i, -, heq⟩ := mem_map.mp hd
      cases heq
    · obtain ⟨d', hd', heq⟩ := mem_map.mp hd
      cases heq
      exact .inl (mem_map_of_mem (mem_filter.mp hd').1)
  · exact .inr (key_mem_library_of_shadowing hd)

end Resolver

namespace Setting

/-- The functions that can still be expanded. -/
def free (c : Setting) : List (Option String × String) :=
  c.resolver.keys.filter fun key => !c.callStack.contains key

theorem length_free_le (c : Setting) : c.free.length ≤ c.resolver.keys.length :=
  length_filter_le _ _

theorem length_free_lt (c : Setting) :
    c.free.length < c.resolver.functions.length + size + 1 := by
  have hfree := c.length_free_le
  have hkeys := c.resolver.length_keys_le
  omega

/-- A function that is expanded can not be expanded again inside. -/
theorem length_free_enter_lt {c : Setting} (hkey : d.key ∈ c.resolver.keys)
    (hstack : d.key ∉ c.callStack) : (c.enter d).free.length < c.free.length := by
  have hfree : (c.enter d).free = c.free.filter (· ≠ d.key) := by
    have hkeys : (c.enter d).resolver.keys = c.resolver.keys := rfl
    rw [free, free, filter_filter, hkeys]
    refine filter_congr fun key _ => ?_
    simp [enter]
  rw [hfree, length_filter_lt_length_iff_exists]
  refine ⟨d.key, mem_filter.mpr ⟨hkey, by simpa using hstack⟩, by simp⟩

end Setting

namespace Compile

/-! ## Levels of expansion -/

/-- A step for a call of a function that is not being expanded already. -/
def unlessRecursive {α : Type} (span : Span) (d : Definition) (x : Compile α) : Compile α := do
  if (← state).callStack.contains d.key then fail (.recursiveCall span d.function.name) else x

section Recursion

variable {α : Type} {c : Setting} {span : Span} {d : Definition} {x y : Compile α}

theorem unlessRecursive_apply (s : Compiler) :
    unlessRecursive span d x s =
      if d.key ∈ s.callStack then ⟨.error (.recursiveCall span d.function.name), s, []⟩
      else x s := by
  show (if s.callStack.contains d.key then fail (.recursiveCall span d.function.name) else x) s = _
  simp only [contains_iff_mem]
  split <;> rfl

theorem unlessRecursive_alike (h : d.key ∉ c.callStack → Alike c x y) :
    Alike c (unlessRecursive span d x) (unlessRecursive span d y) := by
  rintro s t ⟨rfl, hs⟩
  have hstack : s.callStack = c.callStack := congrArg Setting.callStack hs
  rw [unlessRecursive_apply, unlessRecursive_apply, hstack]
  split
  · exact ⟨.error rfl, rfl, rfl, hs⟩
  · rename_i hkey
    exact h hkey s s ⟨rfl, hs⟩

end Recursion

theorem expander_succ (levels : Nat) (span : Span) (d : Definition) (args : List Expr) :
    expander (levels + 1) span d args =
      unlessRecursive span d (expandWith (expander levels) span d args) := by
  funext s
  rw [unlessRecursive_apply]
  show (if d.key ∈ s.callStack then fail (.recursiveCall span d.function.name)
    else expandWith (expander levels) span d args) s = _
  split <;> rfl

/-- Expands calls at most so many levels deep, and only under stacks that `P` holds of. What goes
beyond that is left to `otherwise`. -/
def watched (P : List (Option String × String) → Prop) [DecidablePred P] (otherwise : Expander) :
    Nat → Expander
  | 0 => fun span d args => unlessRecursive span d (otherwise span d args)
  | levels + 1 => fun span d args => unlessRecursive span d do
    if P (d.key :: (← state).callStack) then
      expandWith (watched P otherwise levels) span d args
    else otherwise span d args

variable {c : Setting} {expand : Expander}

/-- With a level for each function that can still be expanded, it makes no difference what is left
to do beyond. -/
theorem watched_alike {P : List (Option String × String) → Prop} [DecidablePred P]
    (otherwise : Expander) {n m : Nat}
    (hP : ∀ key stack, key ∈ c.resolver.keys → key ∉ stack → P stack → P (key :: stack))
    (hstack : P c.callStack) (hn : c.free.length ≤ n) (hm : c.free.length < m) :
    (watched P otherwise n).Alike c (expander m) := by
  induction n generalizing m c with
  | zero =>
    intro name args d fit hresolve span
    obtain ⟨m, rfl⟩ := Nat.exists_eq_add_one_of_ne_zero (Nat.ne_of_gt (Nat.zero_lt_of_lt hm))
    rw [expander_succ]
    refine unlessRecursive_alike fun hkey => ?_
    have hlt := Setting.length_free_enter_lt (Resolver.key_mem_keys hresolve) hkey
    omega
  | succ n ih =>
    intro name args d fit hresolve span
    obtain ⟨m, rfl⟩ := Nat.exists_eq_add_one_of_ne_zero (Nat.ne_of_gt (Nat.zero_lt_of_lt hm))
    rw [expander_succ]
    refine unlessRecursive_alike fun hkey => ?_
    have hmem := Resolver.key_mem_keys hresolve
    have hlt := Setting.length_free_enter_lt hmem hkey
    have hpush := hP d.key c.callStack hmem hkey hstack
    have hinner := expandWith_alike
      (ih (c := c.enter d) (m := m) hP hpush (by omega) (by omega)) span fit.args
    refine Alike.of_state fun s hs => ?_
    have hs : s.callStack = c.callStack := congrArg Setting.callStack hs
    rwa [hs, if_pos hpush]

theorem expander_alike {n m : Nat} (hn : c.free.length < n) (hm : c.free.length < m) :
    (expander n).Alike c (expander m) := by
  intro name args d fit hresolve span
  have hwatched : ∀ k, c.free.length < k →
      (watched (fun _ => True) (expander 0) c.free.length).Alike c (expander k) := fun _ hk =>
    watched_alike _ (fun _ _ _ _ h => h) True.intro le_rfl hk
  exact (hwatched n hn name args d fit hresolve span).symm.trans
    (hwatched m hm name args d fit hresolve span)

/-- Expands calls however deep they go. -/
def expandAll : Expander := fun span d args s => expander (depth s + 1) span d args s

theorem expandAll_alike {levels : Nat} (h : c.free.length < levels) :
    (expander levels).Alike c expandAll := by
  intro name args d fit hresolve span
  rintro s t ⟨rfl, rfl⟩
  have hdepth : s.setting.free.length < depth s + 1 := Nat.lt_succ_of_lt s.setting.length_free_lt
  exact expander_alike h hdepth name args d fit hresolve span s s ⟨rfl, rfl⟩

/-- No level is counted: a function that is not being expanded is expanded, and so are the calls
in its body. -/
theorem expandAll_eq (span : Span) (d : Definition) (args : List Expr) :
    expandAll span d args = unlessRecursive span d (expandWith expandAll span d args) := by
  funext s
  have hinner : (expander (depth s)).Alike (s.setting.enter d) expandAll :=
    expandAll_alike (s.setting.enter d).length_free_lt
  rw [expandAll, expander_succ]
  exact (unlessRecursive_alike fun _ => expandWith_alike hinner span args).eq rfl

/-! ## Files -/

/-- The specification of a function, with calls expanded in a given way. -/
def functionBy (expand : Expander) (f : Surface.Function) : Compile Specification := do
  update (·.start f)
  let inputs ← globalInputs (← state).globals []
  let inputs ← paramInputs f.params inputs
  let statements ← capture (inBlock (stmts expand f.body))
  let s ← state
  return {
    isShader := f.kind = .shader
    inputs
    outputs := s.outputs.map fun (name, type, _) => (name, type)
    locals := s.scope.issued.filter fun (name, _) => !inputs.contains name
    statements }

/-- A function is compiled in a setting that only its name and what is loaded determine. -/
theorem functionBy_alike {expand' : Expander} {s : Compiler}
    (h : expand.Alike ⟨s.resolver, s.globals, [(none, f.name)]⟩ expand') :
    functionBy expand f s = functionBy expand' f s ∧
      (functionBy expand f s).state.setting = ⟨s.resolver, s.globals, [(none, f.name)]⟩ := by
  have hrest := Alike.state_bind
    (f := fun t => globalInputs t.globals [] >>= fun inputs => paramInputs f.params inputs >>=
      fun inputs => capture (inBlock (stmts expand f.body)) >>= fun statements => state >>=
        fun s => pure ({
          isShader := f.kind = .shader
          inputs
          outputs := s.outputs.map fun (name, type, _) => (name, type)
          locals := s.scope.issued.filter fun (name, _) => !inputs.contains name
          statements } : Specification))
    fun t _ => (globalInputs_alike t.globals []).bind fun inputs =>
      (paramInputs_alike f.params inputs).bind fun inputs =>
        (stmts_alike h f.body).inFrame.capture.bind fun statements =>
          Alike.state_bind fun s _ => .pure _
  exact ⟨hrest.eq rfl, hrest.setting rfl⟩

/-- The specifications of all marks and shaders among functions, with calls expanded in a given
way. -/
def functionsBy (expand : Expander) : List Surface.Function → Dictionary Specification →
    Compile (Dictionary Specification)
  | [], done => return done
  | f :: fs, done => do
    if f.isRenderable then
      let spec ← functionBy expand f
      functionsBy expand fs (done.insert f.name spec)
    else
      functionsBy expand fs done

theorem functionsBy_matches {r : Resolver} {gs : List Surface.Global}
    (h : ∀ f : Surface.Function, expand.Alike ⟨r, gs, [(none, f.name)]⟩
      (expander (r.functions.length + size + 1))) (fs : List Surface.Function)
    (done : Dictionary Specification) :
    Matches (fun s t => s = t ∧ s.resolver = r ∧ s.globals = gs) (functionsBy expand fs done)
      (functions fs done) := by
  have hfunction : ∀ f, Matches (fun s t => s = t ∧ s.resolver = r ∧ s.globals = gs)
      (functionBy expand f) (function f) := by
    rintro f s t ⟨rfl, rfl, rfl⟩
    obtain ⟨heq, hsetting⟩ := functionBy_alike (h f)
    have hfunction : function f s = functionBy expand f s := heq.symm
    rw [hfunction]
    exact ⟨.refl (fun _ => rfl) _, rfl, rfl, congrArg Setting.resolver hsetting,
      congrArg Setting.globals hsetting⟩
  induction fs generalizing done with
  | nil => exact .pure _
  | cons f fs ih =>
    rw [functionsBy, functions]
    split
    · exact (hfunction f).bind fun spec => ih _
    · exact ih _

end Compile

/-- A stack of functions being expanded, innermost first: no function is on it twice, and those
above the outermost one, the root, are among `keys`. -/
def ProperStack (keys stack : List (Option String × String)) : Prop :=
  stack ≠ [] ∧ stack.Nodup ∧ ∀ key ∈ stack.dropLast, key ∈ keys

instance (keys : List (Option String × String)) : DecidablePred (ProperStack keys) := fun stack =>
  inferInstanceAs (Decidable (stack ≠ [] ∧ stack.Nodup ∧ ∀ key ∈ stack.dropLast, key ∈ keys))

theorem ProperStack.root (keys : List (Option String × String)) (key : Option String × String) :
    ProperStack keys [key] :=
  ⟨cons_ne_nil _ _, nodup_singleton key, by simp⟩

theorem ProperStack.push {keys stack : List (Option String × String)}
    {key : Option String × String} (h : ProperStack keys stack) (hkey : key ∈ keys)
    (hnew : key ∉ stack) : ProperStack keys (key :: stack) := by
  refine ⟨cons_ne_nil _ _, nodup_cons.mpr ⟨hnew, h.2.1⟩, ?_⟩
  rw [dropLast_cons_of_ne_nil h.1]
  exact forall_mem_cons.mpr ⟨hkey, h.2.2⟩

namespace Surface.File

open Compile

/-- The specifications of a file, with calls expanded in a given way. -/
def compileBy (file : File) (expand : Expander) : Except CompileError (Dictionary Specification) :=
  let steps : Compile (Dictionary Specification) := do
    load file
    functionsBy expand file.functions []
  (steps {}).result

/-- The functions that a file loads and those of the library, by module and name, each once. -/
def keys (file : File) : List (Option String × String) :=
  Resolver.keys { functions := file.definitions }

/-- A file is compiled alike by all expanders that do the same with the calls of its functions. -/
theorem compileBy_eq {file : File} {expand : Expander}
    (h : ∀ f : Function,
      expand.Alike ⟨{ functions := file.definitions }, file.globals, [(none, f.name)]⟩
        (expander (file.definitions.length + size + 1))) :
    file.compileBy expand = file.compile := by
  unfold compileBy compile
  dsimp only
  cases hload : load file {} with
  | mk result s code =>
    cases result with
    | error e => rw [bind_of_error hload, bind_of_error hload]
    | ok u =>
      rw [bind_of_ok hload, bind_of_ok hload]
      obtain ⟨rfl, -⟩ := runs_load hload
      exact (functionsBy_matches h file.functions [] _ _ ⟨rfl, rfl, rfl⟩).1.eq

/-- Calls in a file are expanded no deeper than there are functions to expand, and always under a
stack of different functions: it makes no difference what happens otherwise. So a file is compiled
as if calls were expanded however deep they go, and a call of a function that is being expanded
is an error. -/
theorem compile_expansion_ends (file : File) :
    (∀ otherwise : Expander,
      file.compileBy (watched (ProperStack file.keys) otherwise file.keys.length) =
        file.compile) ∧
    file.compileBy expandAll = file.compile ∧
    (∀ span d args,
      expandAll span d args = unlessRecursive span d (expandWith expandAll span d args)) ∧
    ∀ s span name args d fit, s.resolver.resolve name args = .ok (.defined d, fit) →
      d.key ∈ s.callStack →
        call expandAll span name args s =
          ⟨.error (.recursiveCall span d.function.name), s, []⟩ := by
  refine ⟨?_, ?_, expandAll_eq, ?_⟩
  · intro otherwise
    refine compileBy_eq fun f => ?_
    exact watched_alike otherwise (fun key stack hkey hnew h => h.push hkey hnew) (.root _ _)
      (Setting.length_free_le _) (Setting.length_free_lt _)
  · refine compileBy_eq fun f name args d fit hresolve span => ?_
    exact (expandAll_alike (Setting.length_free_lt _) name args d fit hresolve span).symm
  · intro s span name args d fit hresolve hkey
    rw [call_of_defined hresolve, expandAll_eq, unlessRecursive_apply, if_pos hkey]

/-- A file and the error it is refused with, evaluated from the characters of a text. -/
def refused? (n size : Nat) (source : List Char) : Option (File × CompileError) :=
  match File.parseChars n size source with
  | .error _ => none
  | .ok file =>
    let steps : Compile (Dictionary Specification) := do
      Compile.load file
      Compile.functionsOf file.functions []
    match (steps {}).result with
    | .error e => some (file, e)
    | .ok _ => none

theorem of_refused? {n : Nat} {source : String} {file : File} {e : CompileError}
    (h : File.refused? n source.utf8ByteSize source.toList = some (file, e)) :
    File.parse n source = .ok file ∧ file.compile = .error e := by
  unfold File.refused? at h
  rw [← File.parse_eq] at h
  split at h
  · cases h
  · rename_i file' hfile
    simp only [← Compile.functions_eq] at h
    split at h
    · rename_i e' he
      cases h
      exact ⟨hfile, he⟩
    · cases h

/-- Functions that call each other, the first one by the name of an overload. -/
def evenOdd : String := "
function even(x: float): float {
    return odd(x, 1);
}

function odd(x: float, step: float): float {
    return even(x - step, step);
}

function even(x: float, step: float): float {
    return x + step;
}

mark parity(x: float) {
    emit { a: even(x) };
}
"

theorem refused_evenOdd :
    (refused? 0 evenOdd.utf8ByteSize evenOdd.toList).map Prod.snd =
      some (.recursiveCall ⟨0, 115, 135⟩ "even") := by
  rw [evenOdd, String.toList_ofList]
  decide +kernel

/-- A function without parameters that is being expanded. -/
def again : Definition := ⟨none, ⟨default, .function, "again", [], none, []⟩⟩

def expandingAgain : Compiler :=
  { resolver := { functions := [again] }, callStack := [again.key] }

theorem compile_expansion_ends_evenOdd : ∃ file fit,
    File.parse 0 evenOdd = .ok file ∧
    (∀ otherwise : Expander,
      file.compileBy (watched (ProperStack file.keys) otherwise file.keys.length) =
        .error (.recursiveCall ⟨0, 115, 135⟩ "even")) ∧
    expandingAgain.resolver.resolve "again" ⟨[], []⟩ = .ok (.defined again, fit) ∧
    again.key ∈ expandingAgain.callStack ∧
    ∀ span, call expandAll span "again" ⟨[], []⟩ expandingAgain =
      ⟨.error (.recursiveCall span "again"), expandingAgain, []⟩ := by
  obtain ⟨⟨file, e⟩, hrefused, rfl⟩ := Option.map_eq_some_iff.mp refused_evenOdd
  obtain ⟨hparse, hcompile⟩ := of_refused? hrefused
  obtain ⟨hends, -, -, hrecursive⟩ := file.compile_expansion_ends
  obtain ⟨fit, hresolve⟩ : ∃ fit, expandingAgain.resolver.resolve "again" ⟨[], []⟩ =
      .ok (.defined again, fit) := ⟨_, rfl⟩
  refine ⟨file, fit, hparse, fun otherwise => ?_, hresolve, List.mem_cons_self, fun span => ?_⟩
  · rw [hends otherwise, hcompile]
  · exact hrecursive expandingAgain span "again" ⟨[], []⟩ again fit hresolve List.mem_cons_self

end Surface.File

end DataMarks
