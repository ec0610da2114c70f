/-
  Steps of a compilation taken side by side, whether they fail or not.

  `Matches R x y` says that from states related by `R` two steps have the same result and
  write the same statements, and that the states they leave are related again: it is
  `Relates` with equal errors. Inside a body the functions, the globals and the stack of
  functions being expanded stay as they are, also where a step fails (`Setting`). So a body is
  compiled alike with two expanders that do the same with every call its setting can give
  them (`stmts_alike`).
-/
import DataMarks.Proofs.RelatedSteps

namespace DataMarks

/-- What a step inside a body leaves as it is. -/
structure Setting where
  resolver : Resolver
  globals : List Surface.Global
  callStack : List (Option String × String)

def Compiler.setting (s : Compiler) : Setting := ⟨s.resolver, s.globals, s.callStack⟩

/-- The setting of the body of a function that is expanded. -/
def Setting.enter (c : Setting) (d : Definition) : Setting :=
  ⟨c.resolver.enter d.module, c.globals, d.key :: c.callStack⟩

/-- Behind the body, the setting is that of the call again. -/
theorem Setting.of_enter {c : Setting} {d : Definition} {s : Compiler} {scope : Scope}
    (h : s.setting = c.enter d) : Compiler.setting { s with
      scope
      resolver := s.resolver.exit
      callStack := s.callStack.tail } = c := by
  have hresolver : s.resolver = c.resolver.enter d.module := congrArg Setting.resolver h
  have hglobals : s.globals = c.globals := congrArg Setting.globals h
  have hstack : s.callStack = d.key :: c.callStack := congrArg Setting.callStack h
  simp [Compiler.setting, hresolver, hglobals, hstack, Resolver.exit, Resolver.enter]

namespace Compile

/-- Two steps do the same from related states, and leave related states. -/
abbrev Matches {α : Type} (R : Compiler → Compiler → Prop) (x y : Compile α) : Prop :=
  Relates Eq R x y

/-! ## Steps in one setting -/

section Settings

variable {α β : Type} {c : Setting}
variable {x y : Compile α}

/-- The same state in a setting. -/
def Same (c : Setting) (s t : Compiler) : Prop := s = t ∧ s.setting = c

/-- In a setting two steps do the same, and stay in the setting. -/
abbrev Alike (c : Setting) (x y : Compile α) : Prop := Matches (Same c) x y

theorem Alike.eq (h : Alike c x y) {s : Compiler} (hs : s.setting = c) : x s = y s := by
  obtain ⟨hresult, hcode, hstate, -⟩ := h s s ⟨rfl, hs⟩
  have hresult := hresult.eq
  cases hx : x s
  cases hy : y s
  simp_all

theorem Alike.setting (h : Alike c x y) {s : Compiler} (hs : s.setting = c) :
    (x s).state.setting = c :=
  (h s s ⟨rfl, hs⟩).2.2.2

theorem Alike.symm (h : Alike c x y) : Alike c y x := by
  rintro s t ⟨rfl, hs⟩
  obtain ⟨hresult, hcode, hstate, hsetting⟩ := h s s ⟨rfl, hs⟩
  exact ⟨hresult.eq ▸ .refl (fun _ => rfl) _, hcode.symm, hstate.symm, hstate ▸ hsetting⟩

theorem Alike.trans {z : Compile α} (hxy : Alike c x y) (hyz : Alike c y z) : Alike c x z := by
  rintro s t ⟨rfl, hs⟩
  obtain ⟨hresult, hcode, hstate, hsetting⟩ := hxy s s ⟨rfl, hs⟩
  obtain ⟨hresult', hcode', hstate', -⟩ := hyz s s ⟨rfl, hs⟩
  exact ⟨hresult.eq ▸ hresult', hcode.trans hcode', hstate.trans hstate', hsetting⟩

theorem Alike.state_bind {f g : Compiler → Compile β}
    (h : ∀ s, s.setting = c → Alike c (f s) (g s)) : Alike c (state >>= f) (state >>= g) := by
  rintro s t ⟨rfl, hs⟩
  exact h s hs s s ⟨rfl, hs⟩

theorem Alike.of_state {f : Compiler → Compile β} {y : Compile β}
    (h : ∀ s, s.setting = c → Alike c (f s) y) : Alike c (state >>= f) y := by
  rintro s t ⟨rfl, hs⟩
  exact h s hs s s ⟨rfl, hs⟩

theorem anyScope_same (c : Setting) : AnyScope (Same c) where
  scope := fun h => by rw [h.1]
  outputs := fun h => by rw [h.1]
  withScope := fun _ h => ⟨by rw [h.1], h.2⟩
  withOutputs := fun _ h => ⟨by rw [h.1], h.2⟩

theorem Alike.inFrame {formals : Dictionary String} (h : Alike c x y) :
    Alike c (inFrame formals x) (Compile.inFrame formals y) :=
  Relates.inFrame (anyScope_same c) h

theorem Alike.inBody {d : Definition} {formals : Dictionary String} (h : Alike (c.enter d) x y) :
    Alike c (inBody d formals x) (Compile.inBody d formals y) := by
  refine Relates.around ?_ h.inFrame ?_
  · rintro s t ⟨rfl, rfl⟩
    exact ⟨rfl, rfl⟩
  · rintro s t ⟨rfl, hs⟩
    exact ⟨rfl, Setting.of_enter hs⟩

theorem globalInputs_alike (gs : List Surface.Global) (done : Dictionary Input) :
    Alike c (globalInputs gs done) (globalInputs gs done) :=
  globalInputs_relates (fun _ => rfl) (anyScope_same c) gs done

theorem paramInputs_alike (ps : List Surface.Param) (done : Dictionary Input) :
    Alike c (paramInputs ps done) (paramInputs ps done) :=
  paramInputs_relates (fun _ => rfl) (anyScope_same c) ps done

end Settings

/-! ## Bodies -/

/-- Two expanders do the same with every call that a setting can give them. -/
def Expander.Alike (c : Setting) (expand expand' : Expander) : Prop :=
  ∀ name args d fit, c.resolver.resolve name args = .ok (.defined d, fit) →
    ∀ span, Compile.Alike c (expand span d fit.args) (expand' span d fit.args)

section Bodies

variable {c : Setting} {expand expand' : Expander} (hexpand : expand.Alike c expand')
include hexpand

theorem call_alike (span : Span) (name : String) (args : Arguments) :
    Alike c (call expand span name args) (call expand' span name args) := by
  refine Alike.state_bind fun s hs => ?_
  have hresolver : s.resolver = c.resolver := congrArg Setting.resolver hs
  dsimp only
  rw [hresolver]
  cases hresolve : c.resolver.resolve name args with
  | error e => exact .fail rfl
  | ok r =>
    obtain ⟨callee, fit⟩ := r
    cases callee with
    | intrinsic i => exact .pure _
    | defined d => exact hexpand name args d fit hresolve span

theorem expr_alike (e : Surface.Expr) : Alike c (expr expand e) (expr expand' e) :=
  expr_relates (fun _ => rfl) (anyScope_same c) (call_alike hexpand) e

theorem stmts_alike (ss : List Surface.Stmt) : Alike c (stmts expand ss) (stmts expand' ss) :=
  stmts_relates (fun _ => rfl) (anyScope_same c) (call_alike hexpand) ss

theorem body_alike (ss : List Surface.Stmt) : Alike c (body expand ss) (body expand' ss) :=
  body_relates (fun _ => rfl) (anyScope_same c) (call_alike hexpand) ss

end Bodies

/-- The body of a function is expanded in a setting of its own. -/
theorem expandWith_alike {c : Setting} {d : Definition} {inner inner' : Expander}
    (h : inner.Alike (c.enter d) inner') (span : Span) (args : List Expr) :
    Alike c (expandWith inner span d args) (expandWith inner' span d args) :=
  expandWith_relates (fun _ => rfl) (anyScope_same c)
    (fun _ => (body_alike h d.function.body).inBody) span args

end Compile

end DataMarks
