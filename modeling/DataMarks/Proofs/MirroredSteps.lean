/-
  Steps of two compilations in scopes that mirror each other.

  `Compile.Tracks` says that one compilation does what another one does, wherever that one
  succeeds: it has the same result and writes the same code up to the forwarding of names. It
  may fail only where `bad` holds. There is a rule for each way to build a step, and a lemma
  for each of the small steps.
-/
import DataMarks.Proofs.MirroredScopes
import DataMarks.Proofs.SideBySide

namespace DataMarks

open List

namespace Forwarding

/-- The forwarded names that are those of constants. Nothing reads their variables. -/
def hidden (w : Forwarding) : List String :=
  w.formals.keys.filter fun x => (Catalog.constant? x).isSome

/-- Expressions that are the same up to the forwarding. -/
abbrev Same (w : Forwarding) : Expr → Expr → Prop := Expr.Renamed w.unique w.hidden

abbrev SameCode (w : Forwarding) : List Stmt → List Stmt → Prop := Stmt.Renamed w.unique w.hidden

/-- Two compilations in scopes that mirror each other. -/
structure States (w : Forwarding) (c c' : Setting) (k : Nat) (s t : Compiler) : Prop where
  scope : w.Mirrors k s.scope t.scope
  outputs : t.outputs = s.outputs
  setting : s.setting = c
  setting' : t.setting = c'

namespace States

variable {w : Forwarding} {c c' : Setting} {k : Nat} {s t : Compiler}

theorem withScope (h : w.States c c' k s t) {scope scope' : Scope} {k' : Nat}
    (hscope : w.Mirrors k' scope scope') :
    w.States c c' k' { s with scope } { t with scope := scope' } :=
  { h with scope := hscope }

theorem resolver (h : w.States c c' k s t) :
    s.resolver = c.resolver ∧ t.resolver = c'.resolver :=
  ⟨congrArg Setting.resolver h.setting, congrArg Setting.resolver h.setting'⟩

theorem callStack (h : w.States c c' k s t) :
    s.callStack = c.callStack ∧ t.callStack = c'.callStack :=
  ⟨congrArg Setting.callStack h.setting, congrArg Setting.callStack h.setting'⟩

end States

end Forwarding

namespace Compile

/-! ## Steps that lead somewhere -/

section Leads

variable {α β : Type} {bad : Prop} {t : Compiler}

/-- A step succeeds in a given way, or it fails and may do so. -/
def Leads (bad : Prop) (y : Compile β) (t : Compiler) (post : β → Compiler → List Stmt → Prop) :
    Prop :=
  (∃ b t' code, Runs y t b t' code ∧ post b t' code) ∨ bad ∧ ∃ e, (y t).result = .error e

variable {mid : α → Compiler → List Stmt → Prop} {post : β → Compiler → List Stmt → Prop}
variable {y : Compile α}

theorem Leads.of_runs {y : Compile β} {b : β} {t' : Compiler} {code : List Stmt}
    (h : Runs y t b t' code) (hpost : post b t' code) : Leads bad y t post :=
  .inl ⟨b, t', code, h, hpost⟩

theorem Leads.imp {y : Compile β} {post' : β → Compiler → List Stmt → Prop}
    (h : Leads bad y t post) (himp : ∀ b t' code, post b t' code → post' b t' code) :
    Leads bad y t post' := by
  rcases h with ⟨b, t', code, hy, hpost⟩ | hfails
  · exact .of_runs hy (himp b t' code hpost)
  · exact .inr hfails

theorem Leads.congr {y y' : Compile β} (heq : y t = y' t) (h : Leads bad y' t post) :
    Leads bad y t post := by
  unfold Leads Runs at h ⊢
  rwa [heq]

theorem Leads.bind {f : α → Compile β} (h : Leads bad y t mid) (hf : ∀ a t' code, mid a t' code →
      Leads bad (f a) t' fun b t'' code' => post b t'' (code ++ code')) :
    Leads bad (y >>= f) t post := by
  rcases h with ⟨a, t', code, hy, hmid⟩ | ⟨hbad, e, he⟩
  · rcases hf a t' code hmid with ⟨b, t'', code', hb, hpost⟩ | ⟨hbad, e, he⟩
    · exact .of_runs (runs_bind_iff.mpr ⟨a, t', code, code', hy, hb, rfl⟩) hpost
    · refine .inr ⟨hbad, e, ?_⟩
      rw [bind_of_ok hy]
      exact he
  · refine .inr ⟨hbad, e, ?_⟩
    cases hy : y t with
    | mk result t' code =>
      rw [hy] at he
      obtain rfl : result = .error e := he
      rw [bind_of_error hy]

theorem Leads.of_runs_bind {f : α → Compile β} {a : α} {t' : Compiler} {code : List Stmt}
    (h : Runs y t a t' code)
    (hf : Leads bad (f a) t' fun b t'' code' => post b t'' (code ++ code')) :
    Leads bad (y >>= f) t post :=
  Leads.bind (.of_runs h ⟨rfl, rfl, rfl⟩) (fun b u c (hb : b = a ∧ u = t' ∧ c = code) => by
    obtain ⟨rfl, rfl, rfl⟩ := hb
    exact hf)

theorem Leads.capture {y : Compile Unit} {mid : Unit → Compiler → List Stmt → Prop}
    (h : Leads bad y t mid) :
    Leads bad (capture y) t fun body t' code => mid () t' body ∧ code = [] := by
  rcases h with ⟨_, t', code, hy, hmid⟩ | ⟨hbad, e, he⟩
  · exact .of_runs (runs_capture_iff.mpr ⟨hy, rfl⟩) ⟨hmid, rfl⟩
  · refine .inr ⟨hbad, e, ?_⟩
    show (y t).result.map _ = _
    rw [he]
    rfl

theorem Leads.inFrame {formals : Dictionary String}
    (h : Leads bad y (t.push formals) mid) :
    Leads bad (inFrame formals y) t fun a t' code =>
      ∃ t₁, mid a t₁ code ∧ t' = t₁.pop := by
  rcases h with ⟨a, t₁, code, hy, hmid⟩ | ⟨hbad, e, he⟩
  · exact .of_runs (runs_inFrame_iff.mpr ⟨t₁, hy, rfl⟩) ⟨t₁, hmid, rfl⟩
  · exact .inr ⟨hbad, e, he⟩

theorem Leads.inBody {d : Definition} {formals : Dictionary String}
    (h : Leads bad y (t.enter d formals) mid) :
    Leads bad (inBody d formals y) t fun a t' code => ∃ t₁, mid a t₁ code ∧ t' = t₁.leave := by
  rcases h with ⟨a, t₁, code, hy, hmid⟩ | ⟨hbad, e, he⟩
  · exact .of_runs (runs_inBody_iff.mpr ⟨t₁, hy, rfl⟩) ⟨t₁, hmid, rfl⟩
  · exact .inr ⟨hbad, e, he⟩

end Leads

/-! ## Rules -/

section Rules

variable {α α' β β' : Type} {w : Forwarding} {bad : Prop} {R : Compiler → Compiler → Prop}

/-- Where `x` succeeds, `y` does the same from related states up to the forwarding, or it fails and
may do so. -/
def Tracks (w : Forwarding) (bad : Prop) (R : Compiler → Compiler → Prop) (Q : α → β → Prop)
    (x : Compile α) (y : Compile β) : Prop :=
  ∀ s t a s' code, R s t → Runs x s a s' code →
    Leads bad y t fun b t' code' => Q a b ∧ R s' t' ∧ w.SameCode code code'

variable {Q : α → β → Prop} {Q' : α' → β' → Prop}
variable {x : Compile α} {y : Compile β}

theorem Tracks.pure {a : α} {b : β} (h : Q a b) :
    Tracks w bad R Q (Pure.pure a) (Pure.pure b) := by
  intro s t a' s' code hst hrun
  obtain ⟨rfl, rfl, rfl⟩ := runs_pure_iff.mp hrun
  exact .of_runs (runs_pure_iff.mpr ⟨rfl, rfl, rfl⟩) ⟨h, hst, .nil⟩

theorem Tracks.fail (e : CompileError) (y : Compile β) :
    Tracks w bad R Q (fail e) y :=
  fun _ _ _ _ _ _ hrun => absurd hrun not_runs_fail

theorem Tracks.bind {f : α → Compile α'} {g : β → Compile β'} (hx : Tracks w bad R Q x y)
    (hf : ∀ a b, Q a b → Tracks w bad R Q' (f a) (g b)) :
    Tracks w bad R Q' (x >>= f) (y >>= g) := by
  intro s t a' s' code hst hrun
  obtain ⟨a, s₁, c₁, c₂, h₁, h₂, rfl⟩ := runs_bind_iff.mp hrun
  refine (hx s t a s₁ c₁ hst h₁).bind fun b t₁ c₁' h => ?_
  obtain ⟨hab, hst₁, hcode₁⟩ := h
  rcases hf a b hab s₁ t₁ a' s' c₂ hst₁ h₂ with ⟨b', t', c₂', hrun', hab', hst', hcode₂⟩ | hfails
  · exact .of_runs hrun' ⟨hab', hst', hcode₁.append hcode₂⟩
  · exact .inr hfails

/-- What follows may look at the states themselves. -/
theorem Tracks.state_bind {f : Compiler → Compile α} {g : Compiler → Compile β}
    (h : ∀ s t, R s t → Tracks w bad R Q (f s) (g t)) :
    Tracks w bad R Q (state >>= f) (state >>= g) := by
  intro s t a s' code hst hrun
  obtain ⟨_, s₁, c₁, c₂, h₁, h₂, rfl⟩ := runs_bind_iff.mp hrun
  obtain ⟨rfl, rfl, rfl⟩ := runs_state_iff.mp h₁
  exact h s₁ t hst s₁ t a s' c₂ hst h₂

theorem Tracks.update {f g : Compiler → Compiler} (h : ∀ s t, R s t → R (f s) (g t)) :
    Tracks w bad R (fun _ _ => True) (update f) (update g) := by
  intro s t a s' code hst hrun
  obtain ⟨rfl, rfl⟩ := runs_update_iff.mp hrun
  exact .of_runs (b := ()) (runs_update_iff.mpr ⟨rfl, rfl⟩) ⟨trivial, h s t hst, .nil⟩

theorem Tracks.write {st st' : Stmt} (h : w.SameCode [st] [st']) :
    Tracks w bad R (fun _ _ => True) (write st) (write st') := by
  intro s t a s' code hst hrun
  obtain ⟨rfl, rfl⟩ := runs_write_iff.mp hrun
  exact .of_runs (b := ()) (runs_write_iff.mpr ⟨rfl, rfl⟩) ⟨trivial, hst, h⟩

theorem Tracks.capture {x y : Compile Unit} {Q : Unit → Unit → Prop}
    (h : Tracks w bad R Q x y) :
    Tracks w bad R w.SameCode (capture x) (capture y) := by
  intro s t body s' code hst hrun
  obtain ⟨hx, rfl⟩ := runs_capture_iff.mp hrun
  rcases (h s t () s' body hst hx).capture with
    ⟨body', t', _, hrun', ⟨-, hst', hcode⟩, rfl⟩ | hfails
  · exact .of_runs hrun' ⟨hcode, hst', .nil⟩
  · exact .inr hfails

variable {c c' : Setting} {k : Nat}

theorem Tracks.inFrame {formals formals' : Dictionary String} (hformals : w.Sends formals formals')
    (h : Tracks w bad (w.States c c' (k + 1)) Q x y) :
    Tracks w bad (w.States c c' k) Q (inFrame formals x) (inFrame formals' y) := by
  intro s t a s' code hst hrun
  obtain ⟨s₁, hx, rfl⟩ := runs_inFrame_iff.mp hrun
  have hpush := hst.withScope (hst.scope.push hformals)
  rcases (h _ _ a s₁ code hpush hx).inFrame with
    ⟨b, _, code', hrun', t₁, ⟨hab, hst₁, hcode⟩, rfl⟩ | hfails
  · exact .of_runs hrun' ⟨hab, hst₁.withScope hst₁.scope.pop, hcode⟩
  · exact .inr hfails

theorem Tracks.inBlock (h : Tracks w bad (w.States c c' (k + 1)) Q x y) :
    Tracks w bad (w.States c c' k) Q (inBlock x) (inBlock y) :=
  h.inFrame .nil

theorem Tracks.inBody {d : Definition} {formals formals' : Dictionary String}
    (hformals : w.Sends formals formals')
    (h : Tracks w bad (w.States (c.enter d) (c'.enter d) (k + 1)) Q x y) :
    Tracks w bad (w.States c c' k) Q (inBody d formals x) (inBody d formals' y) := by
  intro s t a s' code hst hrun
  obtain ⟨s₁, hx, rfl⟩ := runs_inBody_iff.mp hrun
  have henter : w.States (c.enter d) (c'.enter d) (k + 1) (s.enter d formals)
      (t.enter d formals') :=
    { scope := hst.scope.push hformals
      outputs := hst.outputs
      setting := by rw [← hst.setting]; rfl
      setting' := by rw [← hst.setting']; rfl }
  rcases (h _ _ a s₁ code henter hx).inBody with
    ⟨b, _, code', hrun', t₁, ⟨hab, hst₁, hcode⟩, rfl⟩ | hfails
  · refine .of_runs hrun' ⟨hab, ?_, hcode⟩
    exact {
      scope := hst₁.scope.pop
      outputs := hst₁.outputs
      setting := Setting.of_enter hst₁.setting
      setting' := Setting.of_enter hst₁.setting' }
  · exact .inr hfails

end Rules

/-! ## Small steps -/

section Steps

variable {w : Forwarding} {bad : Prop} {R : Compiler → Compiler → Prop} {c c' : Setting} {k : Nat}

theorem valueType?_tracks (t : Option Surface.TypeName) :
    Tracks w bad R (fun a b => a = b) (valueType? t) (valueType? t) := by
  intro s t' a s' code hst hrun
  obtain ⟨ha, rfl, rfl⟩ := runs_valueType?_iff.mp hrun
  exact .of_runs (runs_valueType?_iff.mpr ⟨ha, rfl, rfl⟩) ⟨rfl, hst, .nil⟩

theorem coerce_tracks (span : Span) {e e' : Expr} (h : w.Same e e') (t : ValueType) :
    Tracks w bad R w.Same (coerce span e t) (coerce span e' t) := by
  have hcoerce := Expr.respects_renamed.coerce t h
  unfold coerce
  generalize e.coerce? t = r at hcoerce
  generalize e'.coerce? t = r' at hcoerce
  cases hcoerce with
  | none => exact .fail _ _
  | some hsame => exact .pure hsame.1

theorem access_tracks (span : Span) {e e' : Expr} (h : w.Same e e') (f : String) :
    Tracks w bad R w.Same (lift (e.access span f)) (lift (e'.access span f)) := by
  unfold Expr.access
  rw [h.type]
  split
  · exact .pure (h.field _ f)
  · exact .fail _ _

/-- Where names of a frame may be declared. -/
def Placed (w : Forwarding) (bad : Prop) (k : Nat) (names : List String) : Prop :=
  k = 0 → ∀ x ∈ names, x ∈ w.formals.keys → bad

theorem placed_succ (names : List String) : Placed w bad (k + 1) names := by
  intro hk
  omega

theorem declare_tracks (span : Span) {x : String} (hx : Name.Plain x)
    (hplaced : Placed w bad k [x]) (t : ValueType) :
    Tracks w bad (w.States c c' k) (fun y y' => y' = w.unique y) (declare span x t)
      (declare span x t) := by
  intro s u y s' code hst hrun
  obtain ⟨v, scope, hdeclare, rfl, rfl, rfl⟩ := runs_declare_iff.mp hrun
  rcases hst.scope.declare hx hdeclare with ⟨v', scope', hdeclare', hunique, hscope⟩ |
    ⟨⟨hk, hforwarded⟩, hdeclare'⟩
  · exact .of_runs (runs_declare_iff.mpr ⟨v', scope', hdeclare', rfl, rfl, rfl⟩)
      ⟨hunique, hst.withScope hscope, .nil⟩
  · refine .inr ⟨hplaced hk x (mem_singleton.mpr rfl) hforwarded, .duplicateDeclaration span x, ?_⟩
    have hstate : state u = ⟨.ok u, u, []⟩ := rfl
    rw [declare, bind_of_ok hstate, hdeclare']
    rfl

theorem temporary_tracks (t : ValueType) :
    Tracks w bad (w.States c c' k)
      (fun v v' => Scope.IsTemporary v.name ∧ v'.name = w.name v.name ∧
        v'.unique = w.unique v.unique) (temporary t) (temporary t) := by
  intro s u v s' code hst hrun
  obtain ⟨rfl, rfl, rfl⟩ := runs_temporary_iff.mp hrun
  obtain ⟨⟨i, hi⟩, hname, hunique, hscope⟩ := hst.scope.temporary t
  exact .of_runs (runs_temporary_iff.mpr ⟨rfl, rfl, rfl⟩)
    ⟨⟨⟨i, by rw [hi]⟩, hname, hunique⟩, hst.withScope hscope, .nil⟩

theorem variable_tracks (span : Span) {x : String} (hx : Name.Plain x) :
    Tracks w bad (w.States c c' k) (w.Found x) (variable_ span x) (variable_ span x) := by
  intro s t v s' code hst hrun
  obtain ⟨hget, rfl, rfl⟩ := runs_variable_iff.mp hrun
  have hfound := hst.scope.get? x
  rw [hget, w.name_plain hx] at hfound
  generalize hget' : t.scope.get? x = r at hfound
  cases hfound with
  | some hfound => exact .of_runs (runs_variable_iff.mpr ⟨hget', rfl, rfl⟩) ⟨hfound, hst, .nil⟩

theorem recordOutput_tracks (span : Span) (x : String) (t : ValueType) :
    Tracks w bad (w.States c c' k) (fun _ _ => True) (recordOutput span x t)
      (recordOutput span x t) := by
  refine Tracks.state_bind fun s u hsu => ?_
  rw [hsu.outputs]
  split
  · exact Tracks.update fun s₁ u₁ h => { h with outputs := by rw [h.outputs] }
  · split
    · exact .pure trivial
    · exact .fail _ _

theorem temporaries_tracks {ps : List Surface.Param} (hps : ∀ p ∈ ps, Name.Plain p.name)
    {es es' : List Expr} (hes : Forall₂ w.Same es es') {done done' : Dictionary String}
    (hdone : w.Sends done done') :
    Tracks w bad (w.States c c' k) w.Sends (temporaries (ps.zip es) done)
      (temporaries (ps.zip es') done') := by
  induction ps generalizing es es' done done' with
  | nil => exact .pure hdone
  | cons p ps ih =>
    rw [forall_mem_cons] at hps
    cases hes with
    | nil => exact .pure hdone
    | @cons e e' _ _ he hes =>
      rw [zip_cons_cons, zip_cons_cons, temporaries, temporaries, he.type]
      refine (temporary_tracks e.type).bind fun v v' h => ?_
      obtain ⟨htemporary, hname, hunique⟩ := h
      rw [hunique, hname]
      exact (Tracks.write (.assign v.unique he)).bind fun _ _ _ =>
        ih hps.2 hes (hdone.insert hps.1 htemporary)

end Steps

end Compile

end DataMarks
