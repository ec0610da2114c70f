/-
  Calls of a mark, and what a platform holds through them.

  A platform is followed through the requests it gets: it holds what a mark was
  compiled with, the last value of each name that is bound to no function, and the
  data. Whether a call fails depends on the specification alone, and what calls
  make of a mark depends on the last call for each input and on the last data
  (`Stage.calls_condensed`), but for what is compiled of it.
-/
import DataMarks.Proofs.ScaleExpansion

namespace DataMarks

open Dictionary List

variable {δ : Type}

/-! ## Platforms -/

/-- What a platform holds of a mark. -/
structure Held (δ : Type) where
  specification : Specification
  shader : Specification
  functions : Dictionary (Binding δ)
  shifts : Dictionary Shift
  /-- The present value of each name that is bound to no function. -/
  uniforms : Dictionary (Source δ)
  datasets : Option (List (List δ)) := none

namespace Held

/-- The sources of the names that are bound to no function. -/
def shared (bindings : Dictionary (Binding δ)) : Dictionary (Source δ) :=
  (bindings.filter fun (_, b) => !b.isFunction).map fun (n, b) => (n, b.source)

/-- Right after a mark is compiled. -/
def compiled (p : Prepared δ) (shader : Specification) : Held δ :=
  { specification := p.specification, shader
    functions := p.bindings.filter fun (_, b) => b.isFunction
    shifts := p.shifts
    uniforms := shared p.bindings }

/-- A value stays until the next one comes for its name; other names are ignored. -/
def set (h : Held δ) (name : String) (source : Source δ) : Held δ :=
  { h with uniforms := h.uniforms.replace name source }

def withData (h : Held δ) (datasets : Option (List (List δ))) : Held δ := { h with datasets }

/-- What a platform holds after a request. -/
def receive (held : Option (Held δ)) : Event δ → Option (Held δ)
  | .compile p shader => some (compiled p shader)
  | .uniform n v => held.map (·.set n (.literal v))
  | .texture n t => held.map (·.set n (.texture t))
  | .upload datasets => held.map (·.withData (some datasets))
  | .render _ | .notify _ | .draw _ => held

end Held

/-! ## Calls -/

/-- What can be asked of a mark without instances. -/
inductive MarkCall (δ : Type)
  | bind (name : String) (source : Source δ)
  | scale (name : String) (s : Scaling δ)
  | data (data : List δ)
  | prepare
  | render

namespace MarkCall

/-- What a call does, whether it fails or not. -/
def serve (m : Mark δ) : MarkCall δ → Change δ
  | bind name source => m.attr name source
  | scale name s => m.scale name s
  | data xs => { mark := m.setData xs }
  | prepare => m.preparing
  | render => m.rendering

def run (m : Mark δ) (c : MarkCall δ) : Except BindingError (Mark δ × List (Event δ)) :=
  (c.serve m).outcome

/-- The input that a call binds. -/
def name? : MarkCall δ → Option String
  | bind n _ | scale n _ => some n
  | data _ | prepare | render => none

def data? : MarkCall δ → Option (List δ)
  | data xs => some xs
  | bind .. | scale .. | prepare | render => none

/-- The calls for inputs, under the names of the inputs. -/
def filed (cs : List (MarkCall δ)) : List (String × MarkCall δ) :=
  cs.filterMap fun c => c.name?.map fun n => (n, c)

/-- The last data that calls give. -/
def dataOf (cs : List (MarkCall δ)) : Option (List δ) := (cs.filterMap data?).getLast?

/-- The last call for each input, in the order of the first calls, and the last call for data. -/
def condensed (cs : List (MarkCall δ)) : List (MarkCall δ) :=
  (Dictionary.ofEntries (filed cs)).map Prod.snd ++ ((dataOf cs).map data).toList

end MarkCall

variable {m : Mark δ} {cs : List (MarkCall δ)} {e : BindingError} {events : List (Event δ)}

namespace Change

variable {c : Change δ}

theorem outcome_ok_iff :
    c.outcome = .ok (m, events) ↔ c.result = .ok () ∧ c.mark = m ∧ c.events = events := by
  unfold outcome
  cases c.result <;> simp [Except.map]

theorem outcome_error_iff : c.outcome = .error e ↔ c.result = .error e := by
  unfold outcome
  cases c.result <;> simp [Except.map]

end Change

/-- A call that fails leaves the mark as it is and asks nothing of the platform. -/
theorem MarkCall.serve_of_error {c : MarkCall δ} :
    (c.serve m).result = .error e → (c.serve m).mark = m ∧ (c.serve m).events = [] := by
  have hpreparing : m.preparing.result = .error e →
      m.preparing.mark = m ∧ m.preparing.events = [] := by
    unfold Mark.preparing
    split
    · exact fun _ => ⟨rfl, rfl⟩
    · exact nofun
  cases c with
  | bind name source =>
    rw [serve, Mark.attr]
    split
    · exact fun _ => ⟨rfl, rfl⟩
    · dsimp only
      split <;> exact nofun
  | scale name s =>
    rw [serve, Mark.scale]
    split
    · exact fun _ => ⟨rfl, rfl⟩
    · split
      · exact nofun
      · exact fun _ => ⟨rfl, rfl⟩
  | data xs => exact nofun
  | prepare => exact hpreparing
  | render =>
    rw [serve, Mark.rendering]
    dsimp only
    split
    · exact hpreparing
    · rename_i hok
      intro h
      cases hok.symm.trans h

/-- A mark with what a platform holds of it. -/
structure Stage (δ : Type) where
  mark : Mark δ
  held : Option (Held δ) := none

variable {r : Mark δ × List (Event δ)}

namespace Stage

def new (spec shader : Specification) : Stage δ := { mark := Mark.new spec shader }

/-- A call, with the requests that it sends to the platform. -/
def call (w : Stage δ) (c : MarkCall δ) : Stage δ :=
  ⟨(c.serve w.mark).mark, (c.serve w.mark).events.foldl Held.receive w.held⟩

def calls (w : Stage δ) (cs : List (MarkCall δ)) : Stage δ := cs.foldl call w

/-- The calls that do not fail. -/
def accepted (w : Stage δ) : List (MarkCall δ) → List (MarkCall δ)
  | [] => []
  | c :: cs =>
    match c.run w.mark with
    | .ok _ => c :: accepted (w.call c) cs
    | .error _ => accepted w cs

variable {w : Stage δ} {c : MarkCall δ}

theorem call_of_ok {m : Mark δ} (h : c.run w.mark = .ok (m, events)) :
    w.call c = ⟨m, events.foldl Held.receive w.held⟩ := by
  obtain ⟨-, rfl, rfl⟩ := Change.outcome_ok_iff.mp h
  rfl

theorem call_of_error (h : c.run w.mark = .error e) : w.call c = w := by
  obtain ⟨hmark, hevents⟩ := MarkCall.serve_of_error (Change.outcome_error_iff.mp h)
  rw [call, hmark, hevents]
  rfl

theorem accepted_of_ok (h : c.run w.mark = .ok r) :
    w.accepted (c :: cs) = c :: (w.call c).accepted cs := by
  rw [accepted, h]

theorem accepted_of_error (h : c.run w.mark = .error e) : w.accepted (c :: cs) = w.accepted cs := by
  rw [accepted, h]

/-- Calls that fail might as well not have been made. -/
theorem calls_accepted (w : Stage δ) (cs : List (MarkCall δ)) :
    w.calls (w.accepted cs) = w.calls cs := by
  induction cs generalizing w with
  | nil => rfl
  | cons c cs ih =>
    cases h : c.run w.mark with
    | error e =>
      rw [accepted_of_error h, ih]
      show w.calls cs = (w.call c).calls cs
      rw [call_of_error h]
    | ok r =>
      rw [accepted_of_ok h]
      exact ih (w.call c)

end Stage

/-! ## What a call does -/

/-- Whether an input of a type can be bound to a source. -/
def Source.fits (t : ValueType) (source : Source δ) : Bool :=
  match source.literal? with
  | some v => t.accepts v
  | none => true

namespace Mark

variable {m m' : Mark δ} {name : String} {source : Source δ} {s : Scaling δ}
  {events : List (Event δ)}

/-- The mark with a binding, and with what is compiled of it only where that can stay. -/
def rebind (m : Mark δ) (name : String) (source : Source δ) (b : MarkBinding δ) :
    Mark δ × List (Event δ) :=
  if m.inPlace name source then (m.setBinding name b, update name source)
  else ({ m.setBinding name b with live := none }, [])

theorem bind_ok_iff :
    m.bind name source = .ok r ↔ ∃ i, m.specification.inputs.get? name = some i ∧
      source.fits i.type = true ∧ r = m.rebind name source (.plain ⟨i.type, source⟩) := by
  rw [bind, attr, plain, input]
  cases m.specification.inputs.get? name with
  | none => exact ⟨nofun, nofun⟩
  | some i =>
    simp only [Option.some.injEq, exists_eq_left', Source.fits, rebind]
    cases source.literal? with
    | none =>
      cases m.inPlace name source <;> simp [Bind.bind, Except.bind, Pure.pure, Except.pure,
        Change.outcome, Except.map, eq_comm (a := r)]
    | some v =>
      cases hv : i.type.accepts v <;> cases m.inPlace name source <;>
        simp [Bind.bind, Except.bind, Pure.pure, Except.pure, Change.outcome, Except.map, hv,
          eq_comm (a := r)]

theorem scale_ok_iff :
    (m.scale name s).outcome = .ok r ↔ ∃ i, m.specification.inputs.get? name = some i ∧
      s.returns = i.type ∧ r = ({ m.setBinding name (.scaled s) with live := none }, []) := by
  rw [scale, input]
  cases m.specification.inputs.get? name with
  | none => exact ⟨nofun, nofun⟩
  | some i =>
    simp only [Option.some.injEq, exists_eq_left']
    by_cases hs : s.returns = i.type <;> simp [Change.outcome, Except.map, hs, eq_comm (a := r)]

theorem bindScale_ok_iff :
    m.bindScale name s = .ok m' ↔ ∃ i, m.specification.inputs.get? name = some i ∧
      s.returns = i.type ∧ m' = { m.setBinding name (.scaled s) with live := none } := by
  have hr : m.bindScale name s = .ok m' ↔ (m.scale name s).outcome = .ok (m', []) := by
    rw [bindScale, scale]
    split
    · exact ⟨nofun, nofun⟩
    · split <;> simp [Change.outcome, Except.map]
  simp [hr, scale_ok_iff]

/-- Preparing compiles what is not compiled and uploads what is not uploaded. -/
theorem prepare_ok_iff :
    m.prepare = .ok (m', events) ↔ ∃ live compiling, m.compile = .ok (live, compiling) ∧
      m' = { m with live := some { live with datasets := some (m.upload live).1 } } ∧
      events = compiling ++ (m.upload live).2 := by
  rw [prepare, preparing, Change.outcome_ok_iff]
  cases m.compile with
  | error e => exact ⟨nofun, nofun⟩
  | ok r =>
    obtain ⟨live, compiling⟩ := r
    constructor
    · rintro ⟨-, rfl, rfl⟩
      exact ⟨live, compiling, rfl, rfl, rfl⟩
    · rintro ⟨live, compiling, hc, rfl, rfl⟩
      cases hc
      exact ⟨rfl, rfl, rfl⟩

/-- A mark whose scales can be expanded can be prepared. -/
theorem prepare_of_prepared {p : Prepared δ} (h : m.prepared = .ok p) :
    ∃ m' events, m.prepare = .ok (m', events) := by
  obtain ⟨live, compiling, hc⟩ : ∃ live compiling, m.compile = .ok (live, compiling) := by
    rw [compile]
    cases m.live with
    | some live => exact ⟨live, [], rfl⟩
    | none =>
      rw [h]
      exact ⟨{ prepared := p }, [.compile p m.shader], rfl⟩
  exact ⟨_, _, prepare_ok_iff.mpr ⟨live, compiling, hc, rfl, rfl⟩⟩

theorem render_ok_iff :
    m.render = .ok (m', events) ↔ ∃ preparing, m.prepare = .ok (m', preparing) ∧
      events = preparing ++ m'.drawing ((m'.live.bind Live.datasets).getD []).length := by
  simp only [render, rendering, prepare, Change.outcome_ok_iff]
  cases hr : m.preparing.result with
  | error e => simp [hr]
  | ok u =>
    constructor
    · rintro ⟨-, rfl, rfl⟩
      exact ⟨_, ⟨rfl, rfl, rfl⟩, rfl⟩
    · rintro ⟨_, ⟨-, rfl, rfl⟩, rfl⟩
      exact ⟨rfl, rfl, rfl⟩

end Mark

namespace MarkCall

/-- The binding that a call makes in a mark over a specification, if it does not fail. -/
def binding? (spec : Specification) : MarkCall δ → Option (String × MarkBinding δ)
  | bind n source => (spec.inputs.get? n).bind fun i =>
    if source.fits i.type then some (n, .plain ⟨i.type, source⟩) else none
  | scale n s => (spec.inputs.get? n).bind fun i =>
    if s.returns = i.type then some (n, .scaled s) else none
  | data _ | prepare | render => none

variable {m m' : Mark δ} {c : MarkCall δ} {spec : Specification} {n : String} {b : MarkBinding δ}

theorem binding?_cases (h : c.binding? spec = some (n, b)) :
    ∃ i, spec.inputs.get? n = some i ∧
      ((∃ source, c = bind n source ∧ source.fits i.type = true ∧ b = .plain ⟨i.type, source⟩) ∨
        ∃ s, c = scale n s ∧ s.returns = i.type ∧ b = .scaled s) := by
  cases c with
  | bind name source =>
    obtain ⟨i, hi, h⟩ := Option.bind_eq_some_iff.mp h
    obtain ⟨hfits, h⟩ := Option.ite_none_right_eq_some.mp h
    cases h
    exact ⟨i, hi, .inl ⟨source, rfl, hfits, rfl⟩⟩
  | scale name s =>
    obtain ⟨i, hi, h⟩ := Option.bind_eq_some_iff.mp h
    obtain ⟨hs, h⟩ := Option.ite_none_right_eq_some.mp h
    cases h
    exact ⟨i, hi, .inr ⟨s, rfl, hs, rfl⟩⟩
  | data _ => cases h
  | prepare => cases h
  | render => cases h

theorem mem_inputs_of_binding (h : c.binding? spec = some (n, b)) : n ∈ spec.inputs.keys := by
  obtain ⟨i, hi, -⟩ := binding?_cases h
  exact mem_keys_of_get? hi

theorem name?_of_binding (h : c.binding? spec = some (n, b)) :
    c.name? = some n ∧ c.data? = none := by
  obtain ⟨i, -, ⟨source, rfl, -⟩ | ⟨s, rfl, -⟩⟩ := binding?_cases h <;> exact ⟨rfl, rfl⟩

/-- A call that makes a binding does not fail. -/
theorem run_of_binding (h : c.binding? m.specification = some (n, b)) :
    ∃ live events, c.run m = .ok ({ m.setBinding n b with live }, events) := by
  obtain ⟨i, hi, ⟨source, rfl, hfits, rfl⟩ | ⟨s, rfl, hs, rfl⟩⟩ := binding?_cases h
  · have hrun : (bind n source).run m = _ := Mark.bind_ok_iff.mpr ⟨i, hi, hfits, rfl⟩
    rw [hrun, Mark.rebind]
    split
    · exact ⟨m.live, _, rfl⟩
    · exact ⟨none, _, rfl⟩
  · exact ⟨none, [], Mark.scale_ok_iff.mpr ⟨i, hi, hs, rfl⟩⟩

/-- A call for an input that does not fail makes a binding. -/
theorem binding_of_run (hn : c.name? = some n) (h : c.run m = .ok r) :
    ∃ b, c.binding? m.specification = some (n, b) := by
  cases c with
  | bind name source =>
    cases hn
    obtain ⟨i, hi, hfits, -⟩ := Mark.bind_ok_iff.mp h
    exact ⟨.plain ⟨i.type, source⟩, by rw [binding?, hi, Option.bind_some, if_pos hfits]⟩
  | scale name s =>
    cases hn
    obtain ⟨i, hi, hs, -⟩ := Mark.scale_ok_iff.mp h
    exact ⟨.scaled s, by rw [binding?, hi, Option.bind_some, if_pos hs]⟩
  | data _ => cases hn
  | prepare => cases hn
  | render => cases hn

/-- The mark after a call, but for what is compiled of it. -/
def settle (m : Mark δ) (c : MarkCall δ) : Mark δ :=
  match c.binding? m.specification with
  | some (n, b) => m.setBinding n b
  | none => { m with data := c.data?.getD m.data }

/-- What a call that does not fail leaves of a mark. -/
theorem run_settles (h : c.run m = .ok (m', events)) : ∃ live, m' = { c.settle m with live } := by
  rw [settle]
  cases hb : c.binding? m.specification with
  | some nb =>
    obtain ⟨live, events', h'⟩ := run_of_binding (n := nb.1) (b := nb.2) hb
    rw [h'] at h
    cases h
    exact ⟨live, rfl⟩
  | none =>
    cases c with
    | bind name source =>
      obtain ⟨b, hb'⟩ := binding_of_run rfl h
      rw [hb] at hb'
      cases hb'
    | scale name s =>
      obtain ⟨b, hb'⟩ := binding_of_run rfl h
      rw [hb] at hb'
      cases hb'
    | data xs =>
      cases h
      exact ⟨_, rfl⟩
    | prepare =>
      obtain ⟨live, _, -, rfl, -⟩ := Mark.prepare_ok_iff.mp h
      exact ⟨_, rfl⟩
    | render =>
      obtain ⟨_, hp, -⟩ := Mark.render_ok_iff.mp h
      obtain ⟨live, _, -, rfl, -⟩ := Mark.prepare_ok_iff.mp hp
      exact ⟨_, rfl⟩

/-- A call that fails makes no binding and gives no data. -/
theorem settings_of_error (h : c.run m = .error e) :
    c.binding? m.specification = none ∧ c.data? = none := by
  constructor
  · cases hb : c.binding? m.specification with
    | none => rfl
    | some nb =>
      obtain ⟨live, events, h'⟩ := run_of_binding (n := nb.1) (b := nb.2) hb
      rw [h'] at h
      cases h
  · cases c with
    | data xs => cases h
    | bind _ _ => rfl
    | scale _ _ => rfl
    | prepare => rfl
    | render => rfl

end MarkCall

theorem Stage.call_mark (w : Stage δ) (c : MarkCall δ) :
    ∃ live, (w.call c).mark = { c.settle w.mark with live } := by
  cases h : c.run w.mark with
  | error e =>
    obtain ⟨hb, hdata⟩ := MarkCall.settings_of_error h
    rw [Stage.call_of_error h, MarkCall.settle, hb, hdata]
    exact ⟨w.mark.live, rfl⟩
  | ok r =>
    obtain ⟨m, events⟩ := r
    rw [Stage.call_of_ok h]
    exact MarkCall.run_settles h

/-! ## Calls that count -/

/-- The mark with bindings made one after the other, and with the last data. -/
def Mark.settled (m : Mark δ) (bs : List (String × MarkBinding δ)) (data : Option (List δ)) :
    Mark δ :=
  { m with
    bindings := m.bindings.insertAll bs
    shifts := m.shifts.eraseAll bs
    data := data.getD m.data }

namespace MarkCall

/-- The bindings that calls make. -/
def bindingsOf (spec : Specification) (cs : List (MarkCall δ)) : List (String × MarkBinding δ) :=
  cs.filterMap (binding? spec)

end MarkCall

open MarkCall

theorem Stage.calls_mark (w : Stage δ) (cs : List (MarkCall δ)) :
    ∃ live, (w.calls cs).mark =
      { w.mark.settled (bindingsOf w.mark.specification cs) (dataOf cs) with live } := by
  induction cs generalizing w with
  | nil => exact ⟨w.mark.live, rfl⟩
  | cons c cs ih =>
    obtain ⟨live₁, h₁⟩ := w.call_mark c
    obtain ⟨live, h⟩ := ih (w.call c)
    refine ⟨live, h.trans ?_⟩
    rw [h₁, MarkCall.settle, bindingsOf, bindingsOf, dataOf, dataOf]
    cases hb : c.binding? w.mark.specification with
    | some nb =>
      rw [filterMap_cons_some hb, filterMap_cons_none (name?_of_binding hb).2]
      rfl
    | none =>
      rw [filterMap_cons_none hb]
      cases hd : c.data? with
      | none =>
        rw [filterMap_cons_none hd]
        rfl
      | some xs =>
        rw [filterMap_cons_some hd, getLast?_cons]
        rfl

theorem Stage.call_specification (w : Stage δ) (c : MarkCall δ) :
    (w.call c).mark.specification = w.mark.specification := by
  obtain ⟨live, h⟩ := w.call_mark c
  rw [h, MarkCall.settle]
  split <;> rfl

/-- The calls that fail make no bindings and give no data. -/
theorem Stage.settings_accepted (w : Stage δ) (cs : List (MarkCall δ)) :
    bindingsOf w.mark.specification (w.accepted cs) = bindingsOf w.mark.specification cs ∧
      dataOf (w.accepted cs) = dataOf cs := by
  suffices h : bindingsOf w.mark.specification (w.accepted cs) =
      bindingsOf w.mark.specification cs ∧ (w.accepted cs).filterMap data? = cs.filterMap data? from
    ⟨h.1, congrArg List.getLast? h.2⟩
  induction cs generalizing w with
  | nil => exact ⟨rfl, rfl⟩
  | cons c cs ih =>
    cases h : c.run w.mark with
    | ok r =>
      have ih := ih (w.call c)
      rw [w.call_specification c] at ih
      rw [Stage.accepted_of_ok h]
      simp only [bindingsOf, filterMap_cons] at ih ⊢
      rw [ih.1, ih.2]
      exact ⟨rfl, rfl⟩
    | error e =>
      obtain ⟨hb, hd⟩ := MarkCall.settings_of_error h
      rw [Stage.accepted_of_error h, bindingsOf, bindingsOf, filterMap_cons_none hb,
        filterMap_cons_none hd]
      exact ih w

variable {c : MarkCall δ} {n : String}

/-- A call for an input that does not fail makes a binding of that input. -/
theorem Stage.binding_of_accepted {w : Stage δ} (hc : c ∈ w.accepted cs) (hn : c.name? = some n) :
    ∃ b, c.binding? w.mark.specification = some (n, b) := by
  induction cs generalizing w with
  | nil => cases hc
  | cons d cs ih =>
    cases h : d.run w.mark with
    | error e =>
      rw [Stage.accepted_of_error h] at hc
      exact ih hc
    | ok r =>
      rw [Stage.accepted_of_ok h] at hc
      obtain rfl | hc := mem_cons.mp hc
      · exact binding_of_run hn h
      · have ih := ih hc
        rwa [w.call_specification d] at ih

/-- Calls that stand under the names of the inputs they bind. -/
def MarkCall.Filed (spec : Specification) (d : Dictionary (MarkCall δ)) : Prop :=
  ∀ e ∈ d, ∃ b, e.2.binding? spec = some (e.1, b)

variable {spec : Specification}

theorem MarkCall.bindingsOf_insert {d : Dictionary (MarkCall δ)} {b : MarkBinding δ}
    (hd : Filed spec d) (hc : c.binding? spec = some (n, b)) :
    bindingsOf spec ((d.insert n c).map Prod.snd) =
      Dictionary.insert n b (bindingsOf spec (d.map Prod.snd)) := by
  induction d with
  | nil =>
    rw [Dictionary.insert, map_cons, bindingsOf, filterMap_cons_some hc]
    rfl
  | cons e d ih =>
    obtain ⟨b', he⟩ := hd e mem_cons_self
    have ih := ih fun e' he' => hd e' (mem_cons_of_mem _ he')
    rw [bindingsOf] at ih
    rw [Dictionary.insert, map_cons, bindingsOf, bindingsOf, filterMap_cons_some he,
      Dictionary.insert]
    split
    · rw [map_cons, filterMap_cons_some hc]
    · rw [map_cons, filterMap_cons_some he, ih]
      rfl

theorem MarkCall.bindingsOf_append (spec : Specification) (cs ds : List (MarkCall δ)) :
    bindingsOf spec (cs ++ ds) = bindingsOf spec cs ++ bindingsOf spec ds := filterMap_append

theorem MarkCall.bindingsOf_ofEntries {es : List (String × MarkCall δ)} (hes : Filed spec es) :
    bindingsOf spec ((Dictionary.ofEntries es).map Prod.snd) =
        Dictionary.ofEntries (bindingsOf spec (es.map Prod.snd)) ∧
      Filed spec (Dictionary.ofEntries es) := by
  induction es using List.reverseRecOn with
  | nil => exact ⟨rfl, hes⟩
  | append_singleton es e ih =>
    obtain ⟨heq, hfiled⟩ := ih fun e' he' => hes e' (mem_append_left _ he')
    obtain ⟨b, hb⟩ := hes e (mem_append_right _ mem_cons_self)
    have hlast : bindingsOf spec [e.2] = [(e.1, b)] := by
      rw [bindingsOf, filterMap_cons_some hb]
      rfl
    rw [ofEntries_concat, map_append, bindingsOf_append, map_cons,
      map_nil, hlast, ofEntries_concat, bindingsOf_insert hfiled hb, heq]
    refine ⟨rfl, fun e' he' => ?_⟩
    obtain rfl | he' := eq_or_mem_of_mem_insert he'
    · exact ⟨b, hb⟩
    · exact hfiled e' he'

theorem MarkCall.mem_filed_iff : (n, c) ∈ filed cs ↔ c ∈ cs ∧ c.name? = some n := by
  rw [filed, mem_filterMap]
  constructor
  · rintro ⟨d, hd, h⟩
    obtain ⟨m, hm, h⟩ := Option.map_eq_some_iff.mp h
    cases h
    exact ⟨hd, hm⟩
  · rintro ⟨hc, hn⟩
    exact ⟨c, hc, by rw [hn]; rfl⟩

/-- Calls for no input make no bindings. -/
theorem MarkCall.bindingsOf_filed (spec : Specification) (cs : List (MarkCall δ)) :
    bindingsOf spec ((filed cs).map Prod.snd) = bindingsOf spec cs := by
  induction cs with
  | nil => rfl
  | cons c cs ih =>
    simp only [bindingsOf, filed] at ih ⊢
    cases hn : c.name? with
    | some n =>
      rw [filterMap_cons_some (by rw [hn]; rfl), map_cons, filterMap_cons, filterMap_cons, ih]
    | none =>
      have hb : c.binding? spec = none := by
        cases hb : c.binding? spec with
        | none => rfl
        | some nb =>
          have hname := (name?_of_binding hb).1
          rw [hn] at hname
          cases hname
      rw [filterMap_cons_none (by rw [hn]; rfl), filterMap_cons_none hb, ih]

/-- The condensed calls make the last binding of each input and give the last data. -/
theorem Stage.settings_condensed (w : Stage δ) (cs : List (MarkCall δ)) :
    bindingsOf w.mark.specification (condensed (w.accepted cs)) =
        Dictionary.ofEntries (bindingsOf w.mark.specification (w.accepted cs)) ∧
      dataOf (condensed (w.accepted cs)) = dataOf (w.accepted cs) := by
  have hfiled : Filed w.mark.specification (filed (w.accepted cs)) := by
    rintro ⟨n, c⟩ hc
    obtain ⟨hc, hn⟩ := mem_filed_iff.mp hc
    exact w.binding_of_accepted hc hn
  obtain ⟨hbindings, hlast⟩ := bindingsOf_ofEntries hfiled
  have hnodata :
      ((Dictionary.ofEntries (filed (w.accepted cs))).map Prod.snd).filterMap data? = [] := by
    rw [filterMap_eq_nil_iff]
    intro c hc
    obtain ⟨e, he, rfl⟩ := mem_map.mp hc
    obtain ⟨b, hb⟩ := hlast e he
    exact (name?_of_binding hb).2
  rw [condensed, bindingsOf_append, hbindings, bindingsOf_filed]
  constructor
  · cases dataOf (w.accepted cs) <;> exact append_nil _
  · rw [dataOf, filterMap_append, hnodata]
    cases dataOf (w.accepted cs) <;> rfl

/-- The condensed calls leave a mark as all calls leave it, but for what is compiled of it. -/
theorem Stage.calls_condensed (w : Stage δ) (cs : List (MarkCall δ)) :
    ∃ live, (w.calls (condensed (w.accepted cs))).mark = { (w.calls cs).mark with live } := by
  obtain ⟨live, h⟩ := w.calls_mark (condensed (w.accepted cs))
  obtain ⟨live', h'⟩ := w.calls_mark cs
  refine ⟨live, h.trans ?_⟩
  rw [h', (w.settings_condensed cs).1, (w.settings_condensed cs).2, (w.settings_accepted cs).1,
    (w.settings_accepted cs).2, Mark.settled, Mark.settled, insertAll_ofEntries, eraseAll_ofEntries]

end DataMarks
