/-
  Marks that change after a platform has compiled them.

  As long as no parameter of a scale is called like an input or another parameter,
  what a platform holds of a compiled mark is at all times what it would hold if it
  compiled the mark now (`Stage.Consistent.calls`). So a mark that went through any
  calls looks on the platform like a new one that got the last call for each input
  only (`Stage.held_rebuilt`).
-/
import DataMarks.Proofs.MarkCalls
import Mathlib.Data.List.Nodup

namespace DataMarks

open Dictionary List Mark

variable {δ : Type}

open MarkCall

/-! ## What a platform holds -/

namespace Held

variable {bindings : Dictionary (Binding δ)} {n : String} {b : Binding δ}
variable {source : Source δ} {held : Held δ}

theorem mem_shared_iff :
    (n, source) ∈ shared bindings ↔
      ∃ b, (n, b) ∈ bindings ∧ b.isFunction = false ∧ b.source = source := by
  rw [shared, mem_map]
  constructor
  · rintro ⟨⟨m, b⟩, hb, h⟩
    cases h
    obtain ⟨hb, hf⟩ := mem_filter.mp hb
    exact ⟨b, hb, by simpa using hf, rfl⟩
  · rintro ⟨b, hb, hf, rfl⟩
    exact ⟨(n, b), mem_filter.mpr ⟨hb, by simpa using hf⟩, rfl⟩

/-- A new source in place of one for all data is a new value of a uniform. -/
theorem shared_replace (hb : b.isFunction = false)
    (hn : ∀ e ∈ bindings, e.1 = n → e.2.isFunction = false) :
    shared (bindings.replace n b) = (shared bindings).replace n b.source := by
  induction bindings with
  | nil => rfl
  | cons e bindings ih =>
    have ih := ih fun e' he' => hn e' (mem_cons_of_mem _ he')
    have he := hn e mem_cons_self
    obtain ⟨m, c⟩ := e
    rw [shared] at ih ⊢
    rw [replace_cons, shared, filter_cons, filter_cons]
    by_cases hm : m = n
    · have hc : c.isFunction = false := he hm
      simp only [hm, hb, hc, if_true, Bool.not_false, map_cons, ih]
      rw [replace_cons, if_pos rfl]
      rfl
    · simp only [hm, if_false]
      cases hc : c.isFunction with
      | true =>
        simp only [Bool.not_true, Bool.false_eq_true, if_false, ih]
        rfl
      | false =>
        simp only [Bool.not_false, if_true, map_cons, ih]
        rw [replace_cons, if_neg hm]
        rfl

theorem functions_replace (hb : b.isFunction = false)
    (hn : ∀ e ∈ bindings, e.1 = n → e.2.isFunction = false) :
    (bindings.replace n b).filter (fun (_, b) => b.isFunction) =
      bindings.filter fun (_, b) => b.isFunction := by
  induction bindings with
  | nil => rfl
  | cons e bindings ih =>
    have ih := ih fun e' he' => hn e' (mem_cons_of_mem _ he')
    have he := hn e mem_cons_self
    obtain ⟨m, c⟩ := e
    rw [replace_cons, filter_cons, filter_cons, ih]
    by_cases hm : m = n
    · have hc : c.isFunction = false := he hm
      simp only [hm, hb, hc, if_true, Bool.false_eq_true, if_false]
    · simp only [hm, if_false]

/-- Updates for names whose values are the same change nothing. -/
theorem foldl_receive_eq_self {events : List (Event δ)}
    (h : ∀ event ∈ events, receive (some held) event = some held) :
    events.foldl receive (some held) = some held := by
  induction events with
  | nil => rfl
  | cons event events ih =>
    rw [foldl_cons, h event mem_cons_self]
    exact ih fun event' he => h event' (mem_cons_of_mem _ he)

theorem receive_of_mem_update {event : Event δ} (he : event ∈ update n source)
    (h : held.set n source = held) : receive (some held) event = some held := by
  cases source with
  | function f => cases he
  | literal v =>
    cases mem_singleton.mp he
    exact congrArg some h
  | texture t =>
    cases mem_singleton.mp he
    exact congrArg some h

theorem receive_update (hs : source.isFunction = false) :
    (update n source).foldl receive (some held) = some (held.set n source) := by
  cases source with
  | literal v => rfl
  | texture t => rfl
  | function f => cases hs

end Held

variable {name n : String} {source : Source δ}

namespace Mark

variable {m : Mark δ} {p : Prepared δ}

/-- No parameter of a scale is called like an input or like another parameter. -/
def Distinct (m : Mark δ) : Prop :=
  (m.specification.inputs.keys ++ (scaleParameters m.bindings).map Parameter.name).Nodup

instance (m : Mark δ) : Decidable m.Distinct := inferInstanceAs (Decidable (List.Nodup _))

theorem Distinct.nodup_inputs (h : m.Distinct) : m.specification.inputs.keys.Nodup :=
  (nodup_append.mp h).1

theorem Distinct.name_ne (h : m.Distinct) (hn : n ∈ m.specification.inputs.keys) {q : Parameter δ}
    (hq : q ∈ scaleParameters m.bindings) : q.name ≠ n :=
  fun heq => (nodup_append.mp h).2.2 n hn q.name (mem_map_of_mem hq) heq.symm

theorem Distinct.eq_of_name_eq (h : m.Distinct) {q q' : Parameter δ}
    (hq : q ∈ scaleParameters m.bindings) (hq' : q' ∈ scaleParameters m.bindings)
    (heq : q.name = q'.name) : q = q' :=
  inj_on_of_nodup_map (nodup_append.mp h).2.1 hq hq' heq

/-- The bindings of a prepared mark are plain ones of the mark or those of parameters. -/
theorem prepared_owned (hd : m.bindings.keys.Nodup) (h : m.prepared = .ok p) :
    p.bindings.keys.Nodup ∧ ∀ b ∈ p.bindings, b ∈ plainBindings m.bindings ∨
      ∃ q ∈ scaleParameters m.bindings, b = (q.name, ⟨q.type, q.source⟩) := by
  obtain ⟨e, he, -, rfl⟩ := Specification.prepare_ok_iff.mp h
  have hplain : (plainBindings m.bindings).keys.Nodup := hd.sublist (keys_plainBindings_sublist _)
  exact Expansion.expandAll_owned hplain he

theorem mem_scaleEvents {event : Event δ} (he : event ∈ m.scaleEvents) :
    ∃ q ∈ scaleParameters m.bindings, event ∈ update q.name q.source := by
  obtain ⟨⟨n, b⟩, hb, he⟩ := mem_flatMap.mp he
  cases b with
  | plain _ => cases he
  | scaled s =>
    obtain ⟨p, hp, he⟩ := mem_flatMap.mp he
    exact ⟨p.within n, mem_scaleParameters_iff.mpr ⟨n, s, hb, p, hp, rfl⟩, he⟩

theorem keys_defaults_sublist (inputs : Dictionary Input) :
    (defaults inputs : Dictionary (MarkBinding δ)).keys.Sublist inputs.keys := by
  induction inputs with
  | nil => exact List.Sublist.slnil
  | cons e inputs ih =>
    obtain ⟨n, t, default⟩ := e
    cases default with
    | none => exact ih.cons n
    | some v => exact ih.cons_cons n

theorem inPlace_iff :
    m.inPlace name source = true ↔ ∃ live, m.live = some live ∧ m.isScaled name = false ∧
      m.shifts.contains name = false ∧ source.isFunction = false ∧
      live.prepared.isUniform name = true := by
  rw [inPlace]
  cases m.live with
  | none => simp
  | some live => simp [and_assoc]

theorem get?_ne_scaled (h : m.isScaled name = false) (s : Scaling δ) :
    m.bindings.get? name ≠ some (.scaled s) := by
  intro hs
  rw [isScaled, hs] at h
  cases h

end Mark

theorem scaleParameters_insert_plain {bindings : Dictionary (MarkBinding δ)} {b : Binding δ}
    (h : ∀ s, bindings.get? n ≠ some (.scaled s)) :
    scaleParameters (bindings.insert n (.plain b)) = scaleParameters bindings := by
  induction bindings with
  | nil => rfl
  | cons c bindings ih =>
    obtain ⟨m, c⟩ := c
    rw [Dictionary.insert]
    by_cases hm : m = n
    · rw [if_pos hm]
      cases c with
      | plain c => rfl
      | scaled s =>
        refine absurd ?_ (h s)
        rw [get?_cons, if_pos hm.symm]
    · rw [if_neg hm]
      refine congrArg (_ ++ ·) (ih fun s hs => h s ?_)
      rw [get?_cons, if_neg (Ne.symm hm), hs]

variable {p : Prepared δ}

theorem Prepared.isUniform_iff :
    p.isUniform n = true ↔ ∃ b, p.bindings.get? n = some b ∧ b.isFunction = false := by
  rw [Prepared.isUniform]
  cases p.bindings.get? n with
  | none => simp
  | some b => simp

/-- A prepared mark with another source for a name. -/
def Prepared.rebound (p : Prepared δ) (n : String) (b : Binding δ) : Prepared δ :=
  { p with bindings := p.bindings.replace n b }

namespace Prepared

variable {p : Prepared δ} {n : String} {b : Binding δ}

theorem isUniform_rebound (hn : p.isUniform n = true) (hb : b.isFunction = false) (k : String) :
    (p.rebound n b).isUniform k = p.isUniform k := by
  rw [isUniform, isUniform, rebound, get?_replace]
  by_cases hk : k = n
  · obtain ⟨c, hc, hf⟩ := isUniform_iff.mp hn
    simp only [hk, hc, if_true, Option.map_some, hb, hf]
  · simp only [hk, if_false]

theorem compiled_rebound {shader : Specification} (hd : p.bindings.keys.Nodup)
    (hn : p.isUniform n = true) (hb : b.isFunction = false) :
    Held.compiled (p.rebound n b) shader = (Held.compiled p shader).set n b.source := by
  obtain ⟨c, hc, hf⟩ := isUniform_iff.mp hn
  have hshared : ∀ e ∈ p.bindings, e.1 = n → e.2.isFunction = false := by
    rintro ⟨k, c'⟩ he rfl
    have hget := get?_of_mem hd he
    rw [hc] at hget
    cases hget
    exact hf
  rw [Held.compiled, Held.compiled, Held.set, rebound]
  dsimp only
  rw [Held.functions_replace hb hshared, Held.shared_replace hb hshared]

end Prepared

/-! ## Marks that are up to date -/

namespace Stage

/-- The platform holds what it would hold if it compiled the mark now, and the data that the mark
believes to be there. -/
structure Current (w : Stage δ) (live : Live δ) (p : Prepared δ) : Prop where
  prepared : w.mark.prepared = .ok p
  isUniform : ∀ n, live.prepared.isUniform n = p.isUniform n
  held : ∃ datasets, w.held = some ((Held.compiled p w.mark.shader).withData datasets) ∧
    ∀ ds, live.datasets = some ds → datasets = some ds ∧ ds = w.mark.datasets

structure Consistent (w : Stage δ) : Prop where
  noInstances : w.mark.instance? = none
  bound : w.mark.bindings.keys ⊆ w.mark.specification.inputs.keys
  nodup : w.mark.specification.inputs.keys.Nodup → w.mark.bindings.keys.Nodup
  current : w.mark.Distinct → ∀ live, w.mark.live = some live → ∃ p, w.Current live p

variable {w : Stage δ}
variable {m : Mark δ} {events : List (Event δ)} {live : Live δ}

theorem Consistent.new (spec shader : Specification) :
    (Stage.new spec shader : Stage δ).Consistent where
  noInstances := rfl
  bound := (keys_defaults_sublist spec.inputs).subset
  nodup h := h.sublist (keys_defaults_sublist spec.inputs)
  current _ _ h := by cases h

/-- Preparing leaves the platform with the mark as it is and with its data. -/
theorem Consistent.prepare (h : w.Consistent) (hd : w.mark.Distinct)
    (hp : w.mark.prepare = .ok (m, events)) :
    ∃ p live, w.mark.prepared = .ok p ∧
      m = { w.mark with live := some live } ∧ (∀ n, live.prepared.isUniform n = p.isUniform n) ∧
      live.datasets = some w.mark.datasets ∧
      events.foldl Held.receive w.held =
        some ((Held.compiled p w.mark.shader).withData (some w.mark.datasets)) := by
  obtain ⟨live, compiling, hc, rfl, rfl⟩ := prepare_ok_iff.mp hp
  rw [compile] at hc
  cases hl : w.mark.live with
  | none =>
    rw [hl] at hc
    obtain ⟨p, hprepared, hc⟩ := bind_ok.mp hc
    cases hc
    exact ⟨p, _, hprepared, rfl, fun _ => rfl, rfl, rfl⟩
  | some _ =>
    rw [hl] at hc
    cases hc
    obtain ⟨p, hcurrent⟩ := h.current hd live hl
    obtain ⟨datasets, hheld, hdata⟩ := hcurrent.held
    refine ⟨p, _, hcurrent.prepared, rfl, hcurrent.isUniform, ?_⟩
    rw [hheld, upload]
    cases hds : live.datasets with
    | none => exact ⟨rfl, rfl⟩
    | some ds =>
      obtain ⟨rfl, rfl⟩ := hdata ds hds
      exact ⟨rfl, rfl⟩

/-- A new source for all data, sent to the platform, keeps it up to date. -/
theorem Consistent.current_inPlace (h : w.Consistent) (hd : w.mark.Distinct) {i : Input}
    (hi : w.mark.specification.inputs.get? name = some i)
    (hplace : w.mark.inPlace name source = true) (hl : w.mark.live = some live) :
    ∃ p, Current ⟨w.mark.setBinding name (.plain ⟨i.type, source⟩),
      (update name source).foldl Held.receive w.held⟩ live p := by
  obtain ⟨live', hl', hscaled, hshift, hsource, huniform⟩ := inPlace_iff.mp hplace
  rw [hl] at hl'
  cases hl'
  obtain ⟨p, hcurrent⟩ := h.current hd live hl
  have hnodup := h.nodup hd.nodup_inputs
  have hname : name ∈ w.mark.specification.inputs.keys := mem_keys_of_get? hi
  obtain ⟨hpkeys, howned⟩ := prepared_owned hnodup hcurrent.prepared
  rw [hcurrent.isUniform] at huniform
  -- the name is bound on the platform, and by no parameter, so the mark has a plain binding for it
  obtain ⟨b, hb, -⟩ := Prepared.isUniform_iff.mp huniform
  have hplain : w.mark.bindings.get? name = some (.plain b) := by
    obtain hb | ⟨q, hq, heq⟩ := howned (name, b) (mem_of_get? hb)
    · exact get?_of_mem hnodup (mem_plainBindings_iff.mp hb)
    · exact absurd (congrArg Prod.fst heq).symm (hd.name_ne hname hq)
  have hprepared : (w.mark.setBinding name (.plain ⟨i.type, source⟩)).prepared =
      .ok (p.rebound name ⟨i.type, source⟩) := by
    have hshifts : w.mark.shifts.erase name = w.mark.shifts := by
      refine erase_of_not_mem_keys ?_
      rw [not_mem_keys_iff]
      simpa [Dictionary.contains] using hshift
    rw [prepared, setBinding]
    dsimp only
    rw [hshifts]
    exact Specification.prepare_rebound hnodup hplain (fun q hq => hd.name_ne hname hq)
      hcurrent.prepared
  obtain ⟨datasets, hheld, hdata⟩ := hcurrent.held
  refine ⟨p.rebound name ⟨i.type, source⟩, hprepared, fun n => ?_, datasets, ?_, hdata⟩
  · rw [hcurrent.isUniform, Prepared.isUniform_rebound huniform (b := ⟨i.type, source⟩) hsource]
  · show (update name source).foldl Held.receive w.held = _
    rw [hheld, Held.receive_update hsource, Prepared.compiled_rebound hpkeys huniform
      (b := ⟨i.type, source⟩) hsource]
    rfl

/-- Drawing sends the platform values that it has already. -/
theorem Consistent.drawing (h : w.Consistent) (hd : w.mark.Distinct) (hp : w.mark.prepared = .ok p)
    {held : Held δ} (hheld : held.uniforms = Held.shared p.bindings) (count : Nat) :
    (w.mark.drawing count).foldl Held.receive (some held) = some held := by
  obtain ⟨-, howned⟩ := prepared_owned (h.nodup hd.nodup_inputs) hp
  have hsame : ∀ q ∈ scaleParameters w.mark.bindings, held.set q.name q.source = held := by
    intro q hq
    rw [Held.set, hheld, replace_eq_self, ← hheld]
    rintro ⟨k, source⟩ hk rfl
    obtain ⟨b, hb, -, rfl⟩ := Held.mem_shared_iff.mp hk
    obtain hb | ⟨q', hq', heq⟩ := howned _ hb
    · have hkey : q.name ∈ w.mark.bindings.keys :=
        mem_map_of_mem (f := Prod.fst) (mem_plainBindings_iff.mp hb)
      exact absurd rfl (hd.name_ne (h.bound hkey) hq)
    · obtain ⟨hname, rfl⟩ := Prod.mk.inj heq
      rw [hd.eq_of_name_eq hq hq' hname]
  refine Held.foldl_receive_eq_self fun event he => ?_
  rw [Mark.drawing] at he
  obtain rfl | he := mem_cons.mp he
  · rfl
  obtain ⟨k, -, he⟩ := mem_flatMap.mp he
  have hinstance : w.mark.instanceEvents k = [] := by
    rw [instanceEvents, h.noInstances]
  rw [hinstance, nil_append, mem_append, mem_singleton] at he
  obtain he | rfl := he
  · obtain ⟨q, hq, he⟩ := mem_scaleEvents he
    exact Held.receive_of_mem_update he (hsame q hq)
  · rfl

theorem Consistent.current_prepare (h : w.Consistent) (hrun : w.mark.prepare = .ok (m, events))
    (hd : m.Distinct) (hl : m.live = some live) :
    ∃ p, Current ⟨m, events.foldl Held.receive w.held⟩ live p := by
  have hd' : w.mark.Distinct := by
    obtain ⟨_, _, -, hm, -⟩ := prepare_ok_iff.mp hrun
    rwa [hm] at hd
  obtain ⟨p, live', hp, rfl, huniform, hdata, hheld⟩ := h.prepare hd' hrun
  cases hl
  refine ⟨p, hp, huniform, _, hheld, fun ds hds => ?_⟩
  rw [hdata] at hds
  cases hds
  exact ⟨rfl, rfl⟩

/-- One call keeps the platform up to date. -/
theorem Consistent.current_run (h : w.Consistent) {c : MarkCall δ}
    (hrun : c.run w.mark = .ok (m, events)) (hd : m.Distinct) (hl : m.live = some live) :
    ∃ p, Current ⟨m, events.foldl Held.receive w.held⟩ live p := by
  cases c with
  | bind name source =>
    obtain ⟨i, hi, -, hm⟩ := bind_ok_iff.mp hrun
    rw [rebind] at hm
    split at hm
    · rename_i hplace
      cases hm
      refine h.current_inPlace ?_ hi hplace hl
      obtain ⟨-, -, hscaled, -⟩ := inPlace_iff.mp hplace
      rw [Mark.Distinct, setBinding] at hd
      rwa [scaleParameters_insert_plain (get?_ne_scaled hscaled)] at hd
    · cases hm
      cases hl
  | scale name s =>
    obtain ⟨_, -, -, hr⟩ := scale_ok_iff.mp hrun
    cases hr
    cases hl
  | data xs =>
    cases hrun
    obtain ⟨l, hl', rfl⟩ := Option.map_eq_some_iff.mp hl
    obtain ⟨p, hcurrent⟩ := h.current hd l hl'
    obtain ⟨datasets, hheld, -⟩ := hcurrent.held
    exact ⟨p, hcurrent.prepared, hcurrent.isUniform, datasets, hheld, fun _ hds => by cases hds⟩
  | prepare =>
    exact h.current_prepare hrun hd hl
  | render =>
    obtain ⟨preparing, hp, rfl⟩ := render_ok_iff.mp hrun
    obtain ⟨p, hcurrent⟩ := h.current_prepare hp hd hl
    obtain ⟨datasets, hheld, hdata⟩ := hcurrent.held
    obtain ⟨_, _, -, hm, -⟩ := prepare_ok_iff.mp hp
    have hdraw : ∀ count, m.drawing count = w.mark.drawing count := by
      rw [hm]
      exact fun _ => rfl
    have hd' : w.mark.Distinct := by rwa [hm] at hd
    have hp' : w.mark.prepared = .ok p := by
      have hprepared := hcurrent.prepared
      rwa [hm] at hprepared
    refine ⟨p, hcurrent.prepared, hcurrent.isUniform, datasets, ?_, hdata⟩
    have hheld : preparing.foldl Held.receive w.held = _ := hheld
    show (preparing ++ m.drawing _).foldl Held.receive w.held = _
    rw [foldl_append, hheld, hdraw]
    exact h.drawing hd' hp' rfl _

theorem Consistent.call (h : w.Consistent) (c : MarkCall δ) : (w.call c).Consistent := by
  cases hrun : c.run w.mark with
  | error e =>
    rw [call_of_error hrun]
    exact h
  | ok r =>
    obtain ⟨m, events⟩ := r
    rw [call_of_ok hrun]
    obtain ⟨live, hm⟩ := MarkCall.run_settles hrun
    rw [MarkCall.settle] at hm
    have hcurrent : m.Distinct → ∀ live, m.live = some live →
        ∃ p, Current ⟨m, events.foldl Held.receive w.held⟩ live p :=
      fun hd _ hl => h.current_run hrun hd hl
    cases hb : c.binding? w.mark.specification with
    | none =>
      rw [hb] at hm
      refine ⟨?_, ?_, ?_, hcurrent⟩
      · exact hm ▸ h.noInstances
      · exact hm ▸ h.bound
      · exact hm ▸ h.nodup
    | some nb =>
      obtain ⟨n, b⟩ := nb
      rw [hb] at hm
      have hn : n ∈ w.mark.specification.inputs.keys := MarkCall.mem_inputs_of_binding hb
      refine ⟨?_, ?_, ?_, hcurrent⟩
      · exact hm ▸ h.noInstances
      · rw [hm]
        intro k hk
        obtain rfl | hk := mem_keys_insert_iff.mp hk
        · exact hn
        · exact h.bound hk
      · rw [hm]
        exact fun hnodup => nodup_keys_insert (h.nodup hnodup)

/-- All calls keep the platform up to date. -/
theorem Consistent.calls (h : w.Consistent) (cs : List (MarkCall δ)) : (w.calls cs).Consistent := by
  induction cs generalizing w with
  | nil => exact h
  | cons c cs ih => exact ih (h.call c)

theorem calls_concat (w : Stage δ) (cs : List (MarkCall δ)) (c : MarkCall δ) :
    w.calls (cs ++ [c]) = (w.calls cs).call c := by
  rw [calls, foldl_append]
  rfl

/-- A prepared mark stands on the platform as if it had just been compiled. -/
theorem Consistent.held_prepare (h : w.Consistent) (hd : w.mark.Distinct)
    (hp : w.mark.prepared = .ok p) :
    (w.call .prepare).held =
      some ((Held.compiled p w.mark.shader).withData (some w.mark.datasets)) := by
  obtain ⟨m, events, hrun⟩ := prepare_of_prepared hp
  obtain ⟨p', _, hp', -, -, -, hheld⟩ := h.prepare hd hrun
  rw [hp] at hp'
  cases hp'
  rw [call_of_ok (c := .prepare) hrun]
  exact hheld

/-- A mark that went through any calls and is then prepared looks to the platform like a new mark
that gets only the last call for each input that did not fail, and the last data. Calls that fail
change neither the mark nor what the platform holds. -/
theorem held_rebuilt (spec shader : Specification) (cs : List (MarkCall δ)) {m : Mark δ}
    {events : List (Event δ)} (hd : ((new spec shader).calls cs).mark.Distinct)
    (hp : ((new spec shader).calls cs).mark.prepare = .ok (m, events)) :
    (∃ held, ((new spec shader).calls (cs ++ [.prepare])).held = some held ∧
      ((new spec shader).calls
        (condensed ((new spec shader).accepted cs) ++ [.prepare])).held = some held) ∧
    (new spec shader).calls ((new spec shader).accepted cs) = (new spec shader).calls cs := by
  have hnew : (new spec shader : Stage δ).Consistent := Consistent.new spec shader
  have hall := hnew.calls cs
  have hlast := hnew.calls (condensed ((new spec shader).accepted cs))
  obtain ⟨p, _, hprepared, -⟩ := hall.prepare hd hp
  obtain ⟨live, hmark⟩ := (new spec shader).calls_condensed cs
  have hheld := hall.held_prepare hd hprepared
  have hheld' := hlast.held_prepare (p := p) (hmark ▸ hd) (hmark ▸ hprepared)
  rw [hmark] at hheld'
  rw [calls_concat, calls_concat]
  exact ⟨⟨_, hheld, hheld'⟩, calls_accepted _ cs⟩

/-- Dots at a position, with a size. -/
def dots : Specification where
  inputs := [("x", ⟨.float, none⟩), ("size", ⟨.float, some (.scalar 1)⟩)]
  outputs := [("p", .float), ("s", .float)]
  locals := []
  statements := [.emit [("p", .var .float "x"), ("s", .var .float "size")]]

/-- A scale, sizes before and after the mark is compiled, a call that fails, and data. -/
def dotCalls : List (MarkCall Value) :=
  [.bind "size" (.number 2),
    .scale "x" (.continuous .linear .float Scaling.unitDomain (Scaling.unitRange .float)
      (.value (.function fun v _ => v))),
    .render, .bind "size" (.number 3), .bind "colour" (.number 4), .data [.scalar 5], .render,
    .bind "size" (.number 6)]

theorem held_rebuilt_dots :
    ((new dots dots).calls dotCalls).mark.Distinct ∧
    (∃ m events, ((new dots dots).calls dotCalls).mark.prepare = .ok (m, events)) ∧
    ∃ held, ((new dots dots).calls (dotCalls ++ [.prepare])).held = some held ∧
      ((new dots dots).calls
        (condensed ((new dots dots).accepted dotCalls) ++ [.prepare])).held = some held :=
  ⟨by decide, ⟨_, _, rfl⟩, (held_rebuilt dots dots dotCalls (by decide) rfl).1⟩

end Stage

end DataMarks
