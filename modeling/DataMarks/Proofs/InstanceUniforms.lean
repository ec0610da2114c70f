/-
  The values of uniforms while instances are drawn.

  A platform keeps the value of a uniform until it gets another one, and an instance sends
  the values that it has of its own before it is drawn. Nothing is sent back for the other
  uniforms. So an instance is drawn with its own values, and otherwise with the values that
  earlier instances have left on the platform, those of earlier renders included, until the
  input is bound or the mark is compiled again; the binding of the mark counts only where
  nothing was left (`Scene.drawn_values`, `Scene.drawn_left`).
-/
import DataMarks.Proofs.MarkUpdates

namespace DataMarks

open Dictionary List Mark

variable {δ : Type}

/-! ## Instances -/

namespace Mark

/-- The uniform values that an instance has of its own. -/
def attributes (m : Mark δ) (index : Nat) : Dictionary Value :=
  match m.instance?, m.data[index]? with
  | some f, some x => (f x index m.data).attrs
  | _, _ => []

/-- The values of the first instances, one after the other. -/
def attributesBefore (m : Mark δ) (count : Nat) : List (String × Value) :=
  (List.range count).flatMap m.attributes

/-- No input is bound to a scale. -/
def Unscaled (m : Mark δ) : Prop := ∀ n s, (n, MarkBinding.scaled s) ∉ m.bindings

variable {m : Mark δ} {p : Prepared δ}

theorem attributesBefore_succ (count : Nat) :
    m.attributesBefore (count + 1) = m.attributesBefore count ++ m.attributes count := by
  simp [attributesBefore, range_succ]

theorem instanceEvents_eq (m : Mark δ) (index : Nat) : ∃ notices : List (Event δ),
    m.instanceEvents index = (m.attributes index).map (fun a => .uniform a.1 a.2) ++ notices ∧
      ∀ event ∈ notices, event = .notify index := by
  rw [instanceEvents, attributes]
  cases m.instance? with
  | none => exact ⟨[], rfl, fun _ h => by cases h⟩
  | some f =>
    cases m.data[index]? with
    | none => exact ⟨[], rfl, fun _ h => by cases h⟩
    | some x =>
      refine ⟨_, rfl, fun event h => ?_⟩
      split at h
      · exact mem_singleton.mp h
      · cases h

theorem Unscaled.scaleEvents (h : m.Unscaled) : m.scaleEvents = [] := by
  refine eq_nil_iff_forall_not_mem.mpr fun event hevent => ?_
  obtain ⟨q, hq, -⟩ := mem_scaleEvents hevent
  obtain ⟨n, s, hn, -⟩ := mem_scaleParameters_iff.mp hq
  exact h n s hn

/-- Without scales there is nothing to expand. -/
theorem Unscaled.prepared_bindings (h : m.Unscaled) (hp : m.prepared = .ok p) :
    p.bindings = plainBindings m.bindings := by
  obtain ⟨e, he, -, rfl⟩ := Specification.prepare_ok_iff.mp hp
  exact Expansion.expandAll_keeps (P := fun e => e.bindings = plainBindings m.bindings)
    (fun n s hn => absurd hn (h n s)) rfl he

theorem Unscaled.bound_of_isUniform {n : String} (h : m.Unscaled) (hd : m.bindings.keys.Nodup)
    (hp : m.prepared = .ok p) (hn : p.isUniform n = true) :
    ∃ b, m.bindings.get? n = some (.plain b) ∧ b.isFunction = false := by
  obtain ⟨b, hb, hf⟩ := Prepared.isUniform_iff.mp hn
  rw [h.prepared_bindings hp] at hb
  exact ⟨b, get?_of_mem hd (mem_plainBindings_iff.mp (mem_of_get? hb)), hf⟩

theorem Unscaled.of_setBinding {name : String} {b : MarkBinding δ}
    (h : (m.setBinding name b).Unscaled) (hname : m.isScaled name = false)
    (hd : m.bindings.keys.Nodup) : m.Unscaled := by
  intro n s hn
  have hget := get?_of_mem hd hn
  have hne : n ≠ name := by
    rintro rfl
    exact get?_ne_scaled hname s hget
  refine h n s (mem_of_get? ?_)
  exact (get?_insert_of_ne hne _ _).trans hget

end Mark

/-! ## Draws -/

/-- Whether a request is the one to draw a dataset. -/
def Event.draws (k : Nat) : Event δ → Bool
  | .draw i => i == k
  | _ => false

/-- What a platform holds when it comes to draw dataset `k`. -/
def Held.whenDrawn (k : Nat) (held : Option (Held δ)) (events : List (Event δ)) :
    Option (Held δ) :=
  (events.takeWhile fun event => !event.draws k).foldl receive held

namespace Mark

variable {m : Mark δ} {k count : Nat}

theorem not_draws_of_mem_instanceEvents {index : Nat} {event : Event δ}
    (h : event ∈ m.instanceEvents index) : event.draws k = false := by
  obtain ⟨notices, hevents, hnotices⟩ := m.instanceEvents_eq index
  rw [hevents, mem_append] at h
  obtain h | h := h
  · obtain ⟨a, -, rfl⟩ := mem_map.mp h
    rfl
  · rw [hnotices event h]
    rfl

theorem not_draws_of_mem_scaleEvents {event : Event δ} (h : event ∈ m.scaleEvents) :
    event.draws k = false := by
  obtain ⟨q, -, h⟩ := mem_scaleEvents h
  cases hq : q.source with
  | literal v =>
    rw [hq] at h
    rw [mem_singleton.mp h]
    rfl
  | texture t =>
    rw [hq] at h
    rw [mem_singleton.mp h]
    rfl
  | function f =>
    rw [hq] at h
    cases h

theorem not_draws_of_prepare {m' : Mark δ} {events : List (Event δ)}
    (h : m.prepare = .ok (m', events)) {event : Event δ} (hevent : event ∈ events) :
    event.draws k = false := by
  obtain ⟨live, compiling, hc, -, rfl⟩ := prepare_ok_iff.mp h
  obtain hcompiling | huploading := mem_append.mp hevent
  · rw [compile] at hc
    cases hl : m.live with
    | some _ =>
      rw [hl] at hc
      cases hc
      cases hcompiling
    | none =>
      rw [hl] at hc
      obtain ⟨p, -, hc⟩ := bind_ok.mp hc
      cases hc
      rw [mem_singleton.mp hcompiling]
      rfl
  · rw [upload] at huploading
    cases hds : live.datasets with
    | some _ =>
      rw [hds] at huploading
      cases huploading
    | none =>
      rw [hds] at huploading
      rw [mem_singleton.mp huploading]
      rfl

/-- The requests for datasets up to one that is drawn. -/
theorem takeWhile_drawing (hk : k < count) :
    (m.drawing count).takeWhile (fun event => !event.draws k) =
      .render count :: ((List.range k).flatMap fun i =>
        m.instanceEvents i ++ m.scaleEvents ++ [.draw i]) ++ (m.instanceEvents k ++ m.scaleEvents) := by
  obtain ⟨rest, rfl⟩ : ∃ rest, count = k + (rest + 1) := ⟨count - k - 1, by omega⟩
  have hquiet : ∀ i, ∀ event ∈ m.instanceEvents i ++ m.scaleEvents, (!event.draws k) = true := by
    intro i event hevent
    obtain h | h := mem_append.mp hevent
    · rw [not_draws_of_mem_instanceEvents h]
      rfl
    · rw [not_draws_of_mem_scaleEvents h]
      rfl
  have hearlier : ∀ event ∈ (List.range k).flatMap (fun i =>
      m.instanceEvents i ++ m.scaleEvents ++ [.draw i]), (!event.draws k) = true := by
    intro event hevent
    obtain ⟨i, hi, hevent⟩ := mem_flatMap.mp hevent
    obtain h | h := mem_append.mp hevent
    · exact hquiet i event h
    · have hne : i ≠ k := Nat.ne_of_lt (mem_range.mp hi)
      simp [mem_singleton.mp h, Event.draws, hne]
  rw [drawing, takeWhile_cons_of_pos (by rfl), range_add, flatMap_append,
    takeWhile_append_of_pos hearlier, range_succ_eq_map, map_cons, flatMap_cons,
    show k + 0 = k from rfl, append_assoc, takeWhile_append_of_pos (hquiet k), singleton_append,
    takeWhile_cons_of_neg (by simp [Event.draws]), append_nil, cons_append]

end Mark

/-! ## What the platform shows -/

namespace Held

/-- Each input that all data share has on the platform what was left there for it, or else what it is
bound to. -/
def Shows (held : Held δ) (bindings : Dictionary (MarkBinding δ)) (left : Dictionary Value) :
    Prop :=
  ∀ u b, bindings.get? u = some (.plain b) → b.isFunction = false →
    held.uniforms.get? u = some (((left.get? u).map .literal).getD b.source)

variable {held : Held δ} {bindings : Dictionary (MarkBinding δ)} {left : Dictionary Value}

theorem Shows.withData (h : held.Shows bindings left) (datasets : Option (List (List δ))) :
    (held.withData datasets).Shows bindings left := h

theorem Shows.set (h : held.Shows bindings left) (n : String) (v : Value) :
    (held.set n (.literal v)).Shows bindings (left.insert n v) := by
  intro u b hu hb
  rw [Held.set, get?_replace, get?_insert]
  by_cases hn : u = n
  · subst hn
    simp [h u b hu hb]
  · simp [hn, h u b hu hb]

/-- A new binding takes the place of what was left. -/
theorem Shows.bind {n : String} {t : ValueType} {source : Source δ} {b' : Binding δ}
    (h : held.Shows bindings left) (hn : bindings.get? n = some (.plain b')) (hb' : b'.isFunction = false) :
    (held.set n source).Shows (bindings.insert n (.plain ⟨t, source⟩)) (left.erase n) := by
  intro u b hu hb
  rw [Held.set, get?_replace, get?_erase]
  rw [get?_insert] at hu
  by_cases hun : u = n
  · subst hun
    rw [if_pos rfl] at hu
    cases hu
    simp [h u b' hn hb']
  · rw [if_neg hun] at hu
    simp [hun, h u b hu hb]

theorem Shows.attributes (h : held.Shows bindings left) (attrs : List (String × Value)) :
    ∃ held', (attrs.map fun a => Event.uniform a.1 a.2).foldl receive (some held) = some held' ∧
      held'.Shows bindings (left.insertAll attrs) := by
  induction attrs generalizing held left with
  | nil => exact ⟨held, rfl, h⟩
  | cons a attrs ih => exact ih (h.set a.1 a.2)

variable {m : Mark δ}

theorem Shows.instance (h : held.Shows bindings left) (m : Mark δ) (index : Nat) :
    ∃ held', (m.instanceEvents index).foldl receive (some held) = some held' ∧
      held'.Shows bindings (left.insertAll (m.attributes index)) := by
  obtain ⟨notices, hevents, hnotices⟩ := m.instanceEvents_eq index
  obtain ⟨held', hset, hshows⟩ := h.attributes (m.attributes index)
  refine ⟨held', ?_, hshows⟩
  rw [hevents, foldl_append, hset]
  refine foldl_receive_eq_self fun event hevent => ?_
  rw [hnotices event hevent]
  rfl

/-- Each draw leaves the values of its instance on the platform. -/
theorem Shows.draws (h : held.Shows bindings left) (hm : m.Unscaled) (count : Nat) :
    ∃ held', ((List.range count).flatMap fun i =>
        m.instanceEvents i ++ m.scaleEvents ++ [.draw i]).foldl receive (some held) = some held' ∧
      held'.Shows bindings (left.insertAll (m.attributesBefore count)) := by
  induction count with
  | zero => exact ⟨held, rfl, h⟩
  | succ count ih =>
    obtain ⟨held₁, hfirst, hshows₁⟩ := ih
    obtain ⟨held₂, hlast, hshows₂⟩ := hshows₁.instance m count
    refine ⟨held₂, ?_, ?_⟩
    · rw [range_succ, flatMap_append, foldl_append, hfirst, flatMap_singleton,
        hm.scaleEvents, append_nil, foldl_append, hlast]
      rfl
    · rw [attributesBefore_succ, insertAll_append]
      exact hshows₂

theorem Shows.drawing (h : held.Shows bindings left) (hm : m.Unscaled) (count : Nat) :
    ∃ held', (m.drawing count).foldl receive (some held) = some held' ∧
      held'.Shows bindings (left.insertAll (m.attributesBefore count)) :=
  h.draws hm count

theorem Shows.whenDrawn {k count : Nat} (h : held.Shows bindings left) (hm : m.Unscaled)
    (hk : k < count) : ∃ held', Held.whenDrawn k (some held) (m.drawing count) = some held' ∧
      held'.Shows bindings (left.insertAll (m.attributesBefore (k + 1))) := by
  obtain ⟨held₁, hfirst, hshows₁⟩ := h.draws hm k
  obtain ⟨held₂, hown, hshows₂⟩ := hshows₁.instance m k
  refine ⟨held₂, ?_, ?_⟩
  · rw [Held.whenDrawn, takeWhile_drawing hk, cons_append, foldl_cons, foldl_append]
    show (m.instanceEvents k ++ m.scaleEvents).foldl receive (List.foldl receive (some held) _) = _
    rw [hfirst, hm.scaleEvents, append_nil, hown]
  · rw [attributesBefore_succ, insertAll_append]
    exact hshows₂

/-- A mark that was just compiled shows its bindings. -/
theorem shows_compiled {p : Prepared δ} {shader : Specification} (hm : m.Unscaled)
    (hd : m.bindings.keys.Nodup) (hp : m.prepared = .ok p) :
    (compiled p shader).Shows m.bindings [] := by
  intro u b hu hb
  have hplain : (plainBindings m.bindings).keys.Nodup := hd.sublist (keys_plainBindings_sublist _)
  have hmem : (u, b) ∈ plainBindings m.bindings := mem_plainBindings_iff.mpr (mem_of_get? hu)
  have hshared : (shared (plainBindings m.bindings)).keys.Nodup := by
    have hkeys : (shared (plainBindings m.bindings)).keys =
        Dictionary.keys ((plainBindings m.bindings).filter fun e => !e.2.isFunction) := by
      simp [shared, Dictionary.keys, Function.comp_def]
    rw [hkeys]
    exact hplain.sublist (filter_sublist.map Prod.fst)
  rw [compiled, hm.prepared_bindings hp]
  exact get?_of_mem hshared (mem_shared_iff.mpr ⟨b, hmem, hb, rfl⟩)

end Held

/-! ## Marks in use -/

/-- What can be done with a mark. -/
inductive MarkAct (δ : Type)
  | call (c : MarkCall δ)
  | instances (f : δ → Nat → List δ → Instance δ)

/-- A stage with the values that instances have left on the platform. -/
structure Scene (δ : Type) where
  stage : Stage δ
  left : Dictionary Value := []

namespace Scene

def new (spec shader : Specification) : Scene δ := { stage := Stage.new spec shader }

def mark (w : Scene δ) : Mark δ := w.stage.mark

/-- What is left once the mark is compiled: nothing if it had to be compiled for that. -/
def kept (w : Scene δ) : Dictionary Value := if w.mark.isCompiled then w.left else []

/-- What is left after a call that does not fail. -/
def leftAfter (w : Scene δ) : MarkCall δ → Dictionary Value
  | .bind n _ => w.left.erase n
  | .scale .. | .data _ => w.left
  | .prepare => w.kept
  | .render => w.kept.insertAll (w.mark.attributesBefore w.mark.datasets.length)

def act (w : Scene δ) : MarkAct δ → Scene δ
  | .call c =>
    match c.run w.mark with
    | .ok _ => { stage := w.stage.call c, left := w.leftAfter c }
    | .error _ => w
  | .instances f => { w with stage.mark := w.mark.setInstance f }

def acts (w : Scene δ) (as : List (MarkAct δ)) : Scene δ := as.foldl act w

/-- The mark knows which data are on the platform and, as long as no input is scaled, which inputs are
uniforms there; and the platform shows what was left and the bindings. -/
structure Faithful (w : Scene δ) : Prop where
  nodup : w.mark.bindings.keys.Nodup
  datasets : ∀ live, w.mark.live = some live → ∀ ds, live.datasets = some ds → ds = w.mark.datasets
  uniform : w.mark.Unscaled → ∀ live, w.mark.live = some live → ∀ n,
    live.prepared.isUniform n = true → ∃ b, w.mark.bindings.get? n = some (.plain b) ∧ b.isFunction = false
  shows : w.mark.Unscaled → ∀ live, w.mark.live = some live →
    ∃ held, w.stage.held = some held ∧ held.Shows w.mark.bindings w.left

variable {w : Scene δ} {m : Mark δ} {events : List (Event δ)}

theorem Faithful.new {spec : Specification} (shader : Specification)
    (h : spec.inputs.keys.Nodup) : (new spec shader : Scene δ).Faithful where
  nodup := h.sublist (keys_defaults_sublist spec.inputs)
  datasets _ hl := by cases hl
  uniform _ _ hl := by cases hl
  shows _ _ hl := by cases hl

/-- Preparing leaves the mark as it is but for what is compiled of it, with its data. -/
theorem Faithful.prepare (h : w.Faithful) (hp : w.mark.prepare = .ok (m, events)) :
    ∃ live, m = { w.mark with live := some live } ∧ live.datasets = some w.mark.datasets ∧
      (w.mark.Unscaled →
        (∀ n, live.prepared.isUniform n = true →
          ∃ b, w.mark.bindings.get? n = some (.plain b) ∧ b.isFunction = false) ∧
        ∃ held, events.foldl Held.receive w.stage.held = some held ∧
          held.Shows w.mark.bindings w.kept) := by
  obtain ⟨live, compiling, hc, rfl, rfl⟩ := prepare_ok_iff.mp hp
  rw [compile] at hc
  cases hl : w.mark.live with
  | none =>
    rw [hl] at hc
    obtain ⟨p, hprepared, hc⟩ := bind_ok.mp hc
    cases hc
    have hkept : w.kept = [] := by simp [kept, isCompiled, hl]
    refine ⟨_, rfl, rfl, fun hu => ⟨fun n => hu.bound_of_isUniform h.nodup hprepared, _, rfl, ?_⟩⟩
    rw [hkept]
    exact (Held.shows_compiled hu h.nodup hprepared).withData _
  | some _ =>
    rw [hl] at hc
    cases hc
    have hkept : w.kept = w.left := by simp [kept, isCompiled, hl]
    have hdata : (w.mark.upload live).1 = w.mark.datasets := by
      rw [upload]
      cases hds : live.datasets with
      | none => rfl
      | some ds => exact h.datasets live hl ds hds
    refine ⟨_, rfl, congrArg some hdata, fun hu => ⟨h.uniform hu live hl, ?_⟩⟩
    obtain ⟨held, hheld, hshows⟩ := h.shows hu live hl
    rw [hheld, hkept, upload]
    cases live.datasets with
    | none => exact ⟨_, rfl, hshows.withData _⟩
    | some ds => exact ⟨_, rfl, hshows⟩

/-- The platform through a render, up to a draw and to the end. -/
theorem Faithful.render (h : w.Faithful) (hr : w.mark.render = .ok (m, events))
    (hu : w.mark.Unscaled) :
    (∃ held, events.foldl Held.receive w.stage.held = some held ∧
      held.Shows w.mark.bindings (w.leftAfter .render)) ∧
    ∀ k < w.mark.datasets.length, ∃ held, Held.whenDrawn k w.stage.held events = some held ∧
      held.Shows w.mark.bindings (w.kept.insertAll (w.mark.attributesBefore (k + 1))) := by
  obtain ⟨preparing, hp, rfl⟩ := render_ok_iff.mp hr
  obtain ⟨live, rfl, hdata, hrest⟩ := h.prepare hp
  obtain ⟨-, held, hheld, hshows⟩ := hrest hu
  have hcount : ((some live).bind Live.datasets).getD [] = w.mark.datasets := by
    rw [Option.bind_some, hdata]
    rfl
  have hdrawing : ∀ count, ({ w.mark with live := some live } : Mark δ).drawing count =
      w.mark.drawing count := fun _ => rfl
  dsimp only
  rw [hcount, hdrawing]
  refine ⟨?_, fun k hk => ?_⟩
  · rw [foldl_append, hheld]
    exact hshows.drawing hu _
  · have hquiet : ∀ event ∈ preparing, (!event.draws k) = true := by
      intro event hevent
      rw [not_draws_of_prepare hp hevent]
      rfl
    rw [Held.whenDrawn, takeWhile_append_of_pos hquiet, foldl_append, hheld]
    exact hshows.whenDrawn hu hk

/-- The state after a bind, with what is compiled of the mark only where that can stay. -/
theorem Faithful.bind (h : w.Faithful) {name : String} {source : Source δ}
    (hrun : w.mark.bind name source = .ok (m, events)) :
    Faithful ⟨⟨m, events.foldl Held.receive w.stage.held⟩, w.left.erase name⟩ := by
  obtain ⟨i, -, -, hm⟩ := bind_ok_iff.mp hrun
  rw [rebind] at hm
  split at hm
  · rename_i hplace
    cases hm
    obtain ⟨live, hl, hscaled, -, hsource, hname⟩ := inPlace_iff.mp hplace
    refine ⟨nodup_keys_insert h.nodup, h.datasets, fun hu live' hl' n hn => ?_,
      fun hu live' hl' => ?_⟩
    · have hu' : w.mark.Unscaled := hu.of_setBinding hscaled h.nodup
      by_cases hne : n = name
      · subst hne
        exact ⟨⟨i.type, source⟩, get?_insert_self _ _ _, hsource⟩
      · obtain ⟨b, hb, hf⟩ := h.uniform hu' live' hl' n hn
        exact ⟨b, (get?_insert_of_ne hne _ _).trans hb, hf⟩
    · have hu' : w.mark.Unscaled := hu.of_setBinding hscaled h.nodup
      obtain ⟨b, hb, hf⟩ := h.uniform hu' live hl name hname
      obtain ⟨held, hheld, hshows⟩ := h.shows hu' live hl
      refine ⟨held.set name source, ?_, hshows.bind hb hf⟩
      show (update name source).foldl Held.receive w.stage.held = _
      rw [hheld, Held.receive_update hsource]
  · cases hm
    exact ⟨nodup_keys_insert h.nodup, fun _ hl => (by cases hl), fun _ _ hl => (by cases hl),
      fun _ _ hl => (by cases hl)⟩

/-- Data that are out of date make no difference to values. -/
theorem Faithful.outdate (h : w.Faithful) (hm : m.bindings = w.mark.bindings)
    (hl : m.live = w.mark.live.map fun l => { l with datasets := none }) :
    Faithful ⟨⟨m, w.stage.held⟩, w.left⟩ where
  nodup := hm ▸ h.nodup
  datasets live hlive ds hds := by
    obtain ⟨l, -, rfl⟩ := Option.map_eq_some_iff.mp (hl.symm.trans hlive)
    cases hds
  uniform hu live hlive n hn := by
    obtain ⟨l, hl', rfl⟩ := Option.map_eq_some_iff.mp (hl.symm.trans hlive)
    have hu' : w.mark.Unscaled := fun k s hk => hu k s (hm.symm ▸ hk)
    obtain ⟨b, hb, hf⟩ := h.uniform hu' l hl' n hn
    exact ⟨b, (congrArg (Dictionary.get? · n) hm).trans hb, hf⟩
  shows hu live hlive := by
    obtain ⟨l, hl', rfl⟩ := Option.map_eq_some_iff.mp (hl.symm.trans hlive)
    have hu' : w.mark.Unscaled := fun k s hk => hu k s (hm.symm ▸ hk)
    obtain ⟨held, hheld, hshows⟩ := h.shows hu' l hl'
    refine ⟨held, hheld, ?_⟩
    show held.Shows m.bindings w.left
    rwa [hm]

/-- A mark that is compiled with its data, on a platform that shows what is left and the bindings. -/
theorem Faithful.compiled (h : w.Faithful) {live : Live δ} {held : Option (Held δ)}
    {left : Dictionary Value} (hm : m = { w.mark with live := some live })
    (hdata : live.datasets = some w.mark.datasets)
    (huniform : w.mark.Unscaled → ∀ n, live.prepared.isUniform n = true →
      ∃ b, w.mark.bindings.get? n = some (.plain b) ∧ b.isFunction = false)
    (hshows : w.mark.Unscaled → ∃ held', held = some held' ∧ held'.Shows w.mark.bindings left) :
    Faithful ⟨⟨m, held⟩, left⟩ := by
  subst hm
  refine ⟨h.nodup, fun live' hl ds hds => ?_, fun hu live' hl => ?_, fun hu _ _ => hshows hu⟩
  · cases hl
    rw [hdata] at hds
    cases hds
    rfl
  · cases hl
    exact huniform hu

/-- One act keeps mark and platform in accord. -/
theorem Faithful.act (h : w.Faithful) (a : MarkAct δ) : (w.act a).Faithful := by
  cases a with
  | instances f => exact h.outdate rfl rfl
  | call c =>
    rw [Scene.act]
    cases hrun : c.run w.mark with
    | error e => exact h
    | ok r =>
      obtain ⟨m, events⟩ := r
      have hstage : w.stage.call c = ⟨m, events.foldl Held.receive w.stage.held⟩ :=
        Stage.call_of_ok hrun
      simp only [hstage]
      cases c with
      | bind name source => exact h.bind hrun
      | scale name s =>
        obtain ⟨i, -, -, hr⟩ := scale_ok_iff.mp hrun
        cases hr
        exact ⟨nodup_keys_insert h.nodup, fun _ hl => (by cases hl),
          fun _ _ hl => (by cases hl), fun _ _ hl => (by cases hl)⟩
      | data xs =>
        cases hrun
        exact h.outdate rfl rfl
      | prepare =>
        obtain ⟨live, hm, hdata, hrest⟩ := h.prepare hrun
        exact h.compiled hm hdata (fun hu => (hrest hu).1) fun hu => (hrest hu).2
      | render =>
        obtain ⟨preparing, hp, -⟩ := render_ok_iff.mp hrun
        obtain ⟨live, hm, hdata, hrest⟩ := h.prepare hp
        exact h.compiled hm hdata (fun hu => (hrest hu).1) fun hu => (h.render hrun hu).1

theorem Faithful.acts (h : w.Faithful) (as : List (MarkAct δ)) : (w.acts as).Faithful := by
  induction as generalizing w with
  | nil => exact h
  | cons a as ih => exact ih (h.act a)

/-- The value of a uniform when an instance is drawn, after anything that was done with a mark that has
no scales now. It is the instance's own value if the instance has one. If it has none, it is what the
mark has for the input now, as long as nothing was left on the platform and no instance before it in this
render has a value for the uniform; otherwise it is the value of the last instance that had one. -/
theorem drawn_values (spec shader : Specification) (as : List (MarkAct δ)) {w : Scene δ}
    {m : Mark δ} {events : List (Event δ)} {k : Nat} {u : String} {b : Binding δ}
    (hinputs : spec.inputs.keys.Nodup) (hw : w = (new spec shader).acts as) (hu : w.mark.Unscaled)
    (hr : w.mark.render = .ok (m, events)) (hk : k < w.mark.datasets.length)
    (hb : w.mark.bindings.get? u = some (.plain b)) (hf : b.isFunction = false) :
    ∃ held, Held.whenDrawn k w.stage.held events = some held ∧
      (∀ v, (Dictionary.ofEntries (w.mark.attributes k)).get? u = some v →
        held.uniforms.get? u = some (.literal v)) ∧
      (u ∉ (w.mark.attributes k).keys →
        (u ∉ Dictionary.keys (w.mark.attributesBefore k) → u ∉ w.kept.keys →
          held.uniforms.get? u = some b.source) ∧
        ∀ v, (w.kept.insertAll (w.mark.attributesBefore k)).get? u = some v →
          held.uniforms.get? u = some (.literal v)) := by
  have hfaithful : w.Faithful := hw ▸ (Faithful.new shader hinputs).acts as
  obtain ⟨held, hheld, hshows⟩ := (hfaithful.render hr hu).2 k hk
  have hvalue := hshows u b hb hf
  rw [Mark.attributesBefore_succ, Dictionary.insertAll_append, Dictionary.get?_insertAll] at hvalue
  have hown : u ∉ (w.mark.attributes k).keys →
      (Dictionary.ofEntries (w.mark.attributes k)).get? u = none := by
    intro hnone
    rwa [← Dictionary.not_mem_keys_iff, Dictionary.mem_keys_ofEntries]
  refine ⟨held, hheld, fun v hv => ?_, fun hnone => ⟨fun hbefore hkept => ?_, fun v hv => ?_⟩⟩
  · rw [hvalue, hv]
    rfl
  · rw [← Dictionary.mem_keys_ofEntries, Dictionary.not_mem_keys_iff] at hbefore
    rw [Dictionary.not_mem_keys_iff] at hkept
    rw [hvalue, hown hnone, Dictionary.get?_insertAll, hbefore, hkept]
    rfl
  · rw [hvalue, hown hnone, hv]
    rfl

/-- Dots that have a size of their own from the second on. -/
def grown : δ → Nat → List δ → Instance δ := fun x i _ =>
  { data := [x], attrs := if i = 0 then [] else [("size", .scalar 7)] }

/-- Dots of two data that were drawn, and then get another size. -/
def dotActs : List (MarkAct Value) :=
  [.call (.bind "x" (.function fun v _ => v)), .call (.data [.scalar 1, .scalar 2]), .instances grown,
    .call .render, .call (.bind "size" (.number 3))]

theorem drawn_values_dots : ∃ w m events held held' b,
    w = (new Stage.dots Stage.dots).acts dotActs ∧ Stage.dots.inputs.keys.Nodup ∧
    w.mark.Unscaled ∧ w.mark.render = .ok (m, events) ∧ 1 < w.mark.datasets.length ∧
    w.mark.bindings.get? "size" = some (.plain b) ∧ b.source = .number 3 ∧
    Held.whenDrawn 0 w.stage.held events = some held ∧
    held.uniforms.get? "size" = some (.number 3) ∧
    Held.whenDrawn 1 w.stage.held events = some held' ∧
    held'.uniforms.get? "size" = some (.number 7) := by
  obtain ⟨w, m, events, hw, hr, hb, hbindings, hcount, hown, hown', hkept⟩ : ∃ w m events,
      w = (new Stage.dots Stage.dots).acts dotActs ∧ w.mark.render = .ok (m, events) ∧
      w.mark.bindings.get? "size" = some (.plain ⟨.float, .number 3⟩) ∧
      w.mark.bindings = [("size", .plain ⟨.float, .number 3⟩),
        ("x", .plain ⟨.float, .function fun v _ => v⟩)] ∧
      w.mark.datasets.length = 2 ∧ w.mark.attributes 0 = [] ∧
      w.mark.attributes 1 = [("size", .scalar 7)] ∧ w.kept = [] :=
    ⟨_, _, _, rfl, rfl, rfl, rfl, rfl, rfl, rfl, rfl⟩
  have hu : w.mark.Unscaled := by
    intro n s hn
    rw [hbindings] at hn
    simp at hn
  obtain ⟨held, hheld, -, hother⟩ := drawn_values Stage.dots Stage.dots dotActs (k := 0) (by decide) hw hu
    hr (by omega) hb rfl
  obtain ⟨held', hheld', hsame, -⟩ := drawn_values Stage.dots Stage.dots dotActs (k := 1) (by decide) hw
    hu hr (by omega) hb rfl
  refine ⟨w, m, events, held, held', _, hw, by decide, hu, hr, by omega, hb, rfl, hheld, ?_, hheld', ?_⟩
  · exact (hother (by rw [hown]; decide)).1 List.not_mem_nil (by rw [hkept]; decide)
  · exact hsame (.scalar 7) (by rw [hown']; rfl)

/-- A mark with a uniform. -/
def bars : Specification where
  inputs := [("u", ⟨.float, some (.scalar 1)⟩)]
  outputs := [("a", .float)]
  locals := []
  statements := [.emit [("a", .var .float "u")]]

/-- One instance with a value for the uniform is drawn, and then there is one without. -/
def barActs : List (MarkAct Value) :=
  [.call (.data [.scalar 7]), .instances fun x _ _ => { data := [x], attrs := [("u", .scalar 5)] },
    .call .render, .instances fun x _ _ => { data := [x] }]

/-- An instance without a value for a uniform is drawn with the value that an instance of an earlier
render had, and not with the one that the mark has. -/
theorem drawn_left : ∃ w m events held b,
    w = (new bars bars).acts barActs ∧ w.mark.Unscaled ∧ w.mark.render = .ok (m, events) ∧
    w.mark.attributes 0 = [] ∧ w.mark.bindings.get? "u" = some (.plain b) ∧
    b.source = .number 1 ∧ Held.whenDrawn 0 w.stage.held events = some held ∧
    held.uniforms.get? "u" = some (.number 5) ∧ (5 : Float) ≠ 1 := by
  obtain ⟨w, m, events, held, hw, hbindings, hr, hown, hheld, hvalue⟩ : ∃ w m events held,
      w = (new bars bars).acts barActs ∧
      w.mark.bindings = [("u", .plain ⟨.float, .number 1⟩)] ∧
      w.mark.render = .ok (m, events) ∧ w.mark.attributes 0 = [] ∧
      Held.whenDrawn 0 w.stage.held events = some held ∧
      held.uniforms.get? "u" = some (.number 5) := ⟨_, _, _, _, rfl, rfl, rfl, rfl, rfl, rfl⟩
  have hu : w.mark.Unscaled := by
    intro n s hn
    rw [hbindings] at hn
    simp at hn
  exact ⟨w, m, events, held, ⟨.float, .number 1⟩, hw, hu, hr, hown, by rw [hbindings]; rfl, rfl, hheld,
    hvalue, by decide⟩

end Scene

end DataMarks
