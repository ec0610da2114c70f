/-
  Where compiled code keeps the cells of a direct run.

  A layout gives each cell of a store the variable of the specification that stands for it.
  It fits a scope if a name that has a cell is found there as the variable of that cell
  (`Layout.Fits`), and an environment holds a store if these variables have the values of
  the cells (`Layout.Holds`). A layout keeps fitting while temporaries are made, follows
  declarations, and is replaced by one with parameters only when a call is expanded.
-/
import DataMarks.Proofs.DirectRun
import Mathlib.Data.List.Forall2

namespace DataMarks

open Dictionary List

namespace Direct

/-! ## Stores -/

namespace Store

variable {α : Type} {globals : Dictionary α} {fs : List (Dictionary α)} {s : Store α}
  {x : String} {a : α}
variable {f : Dictionary α}

/-- Something stands in a store under some name. -/
def Has (s : Store α) (a : α) : Prop :=
  (∃ x, s.globals.get? x = some a) ∨ ∃ f ∈ s.frames, ∃ x, f.get? x = some a

theorem Has.cons (h : Has ⟨globals, fs⟩ a) : Has ⟨globals, f :: fs⟩ a := by
  rcases h with h | ⟨g, hg, h⟩
  · exact .inl h
  · exact .inr ⟨g, mem_cons_of_mem _ hg, h⟩

theorem has_head (h : f.get? x = some a) : Has ⟨globals, f :: fs⟩ a :=
  .inr ⟨f, mem_cons_self, x, h⟩

theorem findIn_cases (h : findIn globals fs x = some a) :
    globals.get? x = some a ∨ ∃ f ∈ fs, f.get? x = some a := by
  induction fs with
  | nil => exact .inl h
  | cons f fs ih =>
    unfold findIn at h
    split at h
    · rename_i b hb
      cases h
      exact .inr ⟨f, mem_cons_self, hb⟩
    · rcases ih h with h | ⟨g, hg, h⟩
      · exact .inl h
      · exact .inr ⟨g, mem_cons_of_mem _ hg, h⟩

theorem has_of_findIn (h : findIn globals fs x = some a) : Has ⟨globals, fs⟩ a := by
  rcases findIn_cases h with h | ⟨f, hf, h⟩
  · exact .inl ⟨x, h⟩
  · exact .inr ⟨f, hf, x, h⟩

theorem findIn_cons_none (h : f.get? x = none) :
    findIn globals (f :: fs) x = findIn globals fs x := by
  rw [findIn, h]

theorem findIn_cons_some (h : f.get? x = some a) : findIn globals (f :: fs) x = some a := by
  rw [findIn, h]

theorem declare_eq (hs : s.frames = f :: fs) : s.declare x a = ⟨s.globals, f.insert x a :: fs⟩ := by
  rw [declare, hs]

end Store

/-! ## Layouts in scopes -/

/-- The variables that stand for the cells of a store. -/
abbrev Layout := Store Variable

/-- From each frame on, names with cells and names of globals are found in a scope as the layout
has them. -/
def Shows (outermost : Frame) (globals : Dictionary Variable) :
    List (Dictionary Variable) → List Frame → Prop
  | [], _ => True
  | f :: fs, inner =>
    (∀ x v, Store.findIn globals (f :: fs) x = some v →
      Scope.lookup outermost inner x = some v) ∧
    (∀ x v, globals.get? x = some v → Scope.lookup outermost inner x = some v) ∧
    Shows outermost globals fs inner.tail

/-- The unique name of a variable tells the frame, counted from outside, and the name there. -/
def Owned (owner : String → Option (Nat × String)) (globals : Dictionary Variable) :
    List (Dictionary Variable) → Prop
  | [] => ∀ x v, globals.get? x = some v → owner v.unique = some (0, x)
  | f :: fs =>
    (∀ x v, f.get? x = some v → owner v.unique = some (fs.length + 1, x)) ∧
    Owned owner globals fs

section Owned

variable {owner : String → Option (Nat × String)} {globals : Dictionary Variable}
  {fs : List (Dictionary Variable)} {v : Variable} {x : String}
variable {f : Dictionary Variable}

theorem Owned.level (h : Owned owner globals fs) (hv : Store.Has ⟨globals, fs⟩ v) :
    ∃ k ≤ fs.length, ∃ y, owner v.unique = some (k, y) := by
  induction fs with
  | nil =>
    rcases hv with ⟨y, hy⟩ | ⟨f, hf, -⟩
    · exact ⟨0, Nat.le_refl 0, y, h y v hy⟩
    · cases hf
  | cons f fs ih =>
    have hrest : Store.Has ⟨globals, fs⟩ v → ∃ k ≤ (f :: fs).length, ∃ y,
        owner v.unique = some (k, y) := by
      intro hv
      obtain ⟨k, hk, hy⟩ := ih h.2 hv
      exact ⟨k, Nat.le_succ_of_le hk, hy⟩
    rcases hv with hv | ⟨g, hg, y, hy⟩
    · exact hrest (.inl hv)
    · rcases mem_cons.mp hg with rfl | hg
      · exact ⟨_, Nat.le_refl _, y, h.1 y v hy⟩
      · exact hrest (.inr ⟨g, hg, y, hy⟩)

theorem Owned.nil (h : Owned owner globals fs) : Owned owner globals [] := by
  induction fs with
  | nil => exact h
  | cons f fs ih => exact ih h.2

/-- A variable further out is not one of a frame. -/
theorem Owned.unique_ne (h : Owned owner globals (f :: fs)) {w : Variable} (hv : f.get? x = some v)
    (hw : Store.Has ⟨globals, fs⟩ w) : w.unique ≠ v.unique := by
  intro heq
  obtain ⟨k, hk, y, hy⟩ := h.2.level hw
  rw [heq, h.1 x v hv] at hy
  have hlevel : fs.length + 1 = k := congrArg Prod.fst (Option.some.inj hy)
  omega

/-- Variables of one frame under different names are different. -/
theorem Owned.name_eq (h : Owned owner globals (f :: fs)) {y : String} {w : Variable}
    (hv : f.get? x = some v) (hw : f.get? y = some w) (heq : w.unique = v.unique) : y = x := by
  have hy := h.1 y w hw
  rw [heq, h.1 x v hv] at hy
  exact congrArg Prod.snd (Option.some.inj hy).symm

theorem Owned.congr {owner' : String → Option (Nat × String)} (h : Owned owner globals fs)
    (hagree : ∀ v, Store.Has ⟨globals, fs⟩ v → owner' v.unique = owner v.unique) :
    Owned owner' globals fs := by
  induction fs with
  | nil =>
    intro x v hx
    rw [hagree v (.inl ⟨x, hx⟩), h x v hx]
  | cons f fs ih =>
    refine ⟨?_, ih h.2 fun v hv => hagree v hv.cons⟩
    intro x v hx
    rw [hagree v (Store.has_head hx), h.1 x v hx]

/-- A variable with a new unique name can be put into a frame. -/
theorem Owned.insert (h : Owned owner globals (f :: fs))
    (hnew : ∀ w, Store.Has ⟨globals, f :: fs⟩ w → w.unique ≠ v.unique) :
    ∃ owner', Owned owner' globals (f.insert x v :: fs) := by
  refine ⟨fun u => if u = v.unique then some (fs.length + 1, x) else owner u, ?_, ?_⟩
  · intro y w hw
    rcases get?_insert_cases hw with ⟨rfl, rfl⟩ | hw
    · exact if_pos rfl
    · exact (if_neg (hnew w (Store.has_head hw))).trans (h.1 y w hw)
  · exact h.2.congr fun w hw => if_neg (hnew w hw.cons)

end Owned

/-- A layout that says what the names of a scope mean. -/
structure Layout.Fits (L : Layout) (s : Scope) : Prop where
  frames : L.frames ≠ []
  shows : Shows s.outermost L.globals L.frames s.inner
  owned : ∃ owner, Owned owner L.globals L.frames
  issued : ∀ v, L.Has v → v.unique ∈ s.issued.keys

namespace Layout.Fits

variable {L : Layout} {s s' : Scope} {x : String} {v : Variable}

theorem find? (h : L.Fits s) (hx : L.find? x = some v) : s.get? x = some v := by
  obtain ⟨f, fs, hf⟩ := exists_cons_of_ne_nil h.frames
  have hshows := h.shows
  rw [hf] at hshows
  rw [Store.find?, hf] at hx
  exact hshows.1 x v hx

theorem global (h : L.Fits s) (hx : L.globals.get? x = some v) : s.get? x = some v := by
  obtain ⟨f, fs, hf⟩ := exists_cons_of_ne_nil h.frames
  have hshows := h.shows
  rw [hf] at hshows
  exact hshows.2.1 x v hx

theorem step {s s' : Compiler} (h : L.Fits s.scope) (hinner : s.scope.inner ≠ [])
    (hstep : Compiler.Step [] s s') : L.Fits s'.scope where
  frames := h.frames
  shows := by
    obtain ⟨f, fs, hf⟩ := exists_cons_of_ne_nil h.frames
    obtain ⟨g, below, hg⟩ := exists_cons_of_ne_nil hinner
    obtain ⟨vars, hvars, -⟩ := hstep.inner g below hg
    have hshows := h.shows
    rw [hf] at hshows ⊢
    refine ⟨fun x v hx => hstep.get? hinner not_mem_nil (hshows.1 x v hx),
      fun x v hx => hstep.get? hinner not_mem_nil (hshows.2.1 x v hx), ?_⟩
    have hbelow := hshows.2.2
    rw [hg] at hbelow
    rw [hvars, hstep.outermost]
    exact hbelow
  owned := h.owned
  issued := fun v hv => hstep.keys_issued (h.issued v hv)

theorem push (h : L.Fits s) : Layout.Fits L.push (s.push []) where
  frames := cons_ne_nil _ _
  shows := ⟨fun _ _ hx => h.find? hx, fun _ _ hx => h.global hx, h.shows⟩
  owned := by
    obtain ⟨owner, howned⟩ := h.owned
    refine ⟨owner, ?_, howned⟩
    intro x v hx
    cases hx
  issued := by
    rintro v (hv | ⟨f, hf, x, hx⟩)
    · exact h.issued v (.inl hv)
    · rcases mem_cons.mp hf with rfl | hf
      · cases hx
      · exact h.issued v (.inr ⟨f, hf, x, hx⟩)

/-- A variable of the source goes into the current frame of both. -/
theorem declare (h : L.Fits s) (hinner : s.inner ≠ []) {t : ValueType}
    (hdeclare : s.declare x t = .ok (v, s')) (hglobal : L.globals.get? x = none) :
    Layout.Fits (L.declare x v) s' := by
  obtain ⟨f, fs, hf⟩ := exists_cons_of_ne_nil h.frames
  obtain ⟨g, below, hg⟩ := exists_cons_of_ne_nil hinner
  obtain ⟨-, rfl, -, hfree, rfl⟩ := Scope.declare_ok hg hdeclare
  obtain ⟨owner, howned⟩ := h.owned
  obtain ⟨globals, frames⟩ := L
  obtain rfl : frames = f :: fs := hf
  rw [Store.declare_eq rfl]
  have hshows := h.shows
  rw [hg] at hshows
  have hother : ∀ y, y ≠ v.name → Scope.lookup s.outermost
      ({ g with vars := g.vars.insert v.name v } :: below) y =
        Scope.lookup s.outermost (g :: below) y := by
    intro y hy
    exact Scope.lookup_congr (get?_insert_of_ne hy v g.vars)
  have hnew : ∀ w, Store.Has ⟨globals, f :: fs⟩ w → w.unique ≠ v.unique := by
    intro w hw heq
    exact (not_mem_keys_iff _ _).mpr hfree (heq ▸ h.issued w hw)
  exact {
    frames := cons_ne_nil _ _
    shows := by
      refine ⟨?_, ?_, hshows.2.2⟩
      · intro y w hw
        by_cases hy : y = v.name
        · subst hy
          rw [Store.findIn_cons_some (get?_insert_self _ v f)] at hw
          cases hw
          exact Scope.lookup_vars (get?_insert_self _ v g.vars)
        · rw [hother y hy]
          refine hshows.1 y w ?_
          rwa [Store.findIn, get?_insert_of_ne hy] at hw
      · intro y w hw
        rw [hother y, hshows.2.1 y w hw]
        rintro rfl
        rw [hglobal] at hw
        cases hw
    owned := howned.insert hnew
    issued := by
      have hgrows := keys_subset_insert v.unique v.type s.issued
      rintro w (hw | ⟨d, hd, y, hy⟩)
      · exact hgrows (h.issued w (.inl hw))
      · rcases mem_cons.mp hd with rfl | hd
        · rcases get?_insert_cases hy with ⟨-, rfl⟩ | hy
          · exact mem_keys_insert_self _ _ _
          · exact hgrows (h.issued w (Store.has_head hy))
        · exact hgrows (h.issued w (.inr ⟨d, mem_cons_of_mem _ hd, y, hy⟩)) }

/-- A function that is expanded sees the variables of its parameters, by the names that hold the
arguments, and the globals. -/
theorem callee (h : L.Fits s) {formals : Dictionary String} {params : Dictionary Variable}
    (hformals : ∀ x, formals.get? x = (params.get? x).map Variable.name)
    (hparams : ∀ x v, params.get? x = some v → s.get? v.name = some v)
    (hglobals : ∀ x v, L.globals.get? x = some v → params.get? x = none)
    (howned : ∃ owner, Owned owner L.globals [params])
    (hissued : ∀ x v, params.get? x = some v → v.unique ∈ s.issued.keys) :
    Layout.Fits ⟨L.globals, [params]⟩ (s.push formals) where
  frames := cons_ne_nil _ _
  shows := by
    have hglobal : ∀ x v, L.globals.get? x = some v →
        Scope.lookup s.outermost ({ formals } :: s.inner) x = some v := by
      intro x v hx
      have hformal := hformals x
      rw [hglobals x v hx] at hformal
      rw [Scope.lookup_below rfl hformal]
      exact h.global hx
    refine ⟨?_, hglobal, True.intro⟩
    intro x v hx
    cases hparam : params.get? x with
    | some w =>
      rw [Store.findIn_cons_some hparam] at hx
      cases hx
      have hformal := hformals x
      rw [hparam] at hformal
      have hlookup : Scope.lookup s.outermost ({ formals } :: s.inner) x =
          Scope.lookup s.outermost s.inner v.name := Scope.lookup_formals rfl hformal
      show Scope.lookup s.outermost ({ formals } :: s.inner) x = some v
      rw [hlookup]
      exact hparams x v hparam
    | none =>
      rw [Store.findIn_cons_none hparam] at hx
      exact hglobal x v hx
  owned := howned
  issued := by
    rintro v (hv | ⟨f, hf, x, hx⟩)
    · exact h.issued v (.inl hv)
    · obtain rfl := mem_singleton.mp hf
      exact hissued x v hx

end Layout.Fits

/-! ## Layouts in environments -/

/-- A variable stands for a cell: it has the cell's type and, once there is one, its value. -/
def CellHolds (env : Env) (v : Variable) (c : Cell) : Prop :=
  v.type = c.type ∧ ∀ w ∈ c.value, env.get? v.unique = some w

/-- Variables stand for the cells of a frame. -/
def FrameHolds (env : Env) (vars : Dictionary Variable) (cells : Dictionary Cell) : Prop :=
  ∀ x, Option.Rel (CellHolds env) (vars.get? x) (cells.get? x)

namespace FrameHolds

variable {env env' : Env} {vars : Dictionary Variable} {cells : Dictionary Cell} {x : String}
  {v : Variable} {c : Cell}

theorem nil : FrameHolds env [] [] := fun _ => .none

theorem insert (h : FrameHolds env vars cells) (hc : CellHolds env v c) :
    FrameHolds env (vars.insert x v) (cells.insert x c) := by
  intro y
  rw [get?_insert, get?_insert]
  split
  · exact .some hc
  · exact h y

theorem congr (h : FrameHolds env vars cells)
    (hkept : ∀ x v, vars.get? x = some v → env'.get? v.unique = env.get? v.unique) :
    FrameHolds env' vars cells := by
  intro x
  have hx := h x
  have hv := hkept x
  generalize vars.get? x = o at hx hv
  generalize cells.get? x = p at hx
  cases hx with
  | none => exact .none
  | some hcell =>
    refine .some ⟨hcell.1, fun w hw => ?_⟩
    rw [hv _ rfl]
    exact hcell.2 w hw

/-- A value is assigned to one of the variables. -/
theorem assign (h : FrameHolds env vars cells) (hx : vars.get? x = some v)
    (hother : ∀ y w, vars.get? y = some w → w.unique = v.unique → y = x) {a : Value} :
    FrameHolds (env.insert v.unique a) vars (cells.insert x ⟨v.type, some a⟩) := by
  intro y
  rw [get?_insert]
  split
  · rename_i hy
    rw [hy, hx]
    refine .some ⟨rfl, fun w hw => ?_⟩
    cases hw
    exact get?_insert_self _ _ _
  · rename_i hy
    have hrel := h y
    have hne := hother y
    generalize vars.get? y = o at hrel hne
    generalize cells.get? y = p at hrel
    cases hrel with
    | none => exact .none
    | some hcell =>
      refine .some ⟨hcell.1, fun w hw => ?_⟩
      rw [get?_insert_of_ne fun heq => hy (hne _ rfl heq)]
      exact hcell.2 w hw

end FrameHolds

/-- An environment holds the values of a store where a layout has them. -/
structure Layout.Holds (L : Layout) (env : Env) (s : Store Cell) : Prop where
  globals : FrameHolds env L.globals s.globals
  frames : Forall₂ (FrameHolds env) L.frames s.frames

namespace Layout.Holds

variable {L : Layout} {env env' : Env} {s : Store Cell} {x : String} {v : Variable} {c : Cell}

theorem congr (h : L.Holds env s)
    (hkept : ∀ v, L.Has v → env'.get? v.unique = env.get? v.unique) : L.Holds env' s where
  globals := h.globals.congr fun x v hx => hkept v (.inl ⟨x, hx⟩)
  frames := by
    obtain ⟨globals, frames⟩ := L
    obtain ⟨cells, stores⟩ := s
    have hframes : Forall₂ (FrameHolds env) frames stores := h.frames
    have hall : ∀ f ∈ frames, ∀ x v, f.get? x = some v →
        env'.get? v.unique = env.get? v.unique :=
      fun f hf x v hx => hkept v (.inr ⟨f, hf, x, hx⟩)
    clear hkept h
    induction hframes with
    | nil => exact .nil
    | cons hf _ ih =>
      refine .cons (hf.congr (hall _ mem_cons_self)) ?_
      exact ih fun f hf => hall f (mem_cons_of_mem _ hf)

theorem find? (h : L.Holds env s) (x : String) :
    Option.Rel (CellHolds env) (L.find? x) (s.find? x) := by
  obtain ⟨globals, frames⟩ := L
  obtain ⟨cells, stores⟩ := s
  have hglobals : FrameHolds env globals cells := h.globals
  have hframes : Forall₂ (FrameHolds env) frames stores := h.frames
  show Option.Rel _ (Store.findIn globals frames x) (Store.findIn cells stores x)
  clear h
  induction hframes with
  | nil => exact hglobals x
  | @cons f d fs ds hf _ ih =>
    have hx := hf x
    unfold Store.findIn
    generalize f.get? x = o at hx ⊢
    generalize d.get? x = p at hx ⊢
    cases hx with
    | none => exact ih
    | some hcell => exact .some hcell

theorem push (h : L.Holds env s) : Layout.Holds L.push env s.push where
  globals := h.globals
  frames := .cons .nil h.frames

theorem pop (h : L.Holds env s) : Layout.Holds L.pop env s.pop where
  globals := h.globals
  frames := by
    have hframes := h.frames
    unfold Store.pop
    generalize L.frames = fs at hframes ⊢
    generalize s.frames = ds at hframes ⊢
    cases hframes with
    | nil => exact .nil
    | cons _ htail => exact htail

theorem declare (h : L.Holds env s) (hc : CellHolds env v c) :
    Layout.Holds (L.declare x v) env (s.declare x c) := by
  obtain ⟨globals, frames⟩ := L
  obtain ⟨cells, stores⟩ := s
  have hframes : Forall₂ (FrameHolds env) frames stores := h.frames
  cases hframes with
  | nil => exact h
  | cons hf htail => exact ⟨h.globals, .cons (hf.insert hc) htail⟩

/-- An assignment to the variable of a name sets the cell of the name, and no other one. -/
theorem set (h : L.Holds env s) (howned : ∃ owner, Owned owner L.globals L.frames)
    (hx : L.find? x = some v) {a : Value} :
    L.Holds (env.insert v.unique a) (s.set x ⟨v.type, some a⟩) := by
  obtain ⟨globals, frames⟩ := L
  obtain ⟨cells, stores⟩ := s
  obtain ⟨owner, howned⟩ := howned
  have hglobals : FrameHolds env globals cells := h.globals
  have hframes : Forall₂ (FrameHolds env) frames stores := h.frames
  show Layout.Holds ⟨globals, frames⟩ _ (Store.setIn cells x _ stores)
  clear h
  induction hframes with
  | nil =>
    refine ⟨hglobals.assign hx fun y w hw heq => ?_, .nil⟩
    have hy := howned y w hw
    rw [heq, howned x v hx] at hy
    exact congrArg Prod.snd (Option.some.inj hy).symm
  | @cons f d fs ds hf hfs ih =>
    have hrel := hf x
    cases hfx : f.get? x with
    | some w =>
      obtain rfl : w = v := Option.some.inj ((Store.findIn_cons_some hfx).symm.trans hx)
      rw [hfx] at hrel
      have hcontains : d.contains x = true := by
        unfold Dictionary.contains
        generalize d.get? x = p at hrel ⊢
        cases hrel
        rfl
      have hrest : Layout.Holds ⟨globals, fs⟩ (env.insert w.unique a) ⟨cells, ds⟩ := by
        have hold : Layout.Holds ⟨globals, fs⟩ env ⟨cells, ds⟩ := ⟨hglobals, hfs⟩
        exact hold.congr fun u hu =>
          get?_insert_of_ne (howned.unique_ne hfx hu) a env
      rw [Store.setIn, if_pos hcontains]
      exact ⟨hrest.globals, .cons (hf.assign hfx fun y u hu => howned.name_eq hfx hu)
        hrest.frames⟩
    | none =>
      rw [hfx] at hrel
      have hcontains : d.contains x = false := by
        unfold Dictionary.contains
        generalize d.get? x = p at hrel ⊢
        cases hrel
        rfl
      have hx' : Store.findIn globals fs x = some v := by
        rwa [Store.find?, Store.findIn_cons_none hfx] at hx
      have hrest := ih hx' howned.2
      rw [Store.setIn, hcontains, if_neg (by simp)]
      refine ⟨hrest.globals, .cons (hf.congr fun y u hu => ?_) hrest.frames⟩
      refine get?_insert_of_ne ?_ a env
      exact (howned.unique_ne hu (Store.has_of_findIn hx')).symm

end Layout.Holds

end Direct

end DataMarks
