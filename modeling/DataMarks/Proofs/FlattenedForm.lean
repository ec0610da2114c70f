/-
  What flattened code is made of.

  What the flattener writes besides the code that was there is well typed, and mentions only
  the counters and the starts of loops (`Rewrites`), whose names are new and different from
  each other (`Starts`). There is a start for each loop that is gone. The body of a loop is
  flattened before it is known whether the loop stays as it is: if it does, the flattened
  body is dropped, but the starts of the loops in it are kept (`Recounts`).
-/
import DataMarks.Proofs.CompiledTypes
import DataMarks.Proofs.SlotCount

namespace DataMarks

open List Stmt DataMarks.Expr Intrinsic

/-! ## New expressions -/

namespace Expr

/-- A well-typed expression of a type that reads only variables that `P` holds of. -/
structure Typed (P : String × ValueType → Prop) (t : ValueType) (e : Expr) : Prop where
  wellTyped : e.WellTyped
  type : e.type = t
  reads : ∀ r ∈ e.reads, P r

section Typed

variable {P : String × ValueType → Prop} {a b : Expr} {t u : ValueType}

theorem typed_var {x : String} (h : P (x, t)) : (var t x).Typed P t where
  wellTyped := trivial
  type := rfl
  reads := by rwa [reads, forall_mem_singleton]

theorem typed_int (n : Int) : (int n).Typed P .int where
  wellTyped := rfl
  type := rfl
  reads := forall_mem_nil _

theorem typed_operator {op : String}
    (h : ∃ i ∈ Catalog.find? (signature (operatorName op) [t, t] u),
      i.params = [t, t] ∧ i.returns = u) (ha : a.Typed P t) (hb : b.Typed P t) :
    (intrinsic (operatorName op) [a, b] u).Typed P u where
  wellTyped := by
    have htypes : [a, b].map type = [t, t] := by
      rw [List.map, List.map, List.map, ha.type, hb.type]
    exact ⟨⟨ha.wellTyped, hb.wellTyped, trivial⟩, htypes ▸ h⟩
  type := rfl
  reads := by
    rw [intrinsic, reads, readsAll, readsAll, readsAll, append_nil, forall_mem_append]
    exact ⟨ha.reads, hb.reads⟩

theorem typed_arithmetic (op : String) (hop : op ∈ ["+", "-", "*", "/"]) (ha : a.Typed P .int)
    (hb : b.Typed P .int) : (binary op a b).Typed P .int := by
  have hcatalog : ∀ op ∈ ["+", "-", "*", "/"], ∃ i ∈ Catalog.find?
      (signature (operatorName op) [.int, .int] .int),
        i.params = [.int, .int] ∧ i.returns = .int := by decide +kernel
  rw [binary, ha.type]
  exact typed_operator (hcatalog op hop) ha hb

theorem typed_comparison (op : String) (hop : op ∈ ["==", "<=", "<"]) (ha : a.Typed P .int)
    (hb : b.Typed P .int) : (test op a b).Typed P .bool := by
  have hcatalog : ∀ op ∈ ["==", "<=", "<"], ∃ i ∈ Catalog.find?
      (signature (operatorName op) [.int, .int] .bool),
        i.params = [.int, .int] ∧ i.returns = .bool := by decide +kernel
  exact typed_operator (hcatalog op hop) ha hb

theorem typed_and (ha : a.Typed P .bool) (hb : b.Typed P .bool) :
    (test "&&" a b).Typed P .bool :=
  typed_operator (by decide +kernel) ha hb

end Typed

end Expr

/-! ## Loops -/

variable {test : Expr} {thenBody elseBody : List Stmt}

namespace Stmt

def isLoop : Stmt → Bool
  | loop .. => true
  | assign .. | emit _ | condition .. | discard => false

/-- Whether a statement is a loop for which the flattener counts vertices. -/
def isCounted (s : Stmt) : Bool := s.isLoop && s.slots != 0

/-- How many loops there are in a body, those inside other loops included. -/
def loopCount (ss : List Stmt) : Nat := (partsAll ss).countP isLoop

def countedLoops (ss : List Stmt) : Nat := (partsAll ss).countP isCounted

/-- A loop has a round. -/
def HasRounds : Stmt → Prop
  | loop _ first last _ => Flattening.tripCount first last ≠ 0
  | assign .. | emit _ | condition .. | discard => True

theorem partsAll_append (ss ts : List Stmt) :
    partsAll (ss ++ ts) = partsAll ss ++ partsAll ts := by
  induction ss with
  | nil => rw [partsAll]; rfl
  | cons s ss ih => rw [cons_append, partsAll, partsAll, ih, append_assoc]

theorem slotsAll_append (ss ts : List Stmt) : slotsAll (ss ++ ts) = slotsAll ss + slotsAll ts := by
  induction ss with
  | nil => rw [slotsAll, nil_append, Nat.zero_add]
  | cons s ss ih => rw [cons_append, slotsAll, slotsAll, ih, Nat.add_assoc]

theorem loopCount_append (ss ts : List Stmt) :
    loopCount (ss ++ ts) = loopCount ss + loopCount ts := by
  rw [loopCount, partsAll_append, countP_append]
  rfl

theorem countedLoops_append (ss ts : List Stmt) :
    countedLoops (ss ++ ts) = countedLoops ss + countedLoops ts := by
  rw [countedLoops, partsAll_append, countP_append]
  rfl

theorem countedLoops_cons (s : Stmt) (ss : List Stmt) :
    countedLoops (s :: ss) = countedLoops [s] + countedLoops ss := countedLoops_append [s] ss

theorem countFits_condition :
    (condition test thenBody elseBody).CountFits ↔
      slotsAll thenBody ≤ Flattening.maxEmits ∧ slotsAll elseBody ≤ Flattening.maxEmits :=
  Iff.rfl

section Single

variable {test : Expr} {thenBody elseBody body : List Stmt} {x : String} {first last : Int}

theorem loopCount_condition : loopCount [condition test thenBody elseBody] =
    loopCount thenBody + loopCount elseBody := by
  simp [loopCount, partsAll, parts, isLoop]

theorem loopCount_loop : loopCount [loop x first last body] = loopCount body + 1 := by
  rw [loopCount, partsAll, partsAll, parts, append_nil, countP_cons_of_pos rfl]
  rfl

theorem countedLoops_condition : countedLoops [condition test thenBody elseBody] =
    countedLoops thenBody + countedLoops elseBody := by
  simp [countedLoops, partsAll, parts, isCounted, isLoop]

theorem countedLoops_loop : countedLoops [loop x first last body] = countedLoops body +
    if (loop x first last body).slots = 0 then 0 else 1 := by
  rw [countedLoops, partsAll, partsAll, parts, append_nil, countP_cons, countedLoops]
  congr 1
  by_cases hslots : (loop x first last body).slots = 0
  · simp [isCounted, hslots]
  · simp [isCounted, isLoop, hslots]

end Single

mutual

theorem countedLoops_of_slots : ∀ {s : Stmt}, (∀ t ∈ s.parts, t.HasRounds) → s.slots = 0 →
    countedLoops [s] = 0
  | .assign .., _, _ => rfl
  | .emit _, _, _ => rfl
  | .discard, _, _ => rfl
  | .condition test thenBody elseBody, hrounds, hslots => by
    obtain ⟨-, hthen, helse⟩ := forall_parts_condition.mp hrounds
    rw [slots] at hslots
    rw [countedLoops_condition, countedLoops_of_slotsAll hthen (by omega),
      countedLoops_of_slotsAll helse (by omega)]
  | .loop x first last body, hrounds, hslots => by
    obtain ⟨hround, hbody⟩ := forall_parts_loop.mp hrounds
    rw [countedLoops_loop, if_pos hslots]
    rw [slots] at hslots
    rcases Nat.mul_eq_zero.mp hslots with hnone | hnone
    · exact countedLoops_of_slotsAll hbody hnone
    · exact absurd hnone hround

/-- Where all loops have rounds, code for which nothing is counted holds no loop for which something
is. -/
theorem countedLoops_of_slotsAll : ∀ {ss : List Stmt}, (∀ t ∈ partsAll ss, t.HasRounds) →
    slotsAll ss = 0 → countedLoops ss = 0
  | [], _, _ => rfl
  | s :: ss, hrounds, hslots => by
    obtain ⟨hs, hss⟩ := forall_partsAll_cons.mp hrounds
    rw [slotsAll] at hslots
    rw [countedLoops_cons, countedLoops_of_slots hs (by omega),
      countedLoops_of_slotsAll hss (by omega)]

end

end Stmt

/-! ## Flattened code -/

namespace Flattening

open Stmt

variable {c : Counters} {starts starts₁ starts₂ : List String}

/-- What flattened code may mention: what the old code does, the counters and starts of loops. -/
def MayMention (c : Counters) (starts : List String) (old : List Stmt) (m : String × ValueType) :
    Prop :=
  m ∈ mentionsAll old ∨ m.2 = .int ∧ m.1 ∈ c.vertex :: c.cursor :: starts

theorem MayMention.mono {old old' : List Stmt} {m : String × ValueType}
    (hold : ∀ m ∈ mentionsAll old, m ∈ mentionsAll old') (hstarts : ∀ x ∈ starts₁, x ∈ starts₂)
    (h : MayMention c starts₁ old m) : MayMention c starts₂ old' m := by
  refine Or.imp (hold m) (fun h => ⟨h.1, ?_⟩) h
  have := h.2
  rw [mem_cons, mem_cons] at this ⊢
  exact this.imp_right (Or.imp_right (hstarts _))

/-- Flattened code has the emits of the code that it comes from. All else that is in it was there
or is well typed. -/
structure Rewrites (c : Counters) (starts : List String) (old new : List Stmt) : Prop where
  mentions : ∀ m ∈ mentionsAll new, MayMention c starts old m
  exprs : ∀ e ∈ exprsAll new, e ∈ exprsAll old ∨ e.WellTyped
  tests : ∀ e ∈ testsAll new, e ∈ testsAll old ∨ e.type = .bool
  emits : emitsAll new = emitsAll old

namespace Rewrites

theorem refl (ss : List Stmt) : Rewrites c starts ss ss where
  mentions := fun _ h => .inl h
  exprs := fun _ h => .inl h
  tests := fun _ h => .inl h
  emits := rfl

variable {old new : List Stmt} {x : String} {e : Expr} {t : ValueType}

/-- Less was there, or fewer starts. -/
theorem mono {old' : List Stmt} (h : Rewrites c starts₁ old new)
    (hmentions : ∀ m ∈ mentionsAll old, m ∈ mentionsAll old')
    (hexprs : ∀ e ∈ exprsAll old, e ∈ exprsAll old')
    (htests : ∀ e ∈ testsAll old, e ∈ testsAll old') (hemits : emitsAll old = emitsAll old')
    (hstarts : ∀ x ∈ starts₁, x ∈ starts₂) : Rewrites c starts₂ old' new where
  mentions := fun m hm => (h.mentions m hm).mono hmentions hstarts
  exprs := fun e he => (h.exprs e he).imp_left (hexprs e)
  tests := fun e he => (h.tests e he).imp_left (htests e)
  emits := h.emits.trans hemits

theorem append {old₁ old₂ new₁ new₂ : List Stmt} (h₁ : Rewrites c starts₁ old₁ new₁)
    (h₂ : Rewrites c starts₂ old₂ new₂) :
    Rewrites c (starts₁ ++ starts₂) (old₁ ++ old₂) (new₁ ++ new₂) where
  mentions := by
    rw [mentionsAll_append, forall_mem_append]
    refine ⟨fun m hm => (h₁.mentions m hm).mono ?_ fun x => mem_append_left _,
      fun m hm => (h₂.mentions m hm).mono ?_ fun x => mem_append_right _⟩
    · rw [mentionsAll_append]
      exact fun m => mem_append_left _
    · rw [mentionsAll_append]
      exact fun m => mem_append_right _
  exprs := by
    rw [exprsAll_append, exprsAll_append, forall_mem_append]
    exact ⟨fun e he => (h₁.exprs e he).imp_left (mem_append_left _),
      fun e he => (h₂.exprs e he).imp_left (mem_append_right _)⟩
  tests := by
    rw [testsAll_append, testsAll_append, forall_mem_append]
    exact ⟨fun e he => (h₁.tests e he).imp_left (mem_append_left _),
      fun e he => (h₂.tests e he).imp_left (mem_append_right _)⟩
  emits := by rw [emitsAll_append, emitsAll_append, h₁.emits, h₂.emits]

/-- The condition of a new test around code, and one whose test was there. -/
theorem condition (h : Rewrites c starts old (thenBody ++ elseBody))
    (hreads : ∀ r ∈ test.reads, MayMention c starts old r)
    (hexpr : test ∈ exprsAll old ∨ test.WellTyped) (htest : test ∈ testsAll old ∨ test.type = .bool) :
    Rewrites c starts old [.condition test thenBody elseBody] where
  mentions := by
    have hmentions := h.mentions
    rw [mentionsAll_append] at hmentions
    rw [mentionsAll, mentionsAll, Stmt.mentions, append_nil, append_assoc, forall_mem_append]
    exact ⟨hreads, hmentions⟩
  exprs := by
    have hexprs := h.exprs
    rw [exprsAll_append] at hexprs
    rw [exprsAll, exprsAll, Stmt.exprs, append_nil, forall_mem_cons]
    exact ⟨hexpr, hexprs⟩
  tests := by
    have htests := h.tests
    rw [testsAll_append] at htests
    rw [testsAll, testsAll, Stmt.tests, append_nil, forall_mem_cons]
    exact ⟨htest, htests⟩
  emits := by
    rw [emitsAll, emitsAll, Stmt.emits, append_nil, ← emitsAll_append, h.emits]

/-- A new assignment anywhere in the code. -/
theorem assign {before after : List Stmt} (h : Rewrites c starts old (before ++ after))
    (hx : MayMention c starts old (x, t)) (he : e.Typed (MayMention c starts old) t) :
    Rewrites c starts old (before ++ .assign x e :: after) where
  mentions := by
    have hmentions := h.mentions
    rw [mentionsAll_append, forall_mem_append] at hmentions
    rw [mentionsAll_append, mentionsAll, Stmt.mentions, he.type, forall_mem_append,
      forall_mem_append, forall_mem_cons]
    exact ⟨hmentions.1, ⟨hx, he.reads⟩, hmentions.2⟩
  exprs := by
    have hexprs := h.exprs
    rw [exprsAll_append, forall_mem_append] at hexprs
    rw [exprsAll_append, exprsAll, Stmt.exprs, forall_mem_append, forall_mem_append,
      forall_mem_singleton]
    exact ⟨hexprs.1, .inr he.wellTyped, hexprs.2⟩
  tests := by
    have htests := h.tests
    rwa [testsAll_append] at htests ⊢
  emits := by
    rw [← h.emits, emitsAll_append, emitsAll_append]
    rfl

/-- The code of a condition whose bodies are rewritten. -/
theorem branches {thenBody' elseBody' : List Stmt}
    (h : Rewrites c starts (thenBody ++ elseBody) (thenBody' ++ elseBody')) :
    Rewrites c starts [.condition test thenBody elseBody]
      [.condition test thenBody' elseBody'] := by
  have hmentions : mentionsAll [.condition test thenBody elseBody] =
      test.reads ++ mentionsAll (thenBody ++ elseBody) := by
    simp [mentionsAll, Stmt.mentions, mentionsAll_append]
  have hexprs : exprsAll [.condition test thenBody elseBody] =
      test :: exprsAll (thenBody ++ elseBody) := by
    simp [exprsAll, Stmt.exprs, exprsAll_append]
  have htests : testsAll [.condition test thenBody elseBody] =
      test :: testsAll (thenBody ++ elseBody) := by
    simp [testsAll, Stmt.tests, testsAll_append]
  have hemits : emitsAll (thenBody ++ elseBody) = emitsAll [.condition test thenBody elseBody] := by
    simp [emitsAll, Stmt.emits, emitsAll_append]
  have hinner : Rewrites c starts [.condition test thenBody elseBody] (thenBody' ++ elseBody') :=
    h.mono (fun m hm => hmentions ▸ mem_append_right _ hm)
      (fun e he => hexprs ▸ mem_cons_of_mem _ he)
      (fun e he => htests ▸ mem_cons_of_mem _ he) hemits fun x hx => hx
  exact hinner.condition (fun r hr => .inl (hmentions ▸ mem_append_left _ hr))
    (.inl (hexprs ▸ mem_cons_self)) (.inl (htests ▸ mem_cons_self))

theorem cons (h : Rewrites c starts old new) (hx : MayMention c starts old (x, t))
    (he : e.Typed (MayMention c starts old) t) : Rewrites c starts old (.assign x e :: new) := by
  rw [← nil_append new] at h
  exact h.assign hx he

/-- A new assignment behind the code. -/
theorem concat (h : Rewrites c starts old new) (hx : MayMention c starts old (x, t))
    (he : e.Typed (MayMention c starts old) t) : Rewrites c starts old (new ++ [.assign x e]) := by
  rw [← append_nil new] at h
  exact h.assign hx he

theorem emit (attributes : Dictionary Expr) :
    Rewrites c starts [.emit attributes] (c.guardEmit attributes) := by
  have hcursor : MayMention c starts [.emit attributes] (c.cursor, .int) :=
    .inr ⟨rfl, mem_cons_of_mem _ mem_cons_self⟩
  have hvertexExpr : c.vertexExpr.Typed (MayMention c starts [.emit attributes]) .int :=
    typed_var (.inr ⟨rfl, mem_cons_self⟩)
  have hcursorExpr : c.cursorExpr.Typed (MayMention c starts [.emit attributes]) .int :=
    typed_var hcursor
  have hreached : (test "==" c.vertexExpr c.cursorExpr).Typed _ .bool :=
    typed_comparison _ (by simp) hvertexExpr hcursorExpr
  have hemit : Rewrites c starts [.emit attributes] ([.emit attributes] ++ []) := refl _
  have hguard := hemit.condition hreached.reads (.inr hreached.wellTyped) (.inr hreached.type)
  exact hguard.concat hcursor (typed_arithmetic _ (by simp) hcursorExpr (typed_int 1))

/-- A loop becomes a window. -/
theorem window {start : String} {first last : Int} {perRound total : Nat} {body flat : List Stmt}
    (h : Rewrites c starts body flat) : Rewrites c (starts ++ [start]) [.loop x first last body]
      (c.window start x first perRound total flat) := by
  have hflat : Rewrites c (starts ++ [start]) [.loop x first last body] flat := by
    refine h.mono ?_ ?_ ?_ ?_ fun y => mem_append_left _
    · rw [mentionsAll, mentionsAll, Stmt.mentions, append_nil]
      exact fun m => mem_cons_of_mem _
    · rw [exprsAll, exprsAll, Stmt.exprs, append_nil]
      exact fun e he => he
    · rw [testsAll, testsAll, Stmt.tests, append_nil]
      exact fun e he => he
    · rw [emitsAll, emitsAll, Stmt.emits, append_nil]
  have hx : MayMention c (starts ++ [start]) [.loop x first last body] (x, .int) := by
    rw [MayMention, mentionsAll, Stmt.mentions]
    exact .inl mem_cons_self
  generalize [loop x first last body] = old at hflat hx ⊢
  have hstart : MayMention c (starts ++ [start]) old (start, .int) := .inr ⟨rfl, by simp⟩
  have hcursor : MayMention c (starts ++ [start]) old (c.cursor, .int) := .inr ⟨rfl, by simp⟩
  have hvertexExpr : c.vertexExpr.Typed (MayMention c (starts ++ [start]) old) .int :=
    typed_var (.inr ⟨rfl, mem_cons_self⟩)
  have hcursorExpr : c.cursorExpr.Typed (MayMention c (starts ++ [start]) old) .int :=
    typed_var hcursor
  have hstartExpr := typed_var hstart
  have hstop := typed_arithmetic "+" (by simp) hstartExpr (typed_int total)
  have hinside := typed_and
    (typed_comparison "<=" (by simp) hstartExpr hvertexExpr)
    (typed_comparison "<" (by simp) hvertexExpr hstop)
  have hround := typed_arithmetic "/" (by simp)
    (typed_arithmetic "-" (by simp) hvertexExpr hstartExpr) (typed_int perRound)
  have hroundStart := typed_arithmetic "+" (by simp) hstartExpr
    (typed_arithmetic "*" (by simp)
      (typed_arithmetic "-" (by simp) (typed_var hx) (typed_int first))
      (typed_int perRound))
  have hvalue := typed_arithmetic "+" (by simp) (typed_int first) hround
  have hbodies := (((hflat.concat hcursor hstop).concat hcursor hstop).cons hcursor
    hroundStart).cons hx hvalue
  exact Rewrites.cons (hbodies.condition hinside.reads (.inr hinside.wellTyped)
    (.inr hinside.type)) hstart hcursorExpr

end Rewrites

/-- The loops and the counts of flattened code, and the number `k` of starts that it takes: there is
one for each loop that is gone, and one for each that is left though vertices are counted for it. -/
structure Recounts (k : Nat) (old new : List Stmt) : Prop where
  loops : loopCount new + k = loopCount old + countedLoops new
  counted : k = countedLoops old
  rounds : (∀ t ∈ partsAll old, t.HasRounds) → countedLoops new = 0
  slots : slotsAll new ≤ slotsAll old
  fits : ∀ t ∈ partsAll new, t.CountFits

namespace Recounts

variable {k k₁ k₂ : Nat}

theorem append {old₁ old₂ new₁ new₂ : List Stmt} (h₁ : Recounts k₁ old₁ new₁)
    (h₂ : Recounts k₂ old₂ new₂) : Recounts (k₁ + k₂) (old₁ ++ old₂) (new₁ ++ new₂) where
  loops := by
    have h₁ := h₁.loops
    have h₂ := h₂.loops
    rw [loopCount_append, loopCount_append, countedLoops_append]
    omega
  counted := by rw [countedLoops_append, ← h₁.counted, ← h₂.counted]
  rounds := by
    rw [partsAll_append, forall_mem_append, countedLoops_append]
    rintro ⟨hrounds₁, hrounds₂⟩
    rw [h₁.rounds hrounds₁, h₂.rounds hrounds₂]
  slots := by
    rw [slotsAll_append, slotsAll_append]
    exact Nat.add_le_add h₁.slots h₂.slots
  fits := by
    rw [partsAll_append, forall_mem_append]
    exact ⟨h₁.fits, h₂.fits⟩

/-- Code without loops stays as it is. -/
theorem refl {ss : List Stmt} (hloops : loopCount ss = 0) (hcounted : countedLoops ss = 0)
    (hfits : ∀ t ∈ partsAll ss, t.CountFits) : Recounts 0 ss ss where
  loops := by rw [hloops, hcounted]
  counted := hcounted.symm
  rounds := fun _ => hcounted
  slots := Nat.le_refl _
  fits := hfits

theorem emit (c : Counters) (attributes : Dictionary Expr) :
    Recounts 0 [.emit attributes] (c.guardEmit attributes) where
  loops := rfl
  counted := rfl
  rounds := fun _ => rfl
  slots := Nat.le_refl _
  fits := by
    simp [Counters.guardEmit, partsAll, parts, CountFits, slotsAll, Stmt.slots, maxEmits]

theorem branches {thenBody' elseBody' : List Stmt} (hthen : Recounts k₁ thenBody thenBody')
    (helse : Recounts k₂ elseBody elseBody') (hfits : (condition test thenBody elseBody).CountFits) :
    Recounts (k₁ + k₂) [.condition test thenBody elseBody]
      [.condition test thenBody' elseBody'] where
  loops := by
    have hthen := hthen.loops
    have helse := helse.loops
    rw [loopCount_condition, loopCount_condition, countedLoops_condition]
    omega
  counted := by rw [countedLoops_condition, ← hthen.counted, ← helse.counted]
  rounds := by
    rw [partsAll_singleton, forall_parts_condition, countedLoops_condition]
    rintro ⟨-, hthenRounds, helseRounds⟩
    rw [hthen.rounds hthenRounds, helse.rounds helseRounds]
  slots := by
    have hthen := hthen.slots
    have helse := helse.slots
    rw [slotsAll_singleton, slotsAll_singleton, Stmt.slots, Stmt.slots]
    omega
  fits := by
    have hthenLe := hthen.slots
    have helseLe := helse.slots
    rw [countFits_condition] at hfits
    rw [partsAll_singleton, forall_parts_condition]
    exact ⟨⟨hthenLe.trans hfits.1, helseLe.trans hfits.2⟩, hthen.fits, helse.fits⟩

section Loops

variable {x : String} {first last : Int} {body flat : List Stmt}

/-- A loop stays as it is, with the starts of the loops in it. -/
theorem idle (h : Recounts k body flat) (hnone : slotsAll body = 0 ∨ tripCount first last = 0)
    (hfits : ∀ t ∈ (loop x first last body).parts, t.CountFits) :
    Recounts k [.loop x first last body] [.loop x first last body] := by
  have hslots : (loop x first last body).slots = 0 := by
    rw [Stmt.slots]
    exact Nat.mul_eq_zero.mpr hnone
  have hcounted : countedLoops [.loop x first last body] = k := by
    rw [countedLoops_loop, if_pos hslots, ← h.counted]
    rfl
  refine ⟨by rw [hcounted], hcounted.symm, fun hrounds => ?_, Nat.le_refl _, ?_⟩
  · rw [partsAll_singleton] at hrounds
    exact countedLoops_of_slots hrounds hslots
  · rwa [partsAll_singleton]

theorem window {c : Counters} {start : String} {perRound total : Nat} (h : Recounts k body flat)
    (hsome : ¬ (slotsAll body = 0 ∨ tripCount first last = 0)) (hle : slotsAll body ≤ maxEmits) :
    Recounts (k + 1) [.loop x first last body]
      (c.window start x first perRound total flat) := by
  have hslots : (loop x first last body).slots ≠ 0 := by
    rw [Stmt.slots]
    exact fun h => hsome (Nat.mul_eq_zero.mp h)
  have hloops : loopCount (c.window start x first perRound total flat) = loopCount flat := by
    simp [Counters.window, loopCount, partsAll, parts, partsAll_append, isLoop]
  have hcounted : countedLoops (c.window start x first perRound total flat) =
      countedLoops flat := by
    simp [Counters.window, countedLoops, partsAll, parts, partsAll_append, isCounted, isLoop]
  have hslotsFlat : slotsAll (c.window start x first perRound total flat) = slotsAll flat := by
    simp [Counters.window, slotsAll, Stmt.slots, slotsAll_append]
  refine ⟨?_, ?_, fun hrounds => ?_, ?_, ?_⟩
  · have := h.loops
    rw [hloops, hcounted, loopCount_loop]
    omega
  · rw [countedLoops_loop, if_neg hslots, h.counted]
  · rw [partsAll_singleton, forall_parts_loop] at hrounds
    rw [hcounted, h.rounds hrounds.2]
  · have hrounds : 0 < tripCount first last := by omega
    rw [hslotsFlat, slotsAll_singleton, Stmt.slots]
    exact h.slots.trans (Nat.le_mul_of_pos_right _ hrounds)
  · have hflat := h.slots.trans hle
    have hassign (y : String) (e : Expr) : ∀ t ∈ (assign y e).parts, t.CountFits := by
      rw [parts, forall_mem_singleton]
      trivial
    have hnil : ∀ t ∈ partsAll [], t.CountFits := forall_mem_nil _
    simp only [Counters.window, forall_partsAll_cons, forall_parts_condition, partsAll_append,
      forall_mem_append, countFits_condition, slotsAll_append, slotsAll, Stmt.slots]
    exact ⟨hassign _ _, ⟨⟨by omega, by omega⟩, ⟨⟨⟨hassign _ _, hassign _ _, hnil⟩, h.fits⟩,
      hassign _ _, hnil⟩, hassign _ _, hnil⟩, hnil⟩

end Loops

end Recounts

/-- Names that were not in use, and different from each other, become starts of loops. -/
structure Starts (names names' : Names) (starts : List String) : Prop where
  loopStarts : names'.loopStarts = names.loopStarts ++ starts
  taken : ∀ x, x ∈ names'.taken ↔ x ∈ starts ∨ x ∈ names.taken
  fresh : ∀ x ∈ starts, x ∉ names.taken
  nodup : starts.Nodup

namespace Starts

variable {names names₁ names' : Names}

theorem nil (names : Names) : Starts names names [] where
  loopStarts := (append_nil _).symm
  taken := by simp
  fresh := forall_mem_nil _
  nodup := nodup_nil

theorem append (h₁ : Starts names names₁ starts₁) (h₂ : Starts names₁ names' starts₂) :
    Starts names names' (starts₁ ++ starts₂) where
  loopStarts := by rw [h₂.loopStarts, h₁.loopStarts, append_assoc]
  taken := by
    intro x
    rw [h₂.taken, h₁.taken, mem_append]
    tauto
  fresh := by
    rw [forall_mem_append]
    exact ⟨h₁.fresh, fun x hx htaken => h₂.fresh x hx ((h₁.taken x).mpr (.inr htaken))⟩
  nodup := by
    refine h₁.nodup.append h₂.nodup fun x hx₁ hx₂ => ?_
    exact h₂.fresh x hx₂ ((h₁.taken x).mpr (.inl hx₁))

theorem start {start : String} (hfresh : start ∉ names.taken) :
    Starts names ⟨start :: names.taken, names.loopStarts ++ [start]⟩ [start] where
  loopStarts := rfl
  taken := by simp
  fresh := by rwa [forall_mem_singleton]
  nodup := nodup_singleton _

end Starts

/-- Flattened code is the original one with code for the counters. -/
theorem Flattens.rewrites {ss flat : List Stmt} {n : Nat} {names names' : Names}
    (h : Flattens c ss flat n names names') :
    ∃ starts, Starts names names' starts ∧ Rewrites c starts ss flat ∧
      Recounts starts.length ss flat := by
  induction h with
  | nil => exact ⟨[], .nil _, .refl _, .refl rfl rfl (forall_mem_nil _)⟩
  | assign | discard =>
    exact ⟨[], .nil _, .refl _, .refl rfl rfl (by simp [partsAll, parts, CountFits])⟩
  | emit attributes => exact ⟨[], .nil _, .emit attributes, .emit c attributes⟩
  | cons _ _ ih₁ ih₂ =>
    obtain ⟨starts₁, hstarts₁, hfirst, hfirstCounts⟩ := ih₁
    obtain ⟨starts₂, hstarts₂, hrest, hrestCounts⟩ := ih₂
    refine ⟨starts₁ ++ starts₂, hstarts₁.append hstarts₂, hfirst.append hrest, ?_⟩
    rw [length_append]
    exact hfirstCounts.append hrestCounts
  | condition hthen helse hthenLe helseLe ih₁ ih₂ =>
    obtain ⟨starts₁, hstarts₁, hthen', hthenCounts⟩ := ih₁
    obtain ⟨starts₂, hstarts₂, helse', helseCounts⟩ := ih₂
    refine ⟨starts₁ ++ starts₂, hstarts₁.append hstarts₂, (hthen'.append helse').branches, ?_⟩
    rw [length_append]
    exact hthenCounts.branches helseCounts ⟨hthen.counts.1 ▸ hthenLe, helse.counts.1 ▸ helseLe⟩
  | idle hbody hle hnone ih =>
    obtain ⟨starts, hstarts, -, hcounts⟩ := ih
    obtain ⟨rfl, hfits⟩ := hbody.counts
    refine ⟨starts, hstarts, .refl _, hcounts.idle hnone (forall_parts_loop.mpr ⟨⟨hle, ?_⟩, hfits⟩)⟩
    rw [Nat.mul_eq_zero.mpr hnone]
    exact Nat.zero_le _
  | window hbody hle hsome _ hfresh ih =>
    obtain ⟨starts, hstarts, hbody', hcounts⟩ := ih
    obtain ⟨rfl, -⟩ := hbody.counts
    refine ⟨_, hstarts.append (.start hfresh), hbody'.window, ?_⟩
    rw [length_append]
    exact hcounts.window hsome hle

end Flattening

end DataMarks
