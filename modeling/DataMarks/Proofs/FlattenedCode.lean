/-
  What the flattener returns: the code and the count for every kind of statement, and the
  names that the code assigns.

  `Flattens` has one rule for each way in which code is flattened. All that is known of flattened
  code is proved by induction on it.
-/
import DataMarks.Proofs.FreshName
import DataMarks.Proofs.Window

namespace DataMarks.Flattening

open List Stmt

/-! ## What the flattener returns -/

section Flattener

variable {names names' : Names}

theorem bind_ok_iff {α β : Type} {m : Flattener α} {f : α → Flattener β} {b : β} :
    (m >>= f) names = .ok (b, names') ↔
      ∃ a names₁, m names = .ok (a, names₁) ∧ f a names₁ = .ok (b, names') := by
  show (m names >>= fun p => f p.1 p.2) = _ ↔ _
  rw [bind_ok, Prod.exists]

theorem pure_ok_iff {α : Type} {a b : α} :
    (pure a : Flattener α) names = .ok (b, names') ↔ a = b ∧ names = names' := by
  show (pure (a, names) : Except FlattenError (α × Names)) = _ ↔ _
  rw [pure_ok, Prod.mk.injEq]

theorem checkCount_ok_iff {n m : Nat} :
    checkCount n names = .ok (m, names') ↔ n ≤ maxEmits ∧ m = n ∧ names' = names := by
  unfold checkCount
  split
  · rename_i h
    rw [pure_ok_iff]
    exact ⟨fun ⟨hn, hnames⟩ => ⟨h, hn.symm, hnames.symm⟩, fun ⟨_, hn, hnames⟩ => ⟨hn.symm, hnames.symm⟩⟩
  · rename_i h
    constructor
    · intro hthrow
      cases hthrow
    · intro hle
      exact absurd hle.1 h

theorem freshName_ok_iff {base name : String} :
    freshName base names = .ok (name, names') ↔
      name = Name.fresh base names.taken ∧ names' = { names with taken := name :: names.taken } := by
  show Except.ok (Name.fresh base names.taken,
    { names with taken := Name.fresh base names.taken :: names.taken }) = _ ↔ _
  rw [Except.ok.injEq, Prod.mk.injEq]
  constructor
  · rintro ⟨rfl, rfl⟩
    exact ⟨rfl, rfl⟩
  · rintro ⟨rfl, rfl⟩
    exact ⟨rfl, rfl⟩

end Flattener

/-- The flattened form of code, how many vertices are counted for it, and the names before and
after. -/
inductive Flattens (c : Counters) : List Stmt → List Stmt → Nat → Names → Names → Prop
  | nil (names : Names) : Flattens c [] [] 0 names names
  | cons {s : Stmt} {ss flat₁ flat₂ : List Stmt} {n₁ n₂ : Nat} {names names₁ names' : Names}
      (first : Flattens c [s] flat₁ n₁ names names₁)
      (rest : Flattens c ss flat₂ n₂ names₁ names') :
      Flattens c (s :: ss) (flat₁ ++ flat₂) (n₁ + n₂) names names'
  | assign (x : String) (e : Expr) (names : Names) :
      Flattens c [.assign x e] [.assign x e] 0 names names
  | discard (names : Names) : Flattens c [.discard] [.discard] 0 names names
  | emit (attributes : Dictionary Expr) (names : Names) :
      Flattens c [.emit attributes] (c.guardEmit attributes) 1 names names
  | condition {test : Expr} {thenBody elseBody flatThen flatElse : List Stmt}
      {thenCount elseCount : Nat} {names names₁ names' : Names}
      (hthen : Flattens c thenBody flatThen thenCount names names₁)
      (helse : Flattens c elseBody flatElse elseCount names₁ names')
      (hthenLe : thenCount ≤ maxEmits) (helseLe : elseCount ≤ maxEmits) :
      Flattens c [.condition test thenBody elseBody] [.condition test flatThen flatElse]
        (max thenCount elseCount) names names'
  /-- A loop stays as it is if it emits nothing or has no round. -/
  | idle {x : String} {first last : Int} {body flat : List Stmt} {perRound : Nat}
      {names names' : Names} (hbody : Flattens c body flat perRound names names')
      (hle : perRound ≤ maxEmits) (hnone : perRound = 0 ∨ tripCount first last = 0) :
      Flattens c [.loop x first last body] [.loop x first last body] 0 names names'
  | window {x start : String} {first last : Int} {body flat : List Stmt} {perRound : Nat}
      {names names₁ : Names} (hbody : Flattens c body flat perRound names names₁)
      (hle : perRound ≤ maxEmits) (hsome : ¬ (perRound = 0 ∨ tripCount first last = 0))
      (htotal : perRound * tripCount first last ≤ maxEmits) (hstart : start ∉ names₁.taken) :
      Flattens c [.loop x first last body]
        (c.window start x first perRound (perRound * tripCount first last) flat)
        (perRound * tripCount first last) names
        ⟨start :: names₁.taken, names₁.loopStarts ++ [start]⟩

section Names

variable {c : Counters} {names names' : Names}

mutual

theorem stmt_flattens : ∀ {s : Stmt} {names names' : Names} {flat : List Stmt} {n : Nat},
    stmt c s names = .ok ((flat, n), names') → Flattens c [s] flat n names names'
  | .assign x e, _, _, _, _, h => by
    rw [stmt] at h
    cases h
    exact .assign x e _
  | .discard, _, _, _, _, h => by
    rw [stmt] at h
    cases h
    exact .discard _
  | .emit attributes, _, _, _, _, h => by
    rw [stmt] at h
    cases h
    exact .emit attributes _
  | .condition test thenBody elseBody, _, _, _, _, h => by
    rw [stmt, bind_ok_iff] at h
    obtain ⟨⟨flatThen, thenCount⟩, names₁, h₁, hthen⟩ := h
    obtain ⟨⟨flatElse, elseCount⟩, names₂, h₂, helse⟩ := bind_ok_iff.mp hthen
    cases helse
    obtain ⟨-, hthenLe, hthen⟩ := stmtsFrom_flattens (Nat.zero_le _) h₁
    obtain ⟨-, helseLe, helse⟩ := stmtsFrom_flattens (Nat.zero_le _) h₂
    exact .condition hthen helse hthenLe helseLe
  | .loop x first last body, _, _, _, _, h => by
    rw [stmt] at h
    obtain ⟨⟨flatBody, perRound⟩, names₁, h₁, hrest⟩ := bind_ok_iff.mp h
    obtain ⟨-, hle, hbody⟩ := stmtsFrom_flattens (Nat.zero_le _) h₁
    dsimp only at hrest
    split at hrest
    · rename_i hnone
      cases hrest
      exact .idle hbody hle hnone
    · rename_i hsome
      obtain ⟨total, names₂, hcount, htotal⟩ := bind_ok_iff.mp hrest
      obtain ⟨hfits, rfl, rfl⟩ := checkCount_ok_iff.mp hcount
      obtain ⟨start, names₃, hstart, hpure⟩ := bind_ok_iff.mp htotal
      obtain ⟨hfresh, rfl⟩ := freshName_ok_iff.mp hstart
      cases hpure
      exact .window hbody hle hsome hfits (hfresh ▸ Name.fresh_not_mem _ _)

theorem stmtsFrom_flattens : ∀ {ss : List Stmt} {names names' : Names} {flat : List Stmt}
    {count n : Nat}, count ≤ maxEmits → stmtsFrom c count ss names = .ok ((flat, n), names') →
    count ≤ n ∧ n ≤ maxEmits ∧ Flattens c ss flat (n - count) names names'
  | [], _, _, _, count, _, hcount, h => by
    rw [stmtsFrom] at h
    cases h
    refine ⟨Nat.le_refl _, hcount, ?_⟩
    rw [Nat.sub_self]
    exact .nil _
  | s :: ss, _, _, _, count, n, _, h => by
    rw [stmtsFrom] at h
    obtain ⟨⟨flat₁, n₁⟩, names₁, h₁, hfirst⟩ := bind_ok_iff.mp h
    obtain ⟨count₁, names₂, hcount, hrest⟩ := bind_ok_iff.mp hfirst
    obtain ⟨hle, rfl, rfl⟩ := checkCount_ok_iff.mp hcount
    obtain ⟨⟨flat₂, total⟩, names₃, h₂, hpure⟩ := bind_ok_iff.mp hrest
    cases hpure
    obtain ⟨hge, hn, hss⟩ := stmtsFrom_flattens hle h₂
    have hsum : n - count = n₁ + (n - (count + n₁)) := by omega
    refine ⟨by omega, hn, ?_⟩
    rw [hsum]
    exact .cons (stmt_flattens h₁) hss

end

theorem stmts_flattens {ss flat : List Stmt} {n : Nat}
    (h : stmtsFrom c 0 ss names = .ok ((flat, n), names')) :
    n ≤ maxEmits ∧ Flattens c ss flat n names names' :=
  (stmtsFrom_flattens (Nat.zero_le _) h).2

/-- Code without emits adds nothing to the count. -/
theorem Flattens.count_eq_zero {ss flat : List Stmt} {n : Nat} (h : Flattens c ss flat n names names')
    (hs : emitsAll ss = []) : n = 0 := by
  induction h with
  | nil | assign | discard | idle => rfl
  | cons _ _ ih₁ ih₂ =>
    rw [emitsAll, append_eq_nil_iff] at hs
    rw [ih₁ (by rw [emitsAll, hs.1, emitsAll]; rfl), ih₂ hs.2]
  | emit => simp [emitsAll, emits] at hs
  | condition _ _ _ _ ih₁ ih₂ =>
    rw [emitsAll, emits, append_eq_nil_iff, append_eq_nil_iff] at hs
    rw [ih₁ hs.1.1, ih₂ hs.1.2]
    rfl
  | window _ _ hsome _ _ ih =>
    rw [emitsAll, emits, append_eq_nil_iff] at hs
    exact absurd (.inl (ih hs.1)) hsome

/-- Names only get taken, and code assigns nothing but `old` names, the cursor and names that were
not taken before. -/
structure Issues (c : Counters) (names names' : Names) (old new : List String) : Prop where
  taken : ∀ x ∈ names.taken, x ∈ names'.taken
  assigned : ∀ x ∈ new, x ∈ old ∨ x = c.cursor ∨ x ∈ names'.taken ∧ x ∉ names.taken

theorem Issues.append {names₁ : Names} {old₁ old₂ new₁ new₂ : List String}
    (h₁ : Issues c names names₁ old₁ new₁) (h₂ : Issues c names₁ names' old₂ new₂) :
    Issues c names names' (old₁ ++ old₂) (new₁ ++ new₂) := by
  refine ⟨fun x hx => h₂.taken x (h₁.taken x hx), fun x hx => ?_⟩
  rw [mem_append] at hx ⊢
  obtain hx | hx := hx
  · obtain h | h | ⟨h, hn⟩ := h₁.assigned x hx
    · exact .inl (.inl h)
    · exact .inr (.inl h)
    · exact .inr (.inr ⟨h₂.taken x h, hn⟩)
  · obtain h | h | ⟨h, hn⟩ := h₂.assigned x hx
    · exact .inl (.inr h)
    · exact .inr (.inl h)
    · exact .inr (.inr ⟨h, fun hx => hn (h₁.taken x hx)⟩)

theorem Issues.not_assigned {old new : List String} {x : String} (h : Issues c names names' old new)
    (htaken : x ∈ names.taken) (hold : x ∉ old) (hcursor : x ≠ c.cursor) : x ∉ new := by
  intro hx
  obtain hx | hx | ⟨-, hx⟩ := h.assigned x hx
  · exact hold hx
  · exact hcursor hx
  · exact hx htaken

theorem assignsAll_singleton (s : Stmt) : assignsAll [s] = s.assigns := by
  rw [assignsAll, assignsAll, append_nil]

theorem assignsAll_guardEmit (attributes : Dictionary Expr) :
    assignsAll (c.guardEmit attributes) = [c.cursor] := by
  simp [Counters.guardEmit, assignsAll, assigns]

theorem assignsAll_window (start x : String) (first : Int) (perRound total : Nat)
    (body : List Stmt) :
    assignsAll (c.window start x first perRound total body) =
      start :: (x :: c.cursor :: (assignsAll body ++ [c.cursor]) ++ [c.cursor]) := by
  simp [Counters.window, assignsAll, assigns, assignsAll_append]

theorem Flattens.issues {ss flat : List Stmt} {n : Nat} (h : Flattens c ss flat n names names') :
    Issues c names names' (assignsAll ss) (assignsAll flat) := by
  induction h with
  | nil | assign | discard => exact ⟨fun _ h => h, fun _ h => .inl h⟩
  | cons _ _ ih₁ ih₂ =>
    rw [assignsAll_singleton] at ih₁
    rw [assignsAll, assignsAll_append]
    exact ih₁.append ih₂
  | emit =>
    rw [assignsAll_guardEmit]
    exact ⟨fun _ h => h, fun _ h => .inr (.inl (mem_singleton.mp h))⟩
  | condition _ _ _ _ ih₁ ih₂ =>
    rw [assignsAll_singleton, assignsAll_singleton, assigns, assigns]
    exact ih₁.append ih₂
  | idle _ _ _ ih => exact ⟨ih.taken, fun _ h => .inl h⟩
  | window _ _ _ _ hfresh ih =>
    refine ⟨fun y hy => mem_cons_of_mem _ (ih.taken y hy), fun y hy => ?_⟩
    rw [assignsAll_window] at hy
    simp only [mem_cons, mem_append, cons_append, not_mem_nil, or_false] at hy
    rw [assignsAll_singleton, assigns, mem_cons, mem_cons]
    obtain rfl | rfl | rfl | (hy | rfl) | rfl := hy
    · exact .inr (.inr ⟨.inl rfl, fun hmem => hfresh (ih.taken _ hmem)⟩)
    · exact .inl (.inl rfl)
    · exact .inr (.inl rfl)
    · obtain hy | hy | ⟨hy, hn⟩ := ih.assigned y hy
      · exact .inl (.inr hy)
      · exact .inr (.inl hy)
      · exact .inr (.inr ⟨.inr hy, hn⟩)
    · exact .inr (.inl rfl)
    · exact .inr (.inl rfl)

end Names

end DataMarks.Flattening
