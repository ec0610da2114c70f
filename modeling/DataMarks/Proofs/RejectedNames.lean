/-
  When a file is rejected for a use of a name.

  Compilation stops at the first mark that fails, and loading never fails because of a use of a
  name (`Surface.File.compile_error_iff`). So a file is rejected for a name exactly where the
  source alone says so, unless the name is one that a temporary may have
  (`Surface.File.compile_rejects_iff`). Such a name is not kept apart from temporaries: it may
  not be declared where one of that name stands, and it is found there though the source never
  declares it (`Surface.File.compile_temporary_visible`).
-/
import DataMarks.Proofs.JudgedNames
import DataMarks.Proofs.Run
import DataMarks.Proofs.TemporaryNames

namespace DataMarks

namespace Compile

/-! ## Loading -/

theorem silent_loadParams (ps : List Surface.Param) : Silent (loadParams ps) := by
  induction ps with
  | nil => exact .pure _
  | cons q qs ih =>
    exact (silent_valueType q.type).bind fun t =>
      (silent_defaultValue q.span t q.default).bind fun _ => ih

theorem silent_addFunctions (module : Option String) (fs : List Surface.Function) :
    Silent (addFunctions module fs) := fun _ => rfl

theorem silent_importNames (m : Module) (names : List (Span × String)) :
    Silent (importNames m names) := by
  induction names with
  | nil => exact .pure _
  | cons n names ih =>
    rw [importNames]
    split
    · exact .fail rfl
    · exact (silent_addFunctions _ _).bind fun _ => ih

theorem silent_loadImport (i : Surface.Import) : Silent (loadImport i) := by
  unfold loadImport
  split
  · exact .fail rfl
  · split
    · exact silent_addFunctions _ _
    · exact silent_importNames _ _

theorem silent_loadBlock (b : Surface.Block) : Silent (loadBlock b) := by
  cases b with
  | function f =>
    exact (silent_loadParams f.params).bind fun _ =>
      (silent_valueType? f.returns).bind fun _ => silent_addFunctions _ _
  | global g => exact (silent_valueType g.type).bind fun _ _ => rfl
  | import_ i => exact silent_loadImport i

theorem silent_load (file : Surface.File) : Silent (load file) := by
  unfold load
  induction file.blocks with
  | nil => exact .pure _
  | cons b bs ih => exact (silent_loadBlock b).bind fun _ => ih

end Compile

namespace Surface.File

open Compile

variable {file : File} {f : Function}

/-- The compilation of a file gets to a mark: the file can be loaded, and each mark before this one
is compiled. -/
def Reaches (file : File) (f : Function) : Prop :=
  (load file {}).result = .ok () ∧
    ∃ before after, file.functions = before ++ f :: after ∧ f.isRenderable = true ∧
      ∀ g ∈ before, g.isRenderable = true → ∃ spec, file.specification g = .ok spec

/-- A file that can be loaded fails as a mark does that its compilation gets to. -/
theorem compile_error_iff {e : CompileError} (he : e.use? ≠ none) :
    file.compile = .error e ↔ ∃ f, file.Reaches f ∧ file.specification f = .error e := by
  unfold compile Reaches specification
  dsimp only
  cases hload : load file {} with
  | mk result s code =>
    cases result with
    | error e' =>
      rw [bind_of_error hload]
      refine iff_of_false (fun h => ?_) fun h => ?_
      · have hsilent := silent_load file {}
        rw [hload] at hsilent
        cases h
        exact he hsilent
      · obtain ⟨f, ⟨hok, -⟩, -⟩ := h
        cases hok
    | ok u =>
      rw [bind_of_ok hload]
      have hfirst : (Compile.functions file.functions [] s).result = .error e ↔
          ∃ f, file.functions.find?
            (fun f => f.isRenderable && !(Compile.function f s).result.isOk) = some f ∧
              (Compile.function f s).result = .error e := by
        rcases @functions_cases file.functions [] s s (sameLoaded_self hload) with
          ⟨hnone, specs, hspecs⟩ | ⟨f, e', hfind, hfe, herror⟩
        · rw [hnone, hspecs]
          simp
        · rw [hfind, herror]
          simp [hfe]
      refine hfirst.trans (exists_congr fun f => and_congr_left fun hf => ?_)
      rw [List.find?_eq_some_iff_append, and_iff_right rfl, hf]
      simp only [exists_ok_iff, Bool.and_eq_true, Bool.not_and, Bool.or_eq_true, Bool.not_eq_true',
        Bool.not_not, ← Bool.not_eq_true, imp_iff_not_or]
      tauto

/-- A mark is rejected for a use of a name exactly if a use in it is rejected at its site. -/
theorem specification_rejected_iff (hload : (load file {}).result = .ok ()) {u : Use}
    (hu : ¬ Scope.IsTemporary u.name) :
    rejected (file.specification f) = some u ↔ ∃ p : Site, (u, p) ∈ file.uses f ∧
      p.Rejects (file.globals.map Global.name) u.kind u.name := by
  rw [specification_eq hload]
  exact functionWithin_judges _ f _ u hu

/-- As `specification_rejected_iff`, for a file. -/
theorem compile_rejected_iff {u : Use} (hu : ¬ Scope.IsTemporary u.name) :
    rejected file.compile = some u ↔
      ∃ f, file.Reaches f ∧ ∃ p : Site, (u, p) ∈ file.uses f ∧
        p.Rejects (file.globals.map Global.name) u.kind u.name := by
  rw [rejected_eq_some_iff]
  constructor
  · rintro ⟨e, he, hcompile⟩
    obtain ⟨f, hf, hspec⟩ := (compile_error_iff (by simp [he])).mp hcompile
    have hrejected := rejected_eq_some_iff.mpr ⟨e, he, hspec⟩
    exact ⟨f, hf, (specification_rejected_iff hf.1 hu).mp hrejected⟩
  · rintro ⟨f, hf, hp⟩
    have hrejected := (specification_rejected_iff hf.1 hu).mpr hp
    obtain ⟨e, he, hspec⟩ := rejected_eq_some_iff.mp hrejected
    exact ⟨e, he, (compile_error_iff (by simp [he])).mpr ⟨f, hf, hspec⟩⟩

/-- Temporaries are invisible under all names that none of them can have. Such a name is rejected
as declared already exactly where the source has declared it in the same block, the parameters of
an expanded function included; and as undefined exactly where the source binds it nowhere, neither
in the function nor in one that is being expanded around it. -/
theorem compile_rejects_iff (file : File) (span : Span) {x : String}
    (hx : ¬ Scope.IsTemporary x) :
    (file.compile = .error (.duplicateDeclaration span x) ↔
      ∃ f, file.Reaches f ∧ ∃ p : Site, (⟨.declaration, span, x⟩, p) ∈ file.uses f ∧
        x ∈ p.block) ∧
    ((∃ suggestion, file.compile = .error (.undefinedVariable span x suggestion)) ↔
      ∃ f, file.Reaches f ∧ ∃ p : Site, (⟨.mention, span, x⟩, p) ∈ file.uses f ∧
        x ∉ p.binders.names ∧ x ∉ file.globals.map Global.name) := by
  rw [← rejected_declaration_iff, ← rejected_mention_iff]
  exact ⟨compile_rejected_iff hx, compile_rejected_iff hx⟩

/-- What holds of the uses of names in the first mark of a text, evaluated from the characters of
the text. -/
theorem exists_of_firstMark (source : String)
    (P : File → Except CompileError (Dictionary Specification) → List (Use × Site) → Prop)
    [∀ file result us, Decidable (P file result us)]
    (h : ((File.parseChars 0 source.utf8ByteSize source.toList).toOption.any fun file =>
      (load file {}).result.isOk &&
        (file.functions.find? Function.isRenderable).any fun f => decide (P file
          ((load file >>= fun _ => functionsOf file.functions []) {}).result
          (functionUses (file.definitions.length + 11 + 1) f file.loaded))) = true) :
    ∃ file f, File.parse 0 source = .ok file ∧ file.Reaches f ∧
      P file file.compile (file.uses f) := by
  obtain ⟨file, hfile, h⟩ := (Option.any_eq_true _ _).mp h
  rw [Bool.and_eq_true, ← exists_ok_iff] at h
  obtain ⟨⟨_, hload⟩, hmark⟩ := h
  obtain ⟨f, hf, hP⟩ := (Option.any_eq_true _ _).mp hmark
  refine ⟨file, f, ?_, ⟨hload, ?_⟩, ?_⟩
  · rw [File.parse_eq]
    exact toOption_eq_some_iff.mp hfile
  · obtain ⟨hrenderable, before, after, heq, hbefore⟩ := List.find?_eq_some_iff_append.mp hf
    refine ⟨before, after, heq, hrenderable, fun g hg hg' => ?_⟩
    have := hbefore g hg
    rw [hg'] at this
    cases this
  · have hP := of_decide_eq_true hP
    unfold uses compile depth
    rw [Library.size_eq]
    simp only [functions_eq]
    exact hP

/-- A function that declares its parameter again. -/
def overwriting : String := "
function double(x: float): float {
    let y = x + x;
    let x = y;
    return x;
}

mark M() {
    emit [{ a: double(2.0) }];
}
"

/-- A function that mentions a name which neither it nor its caller binds. -/
def shifting : String := "
function offset(x: float): float {
    return x + depth;
}

mark M() {
    let shift = 1.0;
    emit [{ a: offset(shift) }];
}
"

theorem compile_rejects_iff_expanded :
    (∃ file, File.parse 0 overwriting = .ok file ∧
      file.compile = .error (.duplicateDeclaration ⟨0, 59, 69⟩ "x")) ∧
    ∃ file suggestion, File.parse 0 shifting = .ok file ∧
      file.compile = .error (.undefinedVariable ⟨0, 51, 56⟩ "depth" suggestion) := by
  have hx : ¬ Scope.IsTemporary "x" := Name.Plain.not_temporary (by decide)
  have hdepth : ¬ Scope.IsTemporary "depth" := Name.Plain.not_temporary (by decide)
  constructor
  · obtain ⟨file, f, hparse, hf, ⟨_, p⟩, hu, rfl, hblock⟩ :=
      exists_of_firstMark overwriting (fun _ _ us => ∃ u ∈ us,
        u.1 = ⟨.declaration, ⟨0, 59, 69⟩, "x"⟩ ∧ u.2.block = ["y", "x"])
        (by rw [overwriting, String.toList_ofList]; decide +kernel)
    refine ⟨file, hparse, (compile_rejects_iff file _ hx).1.mpr ⟨f, hf, p, hu, ?_⟩⟩
    rw [show p.block = _ from hblock]
    decide
  · obtain ⟨file, f, hparse, hf, hglobals, ⟨_, p⟩, hu, rfl, hnames⟩ :=
      exists_of_firstMark shifting (fun file _ us => file.globals.map Global.name = [] ∧
        ∃ u ∈ us, u.1 = ⟨.mention, ⟨0, 51, 56⟩, "depth"⟩ ∧ u.2.binders.names = ["x", "shift"])
        (by rw [shifting, String.toList_ofList]; decide +kernel)
    obtain ⟨suggestion, h⟩ := (compile_rejects_iff file _ hdepth).2.mpr ⟨f, hf, p, hu, by
      rw [show p.binders.names = _ from hnames, hglobals]
      decide⟩
    exact ⟨file, suggestion, hparse, h⟩

/-- A mark that declares `tmp` behind a call. -/
def redeclaring : String := "
function f(x: float): float {
    return x;
}

mark M() {
    let a = f(1.0);
    let tmp = 2.0;
    emit [{ a: a + tmp }];
}
"

/-- A mark that mentions `tmp` behind a call. -/
def peeking : String := "
function f(x: float): float {
    return x;
}

mark M() {
    f(1.0);
    emit [{ a: tmp }];
}
"

/-- A temporary has a name of the source: a mark may not declare `tmp` behind a call, though it
declares it only once, and may mention it there without declaring it at all. -/
theorem compile_temporary_visible :
    (∃ file f, File.parse 0 redeclaring = .ok file ∧ file.Reaches f ∧
      file.compile = .error (.duplicateDeclaration ⟨0, 83, 97⟩ "tmp") ∧
      ∀ u ∈ file.uses f, u.1.kind = .declaration → u.1.name ∉ u.2.block) ∧
    ∃ file f, File.parse 0 peeking = .ok file ∧ file.Reaches f ∧
      file.compile.isOk = true ∧ file.globals.map Global.name = [] ∧
      ∃ u ∈ file.uses f, u.1 = ⟨.mention, ⟨0, 86, 89⟩, "tmp"⟩ ∧ u.2.binders.names = [] := by
  simp only [← rejected_declaration_iff]
  constructor
  · refine @exists_of_firstMark _ (fun _ result us =>
      rejected result = some ⟨.declaration, ⟨0, 83, 97⟩, "tmp"⟩ ∧
      ∀ u ∈ us, u.1.kind = .declaration → u.1.name ∉ u.2.block) (fun _ _ _ => inferInstance) ?_
    rw [redeclaring, String.toList_ofList]
    decide +kernel
  · refine @exists_of_firstMark _ (fun file result us =>
      result.isOk = true ∧ file.globals.map Global.name = [] ∧
      ∃ u ∈ us, u.1 = ⟨.mention, ⟨0, 86, 89⟩, "tmp"⟩ ∧ u.2.binders.names = [])
      (fun _ _ _ => inferInstance) ?_
    rw [peeking, String.toList_ofList]
    decide +kernel

end Surface.File

end DataMarks
