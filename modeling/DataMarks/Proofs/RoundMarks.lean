/-
  Circles and wedges have as many vertices as their sides ask for.

  The text of a circle or of a wedge is known but for the number of sides, which stands in it as
  the last index of a loop and as a divisor. It is read exactly if these numbers are in range,
  and then each round of the loop emits 3 vertices of a circle or 6 of a wedge
  (`Prebuilt.round_marks_promised`).
-/
import DataMarks.Prebuilt
import DataMarks.Proofs.FlattenedForm
import DataMarks.Proofs.MarkOutlines
import DataMarks.Proofs.TextParts

namespace DataMarks

open List Library

/-- A loop at the end of a body is one at the end of the code, with the same bounds. -/
theorem Compile.runs_stmts_lastLoop {expand : Expander} {ss : List Surface.Stmt} {span : Span}
    {x : String} {first last : Int} {body : Surface.Stmt} {s s' : Compiler} {u : Unit}
    {code : List Stmt}
    (h : Runs (stmts expand (ss ++ [.loop span x first last body])) s u s' code) :
    ∃ front y inner, code = front ++ [.loop y first last inner] := by
  induction ss generalizing s code with
  | nil =>
    obtain ⟨s₁, c₁, c₂, h₁, h₂, rfl⟩ := runs_stmts_cons h
    obtain ⟨y, _, _, inner, -, -, -, rfl⟩ := runs_loop h₁
    rw [stmts] at h₂
    obtain ⟨-, -, rfl⟩ := runs_pure_iff.mp h₂
    exact ⟨[], y, inner, rfl⟩
  | cons st ss ih =>
    obtain ⟨s₁, c₁, c₂, -, h₂, rfl⟩ := runs_stmts_cons h
    obtain ⟨front, y, inner, rfl⟩ := ih h₂
    exact ⟨c₁ ++ front, y, inner, (append_assoc _ _ _).symm⟩

variable {name : String} {ls : List Lexeme}

namespace Surface

open Compile

theorem Function.Draws.compile {n last : Nat} {imports : List Import} {f : Function}
    (hload : ∀ d ∈ imports, (loadBlock (.import_ d) {}).result.isOk = true)
    (h : f.Draws name n last (imports.flatMap fun d => (Block.import_ d).definitions)) :
    ∃ specs spec front y inner,
      (File.mk (imports.map .import_ ++ [.function f])).compile = .ok specs ∧
      specs.get? name = some spec ∧ spec.statements = front ++ [.loop y 0 last inner] ∧
      DataMarks.Stmt.EmitsPerRound n spec.statements := by
  obtain ⟨rfl, hkind, ⟨ss, span, x, body, hbody⟩, hf, hcode⟩ := h
  obtain ⟨file, hfile⟩ : ∃ file : File, file = ⟨imports.map .import_ ++ [.function f]⟩ := ⟨_, rfl⟩
  have hfunctions : file.functions = [f] := by simp [hfile, File.functions]
  have hdefinitions : file.definitions =
      imports.flatMap (fun d => (Block.import_ d).definitions) ++ [⟨none, f⟩] := by
    simp [hfile, File.definitions, Block.definitions, flatMap_map]
  have hglobals : file.globals = [] := by simp [hfile, File.globals, Block.globals]
  rw [← hdefinitions, ← hglobals] at hcode
  split at hcode
  case h_2 => exact hcode.elim
  rename_i spec hresult
  obtain ⟨specs, hspecs⟩ : ∃ specs, file.compile = .ok specs := by
    refine File.accepted_iff_isOk.mpr ⟨?_, ?_⟩
    · rw [hfile]
      exact forall_mem_append.mpr ⟨forall_mem_map.mpr hload, forall_mem_singleton.mpr hf⟩
    · rw [hfunctions]
      exact forall_mem_singleton.mpr fun _ => File.exists_ok_iff.mp ⟨spec, hresult⟩
  have hloaded := (File.accepted_iff.mp ⟨specs, hspecs⟩).1
  have hname : file.renderable? f.name = some f := by
    simp [File.renderable?, lastRenderable?, hfunctions, Function.isRenderable, hkind]
  obtain ⟨spec', hget, hspec'⟩ := File.get?_of_renderable? hspecs hname
  have hsame : spec' = spec := by
    rw [File.specification, File.state_load hloaded, function_eq, hresult] at hspec'
    cases hspec'
    rfl
  subst hsame
  rw [File.specification_eq hloaded] at hspec'
  obtain ⟨s', code, hrun⟩ := runs_of_result hspec'
  obtain ⟨_, _, _, _, _, _, statements, -, -, hblock, heq⟩ := runs_functionWithin_steps hrun
  obtain ⟨_, hstmts, -⟩ := runs_inFrame_iff.mp hblock
  rw [hbody] at hstmts
  obtain ⟨front, y, inner, hlast⟩ := runs_stmts_lastLoop hstmts
  exact ⟨specs, spec', front, y, inner, hfile ▸ hspecs, hget, heq ▸ hlast, hcode⟩

end Surface

section
variable {s : Specification} {n : Nat} {y : String} {last : Nat} {front inner : List Stmt}

theorem Stmt.emitCountAll_append (ss ts : List Stmt) :
    emitCountAll (ss ++ ts) = emitCountAll ss + emitCountAll ts := by
  induction ss with
  | nil => rw [nil_append, emitCountAll, Nat.zero_add]
  | cons s ss ih => rw [cons_append, emitCountAll, emitCountAll, ih, Nat.add_assoc]

/-- What flattening a specification comes to that should emit so many vertices. -/
def Specification.Counts (n : Nat) (s : Specification) : Prop :=
  if n ≤ Flattening.maxEmits then ∃ f, s.flatten = .ok f ∧ f.count = n
  else s.flatten = .error .tooManyEmits

/-- The flattener counts the rounds of the loop, unless there are too many. -/
theorem Stmt.EmitsPerRound.counts (hn : n ≤ Flattening.maxEmits)
    (hlast : last ≤ Surface.Parser.maxInt) (hs : s.statements = front ++ [.loop y 0 last inner])
    (h : EmitsPerRound n s.statements) : s.Counts (n * (last + 1)) := by
  rw [hs, Stmt.EmitsPerRound, Stmt.lastBody, dropLast_concat, getLast?_concat] at h
  obtain ⟨hfront, hinner, hfits⟩ := h
  dsimp only at hinner hfits
  obtain ⟨hfrontFits, hinnerFits⟩ := forall_mem_append.mp hfits
  have hparts : ∀ t ∈ Stmt.partsAll s.statements, t.SpanFits ∧ t.EmptyLoopFits := by
    rw [hs, Stmt.partsAll_append, forall_mem_append, Stmt.partsAll_singleton,
      Stmt.forall_parts_loop]
    refine ⟨hfrontFits, ⟨?_, fun _ => hinner ▸ hn⟩, hinnerFits⟩
    show (last : Int) - 0 ≤ Flattening.maxDistance
    unfold Flattening.maxDistance
    unfold Surface.Parser.maxInt at hlast
    omega
  have hcount : Stmt.emitCountAll s.statements = n * (last + 1) := by
    rw [hs, Stmt.emitCountAll_append, hfront, Nat.zero_add, Stmt.emitCountAll, Stmt.emitCountAll,
      Nat.add_zero, Stmt.emitCount, hinner, loopRounds]
    congr
  have hspans := fun t ht => (hparts t ht).1
  unfold Specification.Counts
  rw [← hcount]
  split
  · rename_i hle
    obtain ⟨f, hf⟩ := Specification.flatten_succeeds hspans (fun t ht => (hparts t ht).2) hle
    exact ⟨f, hf, Specification.count_of_flatten hspans hf⟩
  · rename_i hlt
    cases hflat : s.flatten with
    | error e => cases e; rfl
    | ok f =>
      obtain ⟨_, _, _, _, -, -, -, -, hle, -⟩ := Specification.flatten_eq hflat
      rw [Specification.count_of_flatten hspans hflat] at hle
      exact absurd hle hlt

end

/-- What comes of reading a text with these lexemes. -/
theorem Surface.File.parse_cases {file : Nat} {source : String} {P : List Surface.Block → Prop}
    {E : ParseError → Prop} (hread : Lexer.Reads source.toList ls [])
    (h : ∀ (i : Surface.Input) size, i.Reads file size → i.lexemes = ls →
      Surface.Parser.Ensures i (fun bs _ => P bs) E Surface.Parser.blocks) :
    (∃ bs, File.parse file source = .ok ⟨bs⟩ ∧ P bs) ∨
      ∃ e, File.parse file source = .error e ∧ E e := by
  obtain ⟨ts, hts, hls⟩ := hread.tokens file
  have hplaced := placed_tokens file source
  rw [hts] at hplaced
  have hblocks := h ⟨file, ts, 0, source.utf8ByteSize⟩ _ ⟨rfl, rfl, hplaced⟩ hls
  refine (Parser.run_cases (P := fun f => P f.blocks) hts
    (.seq hblocks fun _ _ hbs => .pure hbs)).imp_left ?_
  rintro ⟨⟨bs⟩, hparse, hbs⟩
  exact ⟨bs, hparse, hbs⟩

namespace Prebuilt

open Lexer Surface Surface.Parser

/-- The mark is there exactly if it has no more sides than the greatest number of them, and then it
emits so many vertices per side. -/
def Promised (sides greatest perSide : Nat) (mark : Except SourceError Specification) : Prop :=
  if sides ≤ greatest then ∃ s, mark = .ok s ∧ s.Counts (perSide * sides)
  else ∃ e, mark = .error (.parse e)

theorem promised {source : String} {greatest perSide last : Nat} {F : Prop}
    (hread : Reads source.toList ls []) (hperSide : perSide ≤ Flattening.maxEmits)
    (hF : F ↔ last + 1 ≤ greatest) (hlast : F → last ≤ maxInt)
    (h : ∀ (i : Surface.Input) size, i.Reads firstFile size → i.lexemes = ls →
      Ensures i (fun bs _ => F ∧ ∃ (imports : List Import) (f : Surface.Function),
            bs = imports.map .import_ ++ [.function f] ∧
            (∀ d ∈ imports, (Compile.loadBlock (.import_ d) {}).result.isOk = true) ∧
            f.Draws name perSide last (imports.flatMap fun d => (Block.import_ d).definitions))
        (fun _ => ¬ F) Parser.blocks) :
    Promised (last + 1) greatest perSide (compileOne source name) := by
  unfold Promised compileOne compileSource
  obtain ⟨bs, hparse, hle, imports, f, rfl, hload, hf⟩ | ⟨e, hparse, hlt⟩ :=
    File.parse_cases hread h
  · obtain ⟨specs, spec, front, y, inner, hcompile, hget, hs, hemits⟩ := hf.compile hload
    rw [if_pos (hF.mp hle), hparse]
    simp only [hcompile]
    refine ⟨spec, ?_, hemits.counts hperSide (hlast hle) hs⟩
    show Except.ok ((specs.get? name).getD default) = _
    rw [hget]
    rfl
  · rw [if_neg fun h => hlt (hF.mpr h), hparse]
    exact ⟨e, rfl⟩

end Prebuilt

/-! ## Texts -/

instance {α : Type} {i : Surface.Input} {Q : α → Surface.Input → Prop} {E : ParseError → Prop}
    {p : Surface.Parser α} [∀ a r, Decidable (Q a r)] [∀ e, Decidable (E e)] :
    Decidable (Surface.Parser.Ensures i Q E p) :=
  match h : p i with
  | .ok _ => decidable_of_iff _ (Surface.Parser.ensures_of_ok h).symm
  | .error _ => decidable_of_iff _ (Surface.Parser.ensures_of_error h).symm

namespace Prebuilt

open Lexer Surface Surface.Parser

/-- The lexemes of the parameters of the mark at the end of a part of a text. -/
def paramsIn (ls : List Lexeme) : List Lexeme :=
  ((ls.dropWhile (· ≠ .symbol .openParen)).tail).takeWhile (· ≠ .symbol .openBrace)

/-- A circle, by the parts of its text and the numbers between them. -/
def circleOutline (a b c d : List Char) (last sides : String) : Outline :=
  { name := "Circle", params := paramsIn (lexemesOf a), index := "i", last
    inner := lexemesOf b ++ .float sides :: (lexemesOf c ++ .float sides :: lexemesOf d) }

def CircleReads (a b c d : List Char) : Prop :=
  (Closed a ∧ Closed b ∧ Closed c ∧ Closed d) ∧
  lexemesOf a = (circleOutline a b c d "" "").head ++ loopStart "i" ∧
  ∀ last sides, (circleOutline a b c d last sides).Draws 3 []

def wedgeOutline (a d : List Char) (last sides : String) : Outline :=
  { name := "Wedge", params := paramsIn (lexemesOf a), index := "i", last
    quotients := [("dTheta", [.symbol .openParen, .name "theta2", .symbol .minus, .name "theta1",
      .symbol .closeParen]), ("dL", [.name "length"])]
    divisor := sides, inner := lexemesOf d }

/-- The import of one function of a module. -/
def importOne (module name : String) : List Lexeme :=
  [.keyword .import_, .symbol .openBrace, .name name, .symbol .closeBrace, .keyword .from_,
    .name module, .symbol .semicolon]

def WedgeReads (m : Module) (a b c d : List Char) : Prop :=
  (Closed a ∧ Closed b ∧ Closed c ∧ Closed d) ∧
  (lexemesOf a = importOne m.name "Triangle" ++ ((wedgeOutline a d "" "").head ++
      quotientStart ("dTheta", [.symbol .openParen, .name "theta2", .symbol .minus, .name "theta1",
        .symbol .closeParen])) ∧
    lexemesOf b = .symbol .semicolon :: quotientStart ("dL", [.name "length"]) ∧
    lexemesOf c = .symbol .semicolon :: loopStart "i") ∧
  m.named "Triangle" ≠ [] ∧
  ∀ last sides, (wedgeOutline a d last sides).Draws 6
    ((m.named "Triangle").map fun f => ⟨some m.name, f⟩)

/-- The module for the plane, from its text. -/
def planeModule (source : List Char) : Module :=
  ⟨"P2D", Library.functionsOf (File.parseChars 0 Library.plane.utf8ByteSize source)⟩

/-- The text of a wedge is cut into parts that are read, with the text of the module. -/
def WedgeText (plane : List Char) : Prop :=
  ∃ a b c d : String,
    (∀ n, wedgeSource n = weave a [(.int (Nat.repr n), b), (.int (Nat.repr n), c),
      (.int (Nat.repr (n - 1)), d)]) ∧
    WedgeReads (planeModule plane) a.toList b.toList c.toList d.toList

section Deciding

-- The spans and the numbers in the texts are not known, so the kernel runs the parser and the
-- compiler for those with which they would not do as promised, if there are any.

/-- What holds of a value that it fails of, if of any, holds of all. -/
noncomputable local instance (priority := low) decidableForall {α : Type} [Nonempty α]
    {P : α → Prop} [∀ a, Decidable (P a)] : Decidable (∀ a, P a) :=
  decidable_of_iff (P (Classical.epsilon fun a => ¬ P a))
    ⟨fun h a => by_contra fun ha => Classical.epsilon_spec (p := fun a => ¬ P a) ⟨a, ha⟩ h,
      fun h => h _⟩

noncomputable local instance decidableReadable {o : Outline} :
    (qs : List (String × List Lexeme)) → (j : Surface.Input) → (Q : List Surface.Stmt → Prop) →
      [∀ ss, Decidable (Q ss)] → Decidable (o.ReadableBody qs j Q)
  | [], j, Q, _ => by
    unfold Outline.ReadableBody
    infer_instance
  | q :: qs, j, Q, _ => by
    unfold Outline.ReadableBody
    haveI := @decidableReadable o qs
    infer_instance

noncomputable local instance {o : Outline} {n : Nat} {ds : List Definition} :
    Decidable (o.Draws n ds) := by
  unfold Outline.Draws Outline.Readable
  infer_instance

noncomputable local instance (cs : List Char) : Decidable (Closed cs) := by
  unfold Closed
  infer_instance

theorem circle_text : ∃ a b c d : String,
    (∀ n, circleSource n = weave a [(.int (Nat.repr (n - 1)), b),
      (.float (Nat.repr n ++ ".0"), c), (.float (Nat.repr n ++ ".0"), d)]) ∧
    CircleReads a.toList b.toList c.toList d.toList := by
  refine ⟨_, _, _, _, fun n => rfl, ?_⟩
  dsimp only [toString]
  repeat rewrite [String.toList_ofList]
  refine ⟨?closed, ?head, ?draws⟩
  case closed => refine ⟨?_, ?_, ?_, ?_⟩ <;> decide +kernel
  case head => decide +kernel
  case draws => decide +kernel

set_option maxRecDepth 100000 in
theorem wedge_text : WedgeText plane.toList := by
  rewrite [plane, String.toList_ofList]
  refine ⟨_, _, _, _, fun n => rfl, ?_⟩
  dsimp only [toString]
  repeat rewrite [String.toList_ofList]
  refine ⟨?closed, ?head, ?imported, ?draws⟩
  case closed => refine ⟨?_, ?_, ?_, ?_⟩ <;> decide +kernel
  case head => refine ⟨?_, ?_, ?_⟩ <;> decide +kernel
  case imported => decide +kernel
  case draws => decide +kernel

end Deciding

theorem succeeds_importOne {i : Surface.Input} {module : String} {rest : List Lexeme}
    (hi : i.lexemes = importOne module name ++ rest) :
    Succeeds i (fun b m => m.lexemes = rest ∧
      ∃ s₁ s₂, b = .import_ ⟨s₁, module, some [(s₂, name)]⟩) block := by
  refine .bind (.peekNext hi (.bind ?_))
  refine .bind (.nextSpan (.bind (.advanceNext hi fun hskip =>
    .seq (@succeeds_importedList _ _ [(nowhere, name)] hskip) fun names m hm => ?_)))
  refine .bind (.nameNext hm.1 fun hsemicolon => .bind (.expectNext hsemicolon fun hend =>
    .bind (.spanFrom (.pure (.pure ⟨hend, ?_⟩)))))
  obtain ⟨ns, rfl, hns⟩ := Option.map_eq_some_iff.mp hm.2
  obtain ⟨⟨s, _⟩, rfl, rfl⟩ := map_eq_singleton_iff.mp hns
  exact ⟨_, s, rfl⟩

theorem read_eq (file : Nat) (name source : String) : read file name source =
    ⟨name, functionsOf (File.parseChars file source.utf8ByteSize source.toList)⟩ := by
  rw [← functions_read file name]
  rfl

theorem module?_plane : module? "P2D" = some (planeModule plane.toList) := by
  have hread : module? "P2D" = some (read 0 "P2D" plane) := rfl
  rw [hread, read_eq, planeModule]

/-- The import of one function of a module brings the functions of the module with its name. -/
theorem import_one {m : Module} {module : String} (hm : module? module = some m)
    (hname : m.named name ≠ []) (s₁ s₂ : Span) :
    (Compile.loadBlock (.import_ ⟨s₁, module, some [(s₂, name)]⟩) {}).result.isOk = true ∧
      (Block.import_ ⟨s₁, module, some [(s₂, name)]⟩).definitions =
        (m.named name).map fun f => ⟨some m.name, f⟩ := by
  constructor
  · rw [Compile.loadBlock, Compile.loadImport, hm]
    simp only [Compile.importNames]
    cases hnamed : m.named name with
    | nil => exact absurd hnamed hname
    | cons f fs => rfl
  · simp only [Block.definitions, hm, flatMap_singleton]

theorem promised_circle (n : Nat) : Promised (max n 1) 2147483648 3 (circle n) := by
  obtain ⟨a, b, c, d, hsource, ⟨ha, hb, hc, hd⟩, hstart, hdraws⟩ := circle_text
  obtain ⟨last, hlast⟩ : ∃ last, max n 1 = last + 1 := ⟨max n 1 - 1, by omega⟩
  obtain ⟨o, ho⟩ : ∃ o, o = circleOutline a.toList b.toList c.toList d.toList (Nat.repr last)
    (Nat.repr (last + 1) ++ ".0") := ⟨_, rfl⟩
  have hread : Reads (circleSource (last + 1)).toList o.lexemes [] := by
    have hwoven := reads_weave ha [(.int (Nat.repr last), b),
      (.float (Nat.repr (last + 1) ++ ".0"), c), (.float (Nat.repr (last + 1) ++ ".0"), d)]
      (by simp [isNumeral_int, isNumeral_float, hb, hc, hd])
    rw [hsource]
    rw [hstart, append_assoc] at hwoven
    subst ho
    simp only [flatMap_cons, flatMap_nil, append_nil] at hwoven
    exact hwoven
  have hfits : o.Fits o.quotients ↔ last + 1 ≤ 2147483648 := by
    rw [ho, Outline.Fits, circleOutline, Number.digitsValue_repr]
    exact ⟨fun h => Nat.succ_le_succ h.2, fun h => ⟨forall_mem_nil _, Nat.le_of_succ_le_succ h⟩⟩
  rw [hlast, circle, hlast]
  refine promised hread (by decide) hfits (fun h => Nat.le_of_succ_le_succ (hfits.mp h))
    fun i size hi hls => .bind (.rounds ((Outline.ensures_mark hi hls (ho ▸ hdraws _ _)
      (Nat.succ_pos _)).mono ?_))
  rintro bs - ⟨hle, f, rfl, hf⟩
  refine ⟨hle, [], f, rfl, forall_mem_nil _, ?_⟩
  rwa [ho, circleOutline, Number.digitsValue_repr] at hf

theorem promised_wedge (n : Nat) : Promised (max n 1) 2147483647 6 (wedge n) := by
  obtain ⟨a, b, c, d, hsource, ⟨ha, hb, hc, hd⟩, ⟨hstart, hsecond, hthird⟩, hsome, hdraws⟩ :=
    wedge_text
  obtain ⟨last, hlast⟩ : ∃ last, max n 1 = last + 1 := ⟨max n 1 - 1, by omega⟩
  obtain ⟨o, ho⟩ : ∃ o, o = wedgeOutline a.toList d.toList (Nat.repr last) (Nat.repr (last + 1)) :=
    ⟨_, rfl⟩
  have hread : Reads (wedgeSource (last + 1)).toList
      (importOne "P2D" "Triangle" ++ o.lexemes) [] := by
    have hwoven := reads_weave ha [(.int (Nat.repr (last + 1)), b),
      (.int (Nat.repr (last + 1)), c), (.int (Nat.repr last), d)]
      (by simp [isNumeral_int, hb, hc, hd])
    rw [hsource]
    subst ho
    simp only [flatMap_cons, flatMap_nil, append_nil, hstart, hsecond, hthird,
      append_assoc, cons_append] at hwoven
    exact hwoven
  have hfits : o.Fits o.quotients ↔ last + 1 ≤ 2147483647 := by
    rw [ho, Outline.Fits, wedgeOutline, Number.digitsValue_repr, Number.digitsValue_repr]
    exact ⟨fun h => h.1 _ mem_cons_self, fun h => ⟨fun _ _ => h, Nat.le_of_succ_le h⟩⟩
  rw [hlast, wedge, hlast]
  refine promised hread (by decide) hfits (fun h => Nat.le_of_succ_le (hfits.mp h))
    fun i size hi hls => .bind (.rounds (ensures_block hls ((places_block.rest hi hls
      ((succeeds_importOne hls).mono fun b m hm => ⟨congrArg length hm.1, hm.2⟩)).mono ?_)))
  rintro block m ⟨hm, hlexemes, s₁, s₂, rfl⟩
  obtain ⟨hload, hdefinitions⟩ := import_one module?_plane hsome s₁ s₂
  refine (Outline.ensures_mark hm hlexemes (ho ▸ hdraws _ _)
    (by rw [hls]; exact Nat.succ_pos _)).mono ?_
  rintro bs - ⟨hle, f, rfl, hf⟩
  refine ⟨hle, [_], f, rfl, forall_mem_singleton.mpr hload, ?_⟩
  rw [flatMap_singleton, hdefinitions]
  rwa [ho, wedgeOutline, Number.digitsValue_repr] at hf

/-- With no side asked for there is one. A circle is there up to 2147483648 sides and emits 3
vertices for each, a wedge up to 2147483647 sides with 6 vertices for each; above that the text of
the mark is refused. Flattening them counts just these vertices, or refuses them as too many. -/
theorem round_marks_promised (n : Nat) :
    Promised (max n 1) 2147483648 3 (circle n) ∧ Promised (max n 1) 2147483647 6 (wedge n) :=
  ⟨promised_circle n, promised_wedge n⟩

end Prebuilt

end DataMarks
