/-
  The texts of the library, read.

  `Lexer.scan` goes on behind the piece it has read, so it recurses on lengths and does not
  evaluate well. `Lexer.scanFrom` counts down the characters of a piece instead; it is the
  same function, and it recurses on the characters alone. With it the library is read once
  here: how many functions there are, that the defaults of their parameters fit and that these
  have different names.
-/
import DataMarks.Library
import DataMarks.Proofs.PlacedFiles

namespace DataMarks

open List

namespace Lexer

/-- Scans on after passing over so many more characters. -/
def scanFrom (file : Nat) : Nat → Nat → List Char → List (Except LexError Token)
  | _, _, [] => []
  | offset, skip + 1, _ :: cs => scanFrom file offset skip cs
  | offset, 0, c :: cs =>
    match piece offset c cs with
    | (p, more) =>
      let stop := offset + byteLength (c :: cs.take more)
      (p.item? file offset stop).toList ++ scanFrom file stop more cs

theorem scanFrom_eq (file offset skip : Nat) (cs : List Char) :
    scanFrom file offset skip cs = scan file offset (cs.drop skip) := by
  induction cs generalizing offset skip with
  | nil => simp [scanFrom, scan]
  | cons c cs ih =>
    cases skip with
    | zero =>
      rw [scanFrom, drop_zero, scan]
      simp only [ih]
    | succ skip =>
      rw [scanFrom, ih]
      rfl

end Lexer

/-- Reads a file from its characters. -/
def Surface.File.parseChars (file size : Nat) (source : List Char) :
    Except ParseError Surface.File :=
  match (Lexer.scanFrom file 0 0 source).mapM id with
  | .error e => .error (.lexical e)
  | .ok ts => (Parser.blocks { file, tokens := ts, last := 0, size }).map fun r => ⟨r.1⟩

theorem Surface.File.parse_eq (file : Nat) (source : String) :
    File.parse file source = File.parseChars file source.utf8ByteSize source.toList := by
  have hblocks : ∀ input, (do return File.mk (← Parser.blocks) : Parser File) input =
      (Parser.blocks input).map fun r => (File.mk r.1, r.2) := by
    intro input
    show (Parser.blocks input >>= fun r => Except.ok (File.mk r.1, r.2)) = _
    cases Parser.blocks input <;> rfl
  unfold File.parse File.parseChars Parser.run tokens lex
  rw [Lexer.scanFrom_eq, drop_zero]
  cases (Lexer.scan file 0 source.toList).mapM id with
  | error e => rfl
  | ok ts =>
    simp only [hblocks]
    cases Parser.blocks { file, tokens := ts, last := 0, size := source.utf8ByteSize } <;> rfl

namespace Library

def functionsOf : Except ParseError Surface.File → List Surface.Function
  | .ok f => f.functions
  | .error _ => []

theorem functions_read (file : Nat) (name source : String) :
    (read file name source).functions =
      functionsOf (Surface.File.parseChars file source.utf8ByteSize source.toList) := by
  rw [← Surface.File.parse_eq]
  cases h : Surface.File.parse file source with
  | ok f => simp [read, functionsOf, h]
  | error e => simp [read, functionsOf, h]

/-- There are so many functions, the defaults of their parameters have the right types, and no
function has two parameters of one name. -/
def Reads (n : Nat) (fs : List Surface.Function) : Prop :=
  fs.length = n ∧ ∀ f ∈ fs, (∀ p ∈ f.params, p.Fits) ∧ (f.params.map Surface.Param.name).Nodup

instance (n : Nat) (fs : List Surface.Function) : Decidable (Reads n fs) :=
  inferInstanceAs (Decidable (_ ∧ _))

theorem reads_plane : Reads 7 (read 0 "P2D" plane).functions := by
  rw [functions_read, plane, String.toList_ofList]
  decide +kernel

theorem reads_solid : Reads 4 (read 1 "P3D" solid).functions := by
  rw [functions_read, solid, String.toList_ofList]
  decide +kernel

theorem modules_eq : modules = [read 0 "P2D" plane, read 1 "P3D" solid] := rfl

theorem size_eq : size = 11 := by
  unfold size
  rw [modules_eq]
  simp [reads_plane.1, reads_solid.1]

theorem wellFormed_read {file : Nat} {name source : String} :
    ∀ f ∈ (read file name source).functions, f.WellFormed := by
  unfold read
  split
  · rename_i hparse
    exact Surface.File.wellFormed_of_parse hparse
  · exact fun _ hf => absurd hf not_mem_nil

/-- The functions of the library are well formed, and so are the defaults of their parameters. -/
theorem wellFormed_of_mem {m : Module} (hm : m ∈ modules) {f : Surface.Function}
    (hf : f ∈ m.functions) : f.WellFormed ∧ ∀ p ∈ f.params, p.Fits := by
  rw [modules_eq] at hm
  rcases mem_cons.mp hm with rfl | hm
  · exact ⟨wellFormed_read f hf, (reads_plane.2 f hf).1⟩
  · obtain rfl := mem_singleton.mp hm
    exact ⟨wellFormed_read f hf, (reads_solid.2 f hf).1⟩

theorem nodup_params_of_mem {m : Module} (hm : m ∈ modules) {f : Surface.Function}
    (hf : f ∈ m.functions) : (f.params.map Surface.Param.name).Nodup := by
  rw [modules_eq] at hm
  rcases mem_cons.mp hm with rfl | hm
  · exact (reads_plane.2 f hf).2
  · obtain rfl := mem_singleton.mp hm
    exact (reads_solid.2 f hf).2

end Library

end DataMarks
