/-
  Clusters: the characters of a text as a reader counts them, each with the marks
  that belong to it, and the columns that a text takes on a page.
-/
import DataMarks.Text.ClusterClass

namespace DataMarks.Text

namespace Cluster

open ClusterClass

/-- Whether two parts belong to one Hangul syllable. -/
def inSyllable : ClusterClass → ClusterClass → Bool
  | leading, b => b = leading || b = vowel || b = openSyllable || b = closedSyllable
  | openSyllable, b | vowel, b => b = vowel || b = trailing
  | closedSyllable, b | trailing, b => b = trailing
  | _, _ => false

/-- Whether a consonant ends a conjunct: before it is a consonant, with a linker between. The last
character before it comes first. -/
def endsConjunct (before : List ClusterClass) : Bool :=
  (before.takeWhile isWithinConjunct).contains linker
    && (before.dropWhile isWithinConjunct).head? = some consonant

/-- Whether a pictograph continues the one before, by a joiner. -/
def continuesPictograph : List ClusterClass → Bool
  | joiner :: before => (before.dropWhile isExtender).head? = some pictograph
  | _ => false

/-- Whether a regional character is the second half of a flag. -/
def completesFlag (before : List ClusterClass) : Bool :=
  (before.takeWhile (· = regional)).length % 2 = 1

/-- Whether a character belongs to the cluster of the one before it. The last character before it
comes first. -/
def joins : List ClusterClass → ClusterClass → Bool
  | [], _ => false
  | a :: before, b =>
    (a = carriageReturn && b = lineFeed)
      || (!a.isControl && !b.isControl
        && (inSyllable a b || b.isMark || a = prepended
          || (b = consonant && endsConjunct (a :: before))
          || (b = pictograph && continuesPictograph (a :: before))
          || (b = regional && completesFlag (a :: before))))

/-- The number of clusters that start in a text after the characters `before`. -/
def count : (before : List ClusterClass) → List ClusterClass → Nat
  | _, [] => 0
  | before, c :: cs => (if joins before c then 0 else 1) + count (c :: before) cs

end Cluster

/-- The number of clusters of a text. -/
def clusters (s : String) : Nat := Cluster.count [] (s.toList.map ClusterClass.ofChar)

/-- The columns that a text takes on a page: one for each cluster. A text of ASCII characters takes
one for each of them, a line end of two characters too. -/
def columns (s : String) : Nat :=
  if s.toList.all (·.toNat < 128) then s.length else clusters s

end DataMarks.Text
