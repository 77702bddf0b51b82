import TinyLisp.Text.BreakClass

/-!
# The clusters of a text

A text is cut into clusters from left to right. Whether a character continues the cluster before it is decided by its class
and by the classes in that cluster (`continues`), by the rules of the Unicode standard for extended grapheme clusters. They
ask for no more: what the rules look back at never lies behind the start of the cluster. `flatten_clusters` says that the
clusters are the text.
-/

namespace TinyLisp

namespace BreakClass

/-- Whether the text breaks before and after a character of the class, whatever stands beside it. -/
def isBreak : BreakClass → Bool
  | .lineFeed | .carriageReturn | .control => true
  | _ => false

/-- Whether a character of the class continues any cluster that does not end in a break. -/
def isTail : BreakClass → Bool
  | .extend | .linker | .joiner | .nonJoiner | .spacingMark => true
  | _ => false

/-- Whether two characters of these classes, one after the other, belong to one Hangul syllable. -/
def sameSyllable : BreakClass → BreakClass → Bool
  | .opening, .opening | .opening, .vowel | .opening, .openSyllable | .opening, .closedSyllable => true
  | .vowel, .vowel | .vowel, .closing | .openSyllable, .vowel | .openSyllable, .closing => true
  | .closing, .closing | .closedSyllable, .closing => true
  | _, _ => false

/-- Whether classes, the last one first, end with a consonant and marks on it that join it to a consonant to come. One linker
does, which may have been met already. -/
def endsLinked (linked : Bool) : List BreakClass → Bool
  | .linker :: before => endsLinked true before
  | .extend :: before | .joiner :: before => endsLinked linked before
  | .consonant :: _ => linked
  | _ => false

/-- Whether classes, the last one first, end with a pictograph and marks on it. -/
def endsPictured : List BreakClass → Bool
  | .extend :: before | .linker :: before | .nonJoiner :: before => endsPictured before
  | .pictograph :: _ => true
  | _ => false

/-- Whether classes, the last one first, end with the first letter of a flag. -/
def endsHalfFlag : List BreakClass → Bool
  | .flagLetter :: before => !endsHalfFlag before
  | _ => false

/-- Whether a character of a class continues a cluster with these classes, the last one first. -/
def continues (next : BreakClass) : List BreakClass → Bool
  | [] => false
  | last :: before =>
    if last.isBreak || next.isBreak then last == .carriageReturn && next == .lineFeed
    else next.isTail || last == .prepended || sameSyllable last next ||
      (next == .consonant && endsLinked false (last :: before)) ||
      (next == .pictograph && last == .joiner && endsPictured before) ||
      (next == .flagLetter && endsHalfFlag (last :: before))

end BreakClass

/-- The clusters of a text behind a cluster that may go on, which is held from its last character to its first. -/
def clustersBehind (cluster : List Char) (classes : List BreakClass) : List Char → List (List Char)
  | [] => [cluster.reverse]
  | c :: cs =>
    if (breakClass c).continues classes then clustersBehind (c :: cluster) (breakClass c :: classes) cs
    else cluster.reverse :: clustersBehind [c] [breakClass c] cs

/-- The clusters of a text. -/
def clusters : List Char → List (List Char)
  | [] => []
  | c :: cs => clustersBehind [c] [breakClass c] cs

/-- The clusters behind an unfinished one, put together again. -/
theorem flatten_clustersBehind (cluster : List Char) (classes : List BreakClass) (cs : List Char) :
    (clustersBehind cluster classes cs).flatten = cluster.reverse ++ cs := by
  induction cs generalizing cluster classes with
  | nil => simp [clustersBehind]
  | cons c cs ih =>
    rw [clustersBehind]
    split <;> simp [ih]

/-- The clusters of a text, put together again, are the text. -/
@[simp] theorem flatten_clusters (cs : List Char) : (clusters cs).flatten = cs := by
  cases cs with
  | nil => rfl
  | cons c cs => simp [clusters, flatten_clustersBehind]

/-- What a cluster holds, the text holds. -/
theorem mem_of_mem_clusters {k cs : List Char} (hk : k ∈ clusters cs) {c : Char} (hc : c ∈ k) : c ∈ cs := by
  rw [← flatten_clusters cs]
  exact List.mem_flatten_of_mem hk hc

end TinyLisp
