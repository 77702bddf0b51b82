import TinyLisp.Text.Cluster

/-!
# Backspaces in a line

A backspace in a line takes back what stands before it: the last cluster that is still there, if there is one. `takeBack?` is
the line that is left. The size of each cluster is kept in one byte, so of a cluster of 256 bytes or more a backspace takes
back only the size modulo 256, from the end; where that would leave a part of a character there is no such line.
`takeBack?_of_not_mem` says that a line without a backspace stays as it is.
-/

namespace TinyLisp

/-- The character that takes back what stands before it. -/
def backspace : Char := '\x08'

/-- A line as far as it is typed: its text, the last character first, and the sizes of the clusters that backspaces can still
take back, the last one first. -/
structure Draft where
  text : List Char := []
  sizes : List UInt8 := []
  deriving DecidableEq, Repr

namespace Draft

/-- The draft with one more cluster typed; none if a backspace would leave a part of a character. -/
def push? (d : Draft) (cluster : List Char) : Option Draft :=
  if cluster = [backspace] then
    match d.sizes with
    | [] => some d
    | n :: sizes => (dropWidth n.toNat d.text).map fun text => ⟨text, sizes⟩
  else some ⟨cluster.reverse ++ d.text, UInt8.ofNat (width cluster) :: d.sizes⟩

/-- The draft with more clusters typed, one after the other. -/
def pushAll? (d : Draft) : List (List Char) → Option Draft
  | [] => some d
  | k :: ks => (d.push? k).bind (pushAll? · ks)

end Draft

/-- The text that is left of a line when its backspaces have taken back what stands before them; none if one of them would
leave a part of a character. -/
def takeBack? (line : List Char) : Option (List Char) := (Draft.pushAll? {} (clusters line)).map fun d => d.text.reverse

namespace Draft

/-- A cluster that is no backspace is typed behind the text. -/
theorem push?_of_ne {d : Draft} {k : List Char} (hk : k ≠ [backspace]) :
    d.push? k = some ⟨k.reverse ++ d.text, UInt8.ofNat (width k) :: d.sizes⟩ := if_neg hk

/-- Clusters without a backspace are typed behind the text. -/
theorem text_pushAll?_of_ne {d : Draft} {ks : List (List Char)} (hks : ∀ k ∈ ks, k ≠ [backspace]) :
    (d.pushAll? ks).map Draft.text = some (ks.flatten.reverse ++ d.text) := by
  induction ks generalizing d with
  | nil => simp [pushAll?]
  | cons k ks ih =>
    rw [pushAll?, push?_of_ne (hks k (by simp)), Option.bind_some, ih fun k hk => hks k (by simp [hk])]
    simp

end Draft

/-- A line without a backspace stays as it is. -/
theorem takeBack?_of_not_mem {line : List Char} (h : backspace ∉ line) : takeBack? line = some line := by
  have hks : ∀ k ∈ clusters line, k ≠ [backspace] := by
    rintro k hk rfl
    exact h (mem_of_mem_clusters hk (by simp))
  have ht := congrArg (Option.map List.reverse) (Draft.text_pushAll?_of_ne (d := {}) hks)
  simpa [takeBack?, Function.comp_def] using ht

end TinyLisp
