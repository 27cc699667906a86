/-!
The edit distance between two sequences: the least number of insertions, deletions and
replacements of single elements that turn one into the other.
-/

namespace Choreography.Text

variable {α : Type} [DecidableEq α]

/-- Continues a row of the distance table. With `x` the element that this row adds on the left
side, `diagonal` and `above` are taken from the row before and `left` is the entry just made. -/
def extendRow (x : α) : List α → Nat → List Nat → Nat → List Nat
  | y :: ys, diagonal, above :: rest, left =>
    let entry := min (min (left + 1) (above + 1)) (diagonal + if x = y then 0 else 1)
    entry :: extendRow x ys above rest entry
  | _, _, _, _ => []

/-- The row for one more element `x` on the left, given the row before. The entries of a row are
the distances to the prefixes of `target`, from the empty one on. -/
def nextRow (target : List α) (row : List Nat) (x : α) : List Nat :=
  match row with
  | [] => []
  | first :: rest => (first + 1) :: extendRow x target first rest (first + 1)

/-- The distances from `source` to the prefixes of `target`. -/
def distanceRow (source target : List α) : List Nat :=
  source.foldl (nextRow target) (List.range (target.length + 1))

def editDistance (source target : List α) : Nat :=
  (distanceRow source target).getLast?.getD 0

end Choreography.Text
