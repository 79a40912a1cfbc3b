/-!
Stable sorting by a key.
-/

namespace AsyncSpread

variable {α : Type}

/-- Puts an element in front of the first one that need not come before it. -/
def insertSorted (precedes : α → α → Bool) (a : α) : List α → List α
  | [] => [a]
  | b :: l => if precedes b a then b :: insertSorted precedes a l else a :: b :: l

/-- Sorts so that `precedes` is respected.  Elements of which neither precedes the other keep their
order. -/
def sortStable (precedes : α → α → Bool) (l : List α) : List α :=
  l.foldr (insertSorted precedes) []

theorem insertSorted_perm (precedes : α → α → Bool) (a : α) (l : List α) :
    (insertSorted precedes a l).Perm (a :: l) := by
  induction l with
  | nil => exact .refl _
  | cons b l ih =>
    unfold insertSorted
    split
    · exact (ih.cons b).trans (.swap a b l)
    · exact .refl _

theorem sortStable_perm (precedes : α → α → Bool) (l : List α) :
    (sortStable precedes l).Perm l := by
  induction l with
  | nil => exact .refl _
  | cons a l ih => exact (insertSorted_perm precedes a _).trans (ih.cons a)

end AsyncSpread
