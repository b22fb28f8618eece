namespace ShapeAssembly

variable {α : Type}

/-- Places an item before the first of those that may follow it. -/
def insertSorted (le : α → α → Bool) (a : α) : List α → List α
  | [] => [a]
  | b :: bs => if le a b then a :: b :: bs else b :: insertSorted le a bs

/-- Ascending order; items of which each may precede the other keep theirs. -/
def stableSort (le : α → α → Bool) (as : List α) : List α := as.foldr (insertSorted le) []

theorem insertSorted_perm (le : α → α → Bool) (a : α) (bs : List α) :
    (insertSorted le a bs).Perm (a :: bs) := by
  induction bs with
  | nil => exact .refl _
  | cons b bs ih =>
    unfold insertSorted
    split
    · exact .refl _
    · exact (ih.cons b).trans (.swap a b bs)

theorem stableSort_perm (le : α → α → Bool) (as : List α) : (stableSort le as).Perm as := by
  induction as with
  | nil => exact .refl _
  | cons a as ih => exact (insertSorted_perm le a _).trans (ih.cons a)

end ShapeAssembly
