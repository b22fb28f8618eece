import Mathlib.Data.List.Sort
import ShapeAssembly.Sorting

namespace ShapeAssembly

variable {α β : Type} {le : α → α → Bool}

theorem insertSorted_eq_orderedInsert (a : α) (bs : List α) :
    insertSorted le a bs = bs.orderedInsert (fun x y => le x y = true) a := by
  induction bs with
  | nil => rfl
  | cons b bs ih => rw [insertSorted, List.orderedInsert_cons, ih]

theorem stableSort_eq_insertionSort (as : List α) :
    stableSort le as = as.insertionSort fun x y => le x y = true := by
  induction as with
  | nil => rfl
  | cons a as ih =>
    rw [List.insertionSort_cons, ← ih, ← insertSorted_eq_orderedInsert]
    rfl

/-- Sorting puts a list in order. -/
theorem pairwise_stableSort (total : ∀ a b, le a b ∨ le b a)
    (trans : ∀ a b c, le a b → le b c → le a c) (as : List α) :
    (stableSort le as).Pairwise fun x y => le x y = true := by
  have : Std.Total fun x y => le x y = true := ⟨total⟩
  have : IsTrans α fun x y => le x y = true := ⟨trans⟩
  rw [stableSort_eq_insertionSort]
  exact List.pairwise_insertionSort _ as

theorem stableSort_map {le' : β → β → Bool} (f : α → β) (h : ∀ a b, le' (f a) (f b) = le a b)
    (as : List α) : stableSort le' (as.map f) = (stableSort le as).map f := by
  rw [stableSort_eq_insertionSort, stableSort_eq_insertionSort]
  exact (List.map_insertionSort _ _ f as fun a _ b _ => by rw [h]).symm

theorem insertSorted_congr {le' : α → α → Bool} {a : α} {bs : List α}
    (h : ∀ b ∈ bs, le a b = le' a b) : insertSorted le a bs = insertSorted le' a bs := by
  induction bs with
  | nil => rfl
  | cons b bs ih =>
    obtain ⟨hb, hbs⟩ := List.forall_mem_cons.1 h
    rw [insertSorted, insertSorted, hb, ih hbs]

/-- Two orders that are the same on the items of a list sort it alike. -/
theorem stableSort_congr {le' : α → α → Bool} {as : List α}
    (h : ∀ a ∈ as, ∀ b ∈ as, le a b = le' a b) : stableSort le as = stableSort le' as := by
  induction as with
  | nil => rfl
  | cons a as ih =>
    have has := ih fun b hb c hc => h b (List.mem_cons_of_mem a hb) c (List.mem_cons_of_mem a hc)
    show insertSorted le a (stableSort le as) = insertSorted le' a (stableSort le' as)
    rw [has]
    refine insertSorted_congr fun b hb => h a List.mem_cons_self b (List.mem_cons_of_mem a ?_)
    exact (stableSort_perm le' as).mem_iff.1 hb

theorem insertSorted_of_forall {a : α} {bs : List α} (h : ∀ b ∈ bs, le a b) :
    insertSorted le a bs = a :: bs := by
  cases bs with
  | nil => rfl
  | cons b bs => exact if_pos (h b List.mem_cons_self)

/-- Items that are in order stay where they are. -/
theorem stableSort_eq_self {as : List α} (h : as.Pairwise fun x y => le x y = true) :
    stableSort le as = as :=
  (stableSort_eq_insertionSort as).trans h.insertionSort_eq

theorem insertSorted_append {a : α} {as bs : List α} (h : ∀ b ∈ bs, le a b) :
    insertSorted le a (as ++ bs) = insertSorted le a as ++ bs := by
  induction as with
  | nil => exact insertSorted_of_forall h
  | cons c as ih =>
    rw [List.cons_append, insertSorted, insertSorted, ih]
    split <;> rfl

theorem stableSort_cons (a : α) (as : List α) :
    stableSort le (a :: as) = insertSorted le a (stableSort le as) := rfl

/-- Two lists of which each item of the first may precede those of the second are sorted apart. -/
theorem stableSort_append {as bs : List α} (h : ∀ a ∈ as, ∀ b ∈ bs, le a b) :
    stableSort le (as ++ bs) = stableSort le as ++ stableSort le bs := by
  induction as with
  | nil => rfl
  | cons a as ih =>
    obtain ⟨ha, has⟩ := List.forall_mem_cons.1 h
    rw [List.cons_append, stableSort_cons, stableSort_cons, ih has, insertSorted_append]
    exact fun b hb => ha b ((stableSort_perm le bs).mem_iff.1 hb)

theorem filter_insertSorted (trans : ∀ a b c, le a b → le b c → le a c) (p : α → Bool) (a : α)
    {bs : List α} (hb : bs.Pairwise fun x y => le x y = true) :
    (insertSorted le a bs).filter p =
      if p a then insertSorted le a (bs.filter p) else bs.filter p := by
  induction bs with
  | nil =>
    rw [insertSorted, List.filter_cons]
    rfl
  | cons b bs ih =>
    rw [List.pairwise_cons] at hb
    rw [insertSorted]
    split
    · rename_i hab
      rw [List.filter_cons]
      split
      · -- what is left of the list after `b` may also follow `a`
        have hall : ∀ c ∈ (b :: bs).filter p, le a c := by
          intro c hc
          rcases List.mem_cons.1 (List.mem_filter.1 hc).1 with rfl | hc
          · exact hab
          · exact trans a b c hab (hb.1 c hc)
        exact (insertSorted_of_forall hall).symm
      · rfl
    · rename_i hab
      rw [List.filter_cons, ih hb.2, List.filter_cons]
      by_cases ha : p a <;> by_cases hpb : p b <;> simp [ha, hpb, insertSorted, hab]

/-- Leaving items out does not change the order of the others. -/
theorem filter_stableSort (total : ∀ a b, le a b ∨ le b a)
    (trans : ∀ a b c, le a b → le b c → le a c) (p : α → Bool) (as : List α) :
    (stableSort le as).filter p = stableSort le (as.filter p) := by
  induction as with
  | nil => rfl
  | cons a as ih =>
    rw [stableSort_cons, filter_insertSorted trans p a (pairwise_stableSort total trans as), ih,
      List.filter_cons]
    split <;> rfl

end ShapeAssembly
