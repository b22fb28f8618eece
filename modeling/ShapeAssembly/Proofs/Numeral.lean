import Mathlib.Data.List.TakeWhile
import Mathlib.Tactic.ByContra
import ShapeAssembly.Token

namespace ShapeAssembly.Lexeme

/-- A text that continues no identifier and no number that stands before it. -/
def Stops (cs : List Char) : Prop :=
  ∀ c ∈ cs.head?, isIdentRest c = false ∧ c ≠ '.' ∧ c ≠ '+' ∧ c ≠ '-'

theorem isDigit_eq_false {c : Char} (h : isIdentRest c = false) : c.isDigit = false := by
  simp only [isIdentRest, Char.isAlphanum, Bool.or_eq_false_iff] at h
  exact h.1.2

theorem run_le (p : Char → Bool) (cs : List Char) : run p cs ≤ cs.length :=
  (List.takeWhile_sublist p).length_le

theorem take_run (p : Char → Bool) (cs : List Char) : cs.take (run p cs) = cs.takeWhile p :=
  (List.prefix_iff_eq_take.1 (List.takeWhile_prefix p)).symm

theorem drop_run (p : Char → Bool) (cs : List Char) : cs.drop (run p cs) = cs.dropWhile p :=
  calc cs.drop (run p cs) = (cs.takeWhile p ++ cs.dropWhile p).drop (cs.takeWhile p).length := by
        rw [List.takeWhile_append_dropWhile, run]
    _ = cs.dropWhile p := List.drop_left

theorem run_eq_length {p : Char → Bool} {cs : List Char} (h : ∀ c ∈ cs, p c) :
    run p cs = cs.length := by
  rw [run, List.takeWhile_eq_self_iff.2 h]

theorem run_take (p : Char → Bool) (cs : List Char) : run p (cs.take (run p cs)) = run p cs := by
  rw [take_run, run, List.takeWhile_idem, run]

theorem run_eq_zero {p : Char → Bool} {cs : List Char} (h : ∀ c ∈ cs.head?, p c = false) :
    run p cs = 0 := by
  cases cs with
  | nil => rfl
  | cons c cs => simp [run, h c (by simp)]

theorem head?_dropWhile (p : Char → Bool) (cs : List Char) :
    ∀ c ∈ (cs.dropWhile p).head?, p c = false := by
  intro c hc
  have h := List.head?_dropWhile_not p cs
  rw [Option.mem_def.1 hc] at h
  simpa using h

/-- A run stops at the first text that does not continue it. -/
theorem run_append {p : Char → Bool} {bs : List Char} (h : ∀ c ∈ bs.head?, p c = false)
    (as : List Char) : run p (as ++ bs) = run p as := by
  induction as with
  | nil => exact run_eq_zero h
  | cons a as ih =>
    cases ha : p a with
    | false => simp [run, ha]
    | true => simpa [run, ha] using ih

def signLength (cs : List Char) : Nat :=
  if cs.head? = some '+' ∨ cs.head? = some '-' then 1 else 0

theorem signLength_take {n : Nat} (hn : n ≠ 0) (cs : List Char) :
    signLength (cs.take n) = signLength cs := by
  rw [signLength, List.head?_take, if_neg hn, signLength]

theorem exponentLength_cons {e : Char} (he : e = 'e' ∨ e = 'E') (cs : List Char) :
    exponentLength (e :: cs) =
      if run Char.isDigit (cs.drop (signLength cs)) = 0 then 0
      else 1 + signLength cs + run Char.isDigit (cs.drop (signLength cs)) := by
  have h : (e = 'e' || e = 'E') = true := by simpa using he
  have hsign : (if cs.head? = some '+' ∨ cs.head? = some '-' then 1 else 0) = signLength cs := rfl
  rw [exponentLength, if_pos h]
  simp only [hsign]
  generalize run Char.isDigit (cs.drop (signLength cs)) = digits
  cases digits <;> rfl

theorem exponentLength_of_head {cs : List Char} (h : ∀ c ∈ cs.head?, c ≠ 'e' ∧ c ≠ 'E') :
    exponentLength cs = 0 := by
  cases cs with
  | nil => rfl
  | cons c cs =>
    have hc := h c (by simp)
    simp [exponentLength, hc.1, hc.2]

theorem exponentLength_cons_of_ne {e : Char} (he : ¬ (e = 'e' ∨ e = 'E')) (cs : List Char) :
    exponentLength (e :: cs) = 0 := by
  apply exponentLength_of_head
  intro c hc
  obtain rfl : e = c := by simpa using hc
  exact not_or.1 he

theorem exponentLength_le (cs : List Char) : exponentLength cs ≤ cs.length := by
  match cs with
  | [] => exact Nat.le_refl _
  | e :: cs =>
    by_cases he : e = 'e' ∨ e = 'E'
    · have h := run_le Char.isDigit (cs.drop (signLength cs))
      rw [List.length_drop] at h
      rw [exponentLength_cons he, List.length_cons]
      split <;> omega
    · rw [exponentLength_cons_of_ne he]
      exact Nat.zero_le _

theorem exponentLength_take (cs : List Char) :
    exponentLength (cs.take (exponentLength cs)) = exponentLength cs := by
  match cs with
  | [] => rfl
  | e :: cs =>
    by_cases he : e = 'e' ∨ e = 'E'
    · rw [exponentLength_cons he]
      split
      · rfl
      · rename_i hd
        generalize hr : run Char.isDigit (cs.drop (signLength cs)) = digits at hd
        -- the cut keeps the sign and all digits
        have hlen : 1 + signLength cs + digits = signLength cs + digits + 1 := by omega
        have hsign := signLength_take (n := signLength cs + digits) (by omega) cs
        have hdrop : (cs.take (signLength cs + digits)).drop (signLength cs) =
            (cs.drop (signLength cs)).take digits := by
          rw [List.drop_take, Nat.add_sub_cancel_left]
        rw [hlen, List.take_succ_cons, exponentLength_cons he, hsign, hdrop, ← hr, run_take, hr,
          if_neg hd, hlen]
    · rw [exponentLength_cons_of_ne he]
      rfl

theorem exponentLength_append {bs : List Char} (h : Stops bs) (as : List Char) :
    exponentLength (as ++ bs) = exponentLength as := by
  have hd : ∀ c ∈ bs.head?, c.isDigit = false := fun c hc => isDigit_eq_false (h c hc).1
  match as with
  | [] =>
    apply exponentLength_of_head
    intro c hc
    constructor <;> rintro rfl <;> exact absurd (h _ hc).1 (by decide)
  | e :: as =>
    by_cases he : e = 'e' ∨ e = 'E'
    · -- a sign that follows would continue the exponent, so `Stops` excludes it
      have hsign : signLength (as ++ bs) = signLength as := by
        cases as with
        | nil =>
          rw [signLength, if_neg, signLength, if_neg (by simp)]
          rintro (hb | hb)
          · exact (h _ hb).2.2.1 rfl
          · exact (h _ hb).2.2.2 rfl
        | cons a as => rfl
      have hdrop : (as ++ bs).drop (signLength as) = as.drop (signLength as) ++ bs := by
        apply List.drop_append_of_le_length
        cases as with
        | nil => simp [signLength]
        | cons a as => rw [signLength, List.length_cons]; split <;> omega
      rw [List.cons_append, exponentLength_cons he, exponentLength_cons he, hsign, hdrop,
        run_append hd]
    · rw [List.cons_append, exponentLength_cons_of_ne he, exponentLength_cons_of_ne he]

theorem run_append_eq {p : Char → Bool} {as bs : List Char} (ha : ∀ a ∈ as, p a)
    (hb : ∀ b ∈ bs.head?, p b = false) : run p (as ++ bs) = as.length := by
  rw [run_append hb, run_eq_length ha]

theorem unsignedLength_point {ds fs tail : List Char} (hds : ∀ c ∈ ds, c.isDigit)
    (hfs : ∀ c ∈ fs, c.isDigit) (ht : ∀ c ∈ tail.head?, c.isDigit = false) :
    unsignedLength (ds ++ '.' :: (fs ++ tail)) =
      if ds.length + fs.length = 0 then 0
      else ds.length + fs.length + 1 + exponentLength tail := by
  have hw : run Char.isDigit (ds ++ '.' :: (fs ++ tail)) = ds.length :=
    run_append_eq hds (by simp)
  have hf : run Char.isDigit (fs ++ tail) = fs.length := run_append_eq hfs ht
  simp only [unsignedLength, hw, List.drop_left, hf]
  generalize ds.length + fs.length = n
  cases n <;> rfl

theorem unsignedLength_noPoint {ds tail : List Char} (hds : ∀ c ∈ ds, c.isDigit)
    (ht : ∀ c ∈ tail.head?, c.isDigit = false ∧ c ≠ '.') :
    unsignedLength (ds ++ tail) =
      if ds.length = 0 then 0 else ds.length + exponentLength tail := by
  have hw : run Char.isDigit (ds ++ tail) = ds.length :=
    run_append_eq hds fun c hc => (ht c hc).1
  simp only [unsignedLength, hw, List.drop_left]
  split
  · rename_i rest
    exact absurd rfl (ht '.' (by simp)).2
  · rfl

/-- A number without its sign has a point after its first digits, or it has none. -/
theorem unsigned_cases (cs : List Char) :
    (∃ ds fs tail, cs = ds ++ '.' :: (fs ++ tail) ∧ (∀ c ∈ ds, c.isDigit) ∧
      (∀ c ∈ fs, c.isDigit) ∧ ∀ c ∈ tail.head?, c.isDigit = false) ∨
    ∃ ds tail, cs = ds ++ tail ∧ (∀ c ∈ ds, c.isDigit) ∧
      ∀ c ∈ tail.head?, c.isDigit = false ∧ c ≠ '.' := by
  have hall : ∀ as : List Char, ∀ c ∈ as.takeWhile Char.isDigit, c.isDigit :=
    fun as c hc => List.mem_takeWhile_imp hc
  have hhead := head?_dropWhile Char.isDigit
  -- the first character that is no digit decides
  rw [← List.takeWhile_append_dropWhile (p := Char.isDigit) (l := cs)]
  cases hrest : cs.dropWhile Char.isDigit with
  | nil => exact .inr ⟨_, [], rfl, hall cs, by simp⟩
  | cons c rest =>
    by_cases hc : c = '.'
    · subst hc
      refine .inl ⟨_, rest.takeWhile Char.isDigit, rest.dropWhile Char.isDigit, ?_, hall cs,
        hall rest, hhead rest⟩
      rw [List.takeWhile_append_dropWhile]
    · refine .inr ⟨_, c :: rest, rfl, hall cs, ?_⟩
      intro b hb
      obtain rfl : c = b := by simpa using hb
      exact ⟨hhead cs c (by rw [hrest]; rfl), hc⟩

theorem head?_take {p : Char → Prop} {tail : List Char} (h : ∀ c ∈ tail.head?, p c)
    (n : Nat) : ∀ c ∈ (tail.take n).head?, p c := by
  intro c hc
  rw [List.head?_take] at hc
  split at hc
  · exact absurd hc (by simp)
  · exact h c hc

theorem unsignedLength_take (cs : List Char) :
    unsignedLength (cs.take (unsignedLength cs)) = unsignedLength cs := by
  rcases unsigned_cases cs with ⟨ds, fs, tail, rfl, hds, hfs, ht⟩ | ⟨ds, tail, rfl, hds, ht⟩
  · rw [unsignedLength_point hds hfs ht]
    split
    · rfl
    · rename_i hn
      have hlen : ds.length + fs.length + 1 + exponentLength tail =
          ds.length + (fs.length + exponentLength tail + 1) := by omega
      rw [hlen, List.take_length_add_append, List.take_succ_cons, List.take_length_add_append,
        unsignedLength_point hds hfs (head?_take ht _), if_neg hn, exponentLength_take,
        hlen]
  · rw [unsignedLength_noPoint hds ht]
    split
    · rfl
    · rename_i hn
      rw [List.take_length_add_append, unsignedLength_noPoint hds (head?_take ht _),
        if_neg hn, exponentLength_take]

theorem unsignedLength_le (cs : List Char) : unsignedLength cs ≤ cs.length := by
  rcases unsigned_cases cs with ⟨ds, fs, tail, rfl, hds, hfs, ht⟩ | ⟨ds, tail, rfl, hds, ht⟩
  · have := exponentLength_le tail
    rw [unsignedLength_point hds hfs ht]
    simp only [List.length_append, List.length_cons]
    split <;> omega
  · have := exponentLength_le tail
    rw [unsignedLength_noPoint hds ht, List.length_append]
    split <;> omega

theorem head?_append {p : Char → Prop} {as bs : List Char} (ha : ∀ c ∈ as.head?, p c)
    (hb : ∀ c ∈ bs.head?, p c) : ∀ c ∈ (as ++ bs).head?, p c := by
  cases as with
  | nil => exact hb
  | cons a as => exact ha

theorem unsignedLength_append {bs : List Char} (h : Stops bs) (as : List Char) :
    unsignedLength (as ++ bs) = unsignedLength as := by
  have hd : ∀ c ∈ bs.head?, c.isDigit = false := fun c hc => isDigit_eq_false (h c hc).1
  have hp : ∀ c ∈ bs.head?, c.isDigit = false ∧ c ≠ '.' :=
    fun c hc => ⟨hd c hc, (h c hc).2.1⟩
  rcases unsigned_cases as with ⟨ds, fs, tail, rfl, hds, hfs, ht⟩ | ⟨ds, tail, rfl, hds, ht⟩
  · rw [List.append_assoc, List.cons_append, List.append_assoc,
      unsignedLength_point hds hfs (head?_append ht hd),
      unsignedLength_point hds hfs ht, exponentLength_append h]
  · rw [List.append_assoc, unsignedLength_noPoint hds (head?_append ht hp),
      unsignedLength_noPoint hds ht, exponentLength_append h]

theorem numberLength_minus (cs : List Char) :
    numberLength ('-' :: cs) = if unsignedLength cs = 0 then 0 else unsignedLength cs + 1 := by
  rw [numberLength]
  split
  · rename_i hn
    rw [if_pos hn]
  · rename_i hn
    rw [if_neg hn, Nat.add_comm]

theorem numberLength_of_head {cs : List Char} (h : ∀ c ∈ cs.head?, c ≠ '-') :
    numberLength cs = unsignedLength cs := by
  unfold numberLength
  split
  · exact absurd rfl (h '-' rfl)
  · rfl

theorem eq_minus_or_head (cs : List Char) :
    (∃ rest, cs = '-' :: rest) ∨ ∀ c ∈ cs.head?, c ≠ '-' := by
  cases cs with
  | nil => exact .inr (by simp)
  | cons c cs =>
    by_cases hc : c = '-'
    · exact .inl ⟨cs, by rw [hc]⟩
    · exact .inr (by simpa using hc)

theorem numberLength_le (cs : List Char) : numberLength cs ≤ cs.length := by
  rcases eq_minus_or_head cs with ⟨rest, rfl⟩ | h
  · have := unsignedLength_le rest
    rw [numberLength_minus, List.length_cons]
    split <;> omega
  · rw [numberLength_of_head h]
    exact unsignedLength_le cs

/-- Cut off at its end, a number is still one. -/
theorem numberLength_take (cs : List Char) :
    numberLength (cs.take (numberLength cs)) = numberLength cs := by
  rcases eq_minus_or_head cs with ⟨rest, rfl⟩ | h
  · rw [numberLength_minus]
    split
    · rfl
    · rename_i hn
      rw [List.take_succ_cons, numberLength_minus, unsignedLength_take, if_neg hn]
  · rw [numberLength_of_head h, numberLength_of_head (head?_take h _), unsignedLength_take]

theorem numberLength_append {bs : List Char} (h : Stops bs) (as : List Char) :
    numberLength (as ++ bs) = numberLength as := by
  rcases eq_minus_or_head as with ⟨rest, rfl⟩ | ha
  · rw [List.cons_append, numberLength_minus, numberLength_minus, unsignedLength_append h]
  · have hb : ∀ c ∈ bs.head?, c ≠ '-' := fun c hc => (h c hc).2.2.2
    rw [numberLength_of_head (head?_append ha hb), numberLength_of_head ha,
      unsignedLength_append h]

theorem head_of_numberLength {c : Char} {cs : List Char} (h : numberLength (c :: cs) ≠ 0) :
    c.isDigit ∨ c = '-' ∨ c = '.' := by
  by_contra! hc
  have hd : c.isDigit = false := by simpa using hc.1
  have ht : ∀ b ∈ (c :: cs).head?, b.isDigit = false ∧ b ≠ '.' := by
    intro b hb
    obtain rfl : c = b := by simpa using hb
    exact ⟨hd, hc.2.2⟩
  rw [numberLength_of_head (by simpa using hc.2.1),
    ← List.nil_append (c :: cs), unsignedLength_noPoint (by simp) ht] at h
  exact h rfl

end ShapeAssembly.Lexeme
