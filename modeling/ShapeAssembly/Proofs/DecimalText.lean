import ShapeAssembly.Json.Printer
import ShapeAssembly.Json.Reader
import ShapeAssembly.Proofs.ShortestDecimal

namespace ShapeAssembly

/-- A stretch that the rest does not continue. -/
theorem takeWhile_of_head {p : Char → Bool} {as rest : List Char} (ha : ∀ c ∈ as, p c)
    (hr : ∀ c ∈ rest.head?, p c = false) :
    (as ++ rest).takeWhile p = as ∧ (as ++ rest).dropWhile p = rest := by
  rw [List.takeWhile_append_of_pos ha, List.dropWhile_append_of_pos ha]
  cases rest with
  | nil => exact ⟨List.append_nil as, rfl⟩
  | cons c rest =>
    have hno : ¬ p c := by rw [hr c rfl]; decide
    rw [List.takeWhile_cons_of_neg hno, List.dropWhile_cons_of_neg hno]
    exact ⟨List.append_nil as, rfl⟩

namespace Decimal

theorem ofDigits_eq (ds : List Char) : ofDigits ds = Nat.ofDigitChars 10 ds 0 :=
  Nat.ofDigitChars_eq_foldl.symm

theorem ofDigits_toDigits (n : Nat) : ofDigits (Nat.toDigits 10 n) = n := by
  rw [ofDigits_eq, Nat.ofDigitChars_ten_toDigits]

theorem ofDigits_append_zeros (ds : List Char) (k : Nat) :
    ofDigits (ds ++ List.replicate k '0') = ofDigits ds * 10 ^ k := by
  rw [ofDigits_eq, ofDigits_eq, Nat.ofDigitChars_append, Nat.ofDigitChars_replicate_zero,
    Nat.mul_comm]

theorem ofDigits_zeros_append (k : Nat) (ds : List Char) :
    ofDigits (List.replicate k '0' ++ ds) = ofDigits ds := by
  rw [ofDigits_eq, ofDigits_eq, Nat.ofDigitChars_append, Nat.ofDigitChars_replicate_zero,
    Nat.mul_zero]

theorem isDigit_of_mem_toDigits {n : Nat} {c : Char} (h : c ∈ Nat.toDigits 10 n) : c.isDigit :=
  Nat.isDigit_of_mem_toDigits (by decide) (by decide) h

theorem isDigit_of_mem_zeros {k : Nat} {c : Char} (h : c ∈ List.replicate k '0') : c.isDigit := by
  rw [List.eq_of_mem_replicate h]
  decide

def NoDigit (cs : List Char) : Prop := ∀ c ∈ cs.head?, c.isDigit = false

def sign (negative : Bool) : List Char := if negative then ['-'] else []

theorem splitSign_of_head {body : List Char} (h : ∀ c ∈ body.head?, c ≠ '-' ∧ c ≠ '+')
    (negative : Bool) : splitSign (sign negative ++ body) = (negative, body) := by
  cases negative with
  | true => rfl
  | false =>
    show splitSign body = _
    unfold splitSign
    split
    · exact absurd rfl (h '-' rfl).1
    · exact absurd rfl (h '+' rfl).2
    · rfl

/-- No digit is a sign. -/
theorem head_of_digits {ds : List Char} (hd : ∀ c ∈ ds, c.isDigit) (hne : ds ≠ [])
    (rest : List Char) : ∀ c ∈ (ds ++ rest).head?, c ≠ '-' ∧ c ≠ '+' := by
  obtain ⟨d, ds, rfl⟩ := List.exists_cons_of_ne_nil hne
  intro c hc
  obtain rfl : d = c := Option.some.inj hc
  have hc : d.isDigit := hd d List.mem_cons_self
  constructor <;> rintro rfl <;> exact absurd hc (by decide)

theorem head_of_point {ds : List Char} (hd : ∀ c ∈ ds, c.isDigit) (rest : List Char) :
    ∀ c ∈ (ds ++ '.' :: rest).head?, c ≠ '-' ∧ c ≠ '+' := by
  by_cases hempty : ds = []
  · subst hempty
    rintro c ⟨⟩
    decide
  · exact head_of_digits hd hempty _

variable {whole fraction rest : List Char}

/-- Digits, a point, and digits after it; on one side of it there may be none. -/
theorem read?_point (hw : ∀ c ∈ whole, c.isDigit) (hne : whole ≠ [] ∨ fraction ≠ [])
    (hf : ∀ c ∈ fraction, c.isDigit) (hr : NoDigit rest) (negative : Bool) :
    read? (sign negative ++ (whole ++ '.' :: (fraction ++ rest))) =
      (readExponent? rest).map fun exponent =>
        ⟨negative, ofDigits (whole ++ fraction), exponent - fraction.length⟩ := by
  have hpoint : NoDigit ('.' :: (fraction ++ rest)) := by
    intro c hc
    obtain rfl : '.' = c := Option.some.inj hc
    decide
  obtain ⟨htake, hdrop⟩ := takeWhile_of_head hw hpoint
  obtain ⟨htake', hdrop'⟩ := takeWhile_of_head hf hr
  rw [read?, splitSign_of_head (head_of_point hw _)]
  simp only [htake, hdrop, htake', hdrop']
  rw [if_neg fun h => hne.elim (absurd h.1) (absurd h.2)]

/-- Digits without a point. -/
theorem read?_whole (hw : ∀ c ∈ whole, c.isDigit) (hne : whole ≠ [])
    (hr : ∀ c ∈ rest.head?, c.isDigit = false ∧ c ≠ '.') (negative : Bool) :
    read? (sign negative ++ (whole ++ rest)) =
      (readExponent? rest).map fun exponent => ⟨negative, ofDigits whole, exponent⟩ := by
  obtain ⟨htake, hdrop⟩ := takeWhile_of_head hw fun c hc => (hr c hc).1
  rw [read?, splitSign_of_head (head_of_digits hw hne rest)]
  simp only [htake, hdrop]
  split
  · exact absurd rfl (hr '.' rfl).2
  · simp [hne]

theorem readExponent?_toDigits (e : Int) :
    readExponent? ('e' :: (if e < 0 then '-' else '+') :: Nat.toDigits 10 e.natAbs) = some e := by
  have hall : (Nat.toDigits 10 e.natAbs).all Char.isDigit :=
    List.all_eq_true.2 fun c => isDigit_of_mem_toDigits
  have hread : ('e' = 'e' ∨ 'e' = 'E') ∧ Nat.toDigits 10 e.natAbs ≠ [] ∧
      (Nat.toDigits 10 e.natAbs).all Char.isDigit := ⟨.inl rfl, Nat.toDigits_ne_nil, hall⟩
  split
  · have hvalue : -(ofDigits (Nat.toDigits 10 e.natAbs) : Int) = e := by
      rw [ofDigits_toDigits]
      omega
    exact (if_pos hread).trans (congrArg some hvalue)
  · have hvalue : (ofDigits (Nat.toDigits 10 e.natAbs) : Int) = e := by
      rw [ofDigits_toDigits]
      omega
    exact (if_pos hread).trans (congrArg some hvalue)

theorem inUnits_scale (negative : Bool) (digits k : Nat) (e : Int) :
    inUnits ⟨negative, digits * 10 ^ k, e - k⟩ = inUnits ⟨negative, digits, e⟩ := by
  have hten : (10 : ℚ) ^ k * 10 ^ (e - k) = 10 ^ e := by
    rw [← zpow_natCast, ← zpow_add₀ (by norm_num)]
    congr 1
    omega
  rw [inUnits, inUnits]
  dsimp only
  rw [Nat.cast_mul, Nat.cast_pow, Nat.cast_ofNat, mul_assoc (digits : ℚ), hten]

section

variable {ds : List Char} (hd : ∀ c ∈ ds, c.isDigit) (hne : ds ≠ []) (negative : Bool)

theorem noDigit_nil : NoDigit [] := fun _ hc => nomatch hc

include hd hne in
/-- Digits with zeros behind, up to the place after the point. -/
theorem read?_large (k : Nat) :
    read? (sign negative ++ (ds ++ List.replicate k '0' ++ ['.', '0'])) =
      some ⟨negative, ofDigits ds * 10 ^ (k + 1), -1⟩ := by
  have hw : ∀ c ∈ ds ++ List.replicate k '0', c.isDigit :=
    List.forall_mem_append.2 ⟨hd, fun c => isDigit_of_mem_zeros⟩
  have hf : ∀ c ∈ ['0'], c.isDigit := fun c => isDigit_of_mem_zeros (k := 1)
  have hzeros : ds ++ List.replicate k '0' ++ ['0'] = ds ++ List.replicate (k + 1) '0' := by
    rw [List.append_assoc, List.replicate_succ']
  have hread := read?_point hw (.inl (by simp [hne])) hf noDigit_nil negative
  rw [hzeros, ofDigits_append_zeros] at hread
  exact hread

include hd hne in
/-- Digits with the point among them. -/
theorem read?_inner {n : Nat} (hn : n ≠ 0) :
    read? (sign negative ++ (ds.take n ++ '.' :: ds.drop n)) =
      some ⟨negative, ofDigits ds, -(ds.length - n : Nat)⟩ := by
  have hw : ∀ c ∈ ds.take n, c.isDigit := fun c hc => hd c (List.mem_of_mem_take hc)
  have hf : ∀ c ∈ ds.drop n, c.isDigit := fun c hc => hd c (List.mem_of_mem_drop hc)
  have hread := read?_point hw (.inl (by simp [hn, hne])) hf noDigit_nil negative
  rw [List.take_append_drop, List.append_nil, List.length_drop] at hread
  rw [hread]
  simp [readExponent?]

include hd in
/-- Digits below the point with zeros in front. -/
theorem read?_small (k : Nat) :
    read? (sign negative ++ ('0' :: '.' :: List.replicate k '0' ++ ds)) =
      some ⟨negative, ofDigits ds, -(k + ds.length : Nat)⟩ := by
  have hw : ∀ c ∈ ['0'], c.isDigit := fun c => isDigit_of_mem_zeros (k := 1)
  have hf : ∀ c ∈ List.replicate k '0' ++ ds, c.isDigit :=
    List.forall_mem_append.2 ⟨fun c => isDigit_of_mem_zeros, hd⟩
  have hread := read?_point hw (.inl (List.cons_ne_nil _ _)) hf noDigit_nil negative
  have hzeros : ofDigits (['0'] ++ (List.replicate k '0' ++ ds)) = ofDigits ds :=
    ofDigits_zeros_append (k + 1) ds
  rw [hzeros, List.append_nil, List.length_append, List.length_replicate] at hread
  refine hread.trans ?_
  simp [readExponent?]

include hd hne in
/-- One digit, the others after the point, and an exponent. -/
theorem read?_exponent (e : Int) :
    read? (sign negative ++ (ds.take 1 ++ (if ds.length = 1 then [] else '.' :: ds.drop 1) ++
        'e' :: (if e < 0 then '-' else '+') :: Nat.toDigits 10 e.natAbs)) =
      some ⟨negative, ofDigits ds, e - (ds.length - 1 : Nat)⟩ := by
  have hw : ∀ c ∈ ds.take 1, c.isDigit := fun c hc => hd c (List.mem_of_mem_take hc)
  have hf : ∀ c ∈ ds.drop 1, c.isDigit := fun c hc => hd c (List.mem_of_mem_drop hc)
  have hhead : ds.take 1 ≠ [] := by simp [hne]
  have hexponent := readExponent?_toDigits e
  have hmark : ∀ c ∈ ('e' :: (if e < 0 then '-' else '+') :: Nat.toDigits 10 e.natAbs).head?,
      c.isDigit = false ∧ c ≠ '.' := by simp
  generalize 'e' :: (if e < 0 then '-' else '+') :: Nat.toDigits 10 e.natAbs = rest at *
  split
  · rename_i hone
    have htake : ds.take 1 = ds := List.take_of_length_le hone.le
    have hread := read?_whole hw hhead hmark negative
    rw [hexponent, htake] at hread
    rw [htake, List.append_nil, hread, hone]
    simp
  · have hread := read?_point hw (.inl hhead) hf (fun c hc => (hmark c hc).1) negative
    rw [hexponent, List.take_append_drop, List.length_drop] at hread
    rw [List.append_assoc, List.cons_append, hread]
    rfl

end

/-- A decimal is read back from its text, with zeros behind if it is a large whole number. -/
theorem exists_read?_text (layout : Layout) (d : Decimal) :
    ∃ d', read? (d.text layout) = some d' ∧ d'.negative = d.negative ∧ d'.inUnits = d.inUnits := by
  obtain ⟨negative, digits, e⟩ := d
  have hd : ∀ c ∈ Nat.toDigits 10 digits, c.isDigit := fun c => isDigit_of_mem_toDigits
  have hdigits := ofDigits_toDigits digits
  have hne : Nat.toDigits 10 digits ≠ [] := Nat.toDigits_ne_nil
  have hlen := List.length_pos_iff.2 hne
  have hsign : ∀ body : List Char, (if negative then ['-'] else []) ++ body =
      sign negative ++ body := fun _ => rfl
  unfold text
  dsimp only
  generalize Nat.toDigits 10 digits = ds at *
  generalize hleading : e + ds.length - 1 = leading
  rw [hsign]
  split
  · split
    · rename_i hlarge
      -- the zeros up to the point are part of the digits that are read
      have hvalue := inUnits_scale negative digits (e.toNat + 1) e
      have hexponent : e - (e.toNat + 1 : Nat) = -1 := by omega
      rw [hexponent] at hvalue
      exact ⟨_, read?_large hd hne negative e.toNat, rfl, by rw [hdigits, hvalue]⟩
    · split
      · have hexponent : (-(ds.length - (leading.toNat + 1) : Nat) : Int) = e := by omega
        refine ⟨_, read?_inner hd hne negative (Nat.succ_ne_zero leading.toNat), rfl, ?_⟩
        rw [hdigits, hexponent]
      · have hexponent : (-((-leading - 1).toNat + ds.length : Nat) : Int) = e := by omega
        refine ⟨_, read?_small hd negative (-leading - 1).toNat, rfl, ?_⟩
        rw [hdigits, hexponent]
  · have hexponent : leading - (ds.length - 1 : Nat) = e := by omega
    refine ⟨_, read?_exponent hd hne negative leading, rfl, ?_⟩
    rw [hdigits, hexponent]

/-- The text of a double is read back as the same double. -/
theorem toDouble?_read?_shortest (layout : Layout) (d : Double) :
    (read? (d.shortest.text layout)).bind toDouble? = some d := by
  obtain ⟨decimal, hread, hnegative, hunits⟩ := exists_read?_text layout d.shortest
  rw [hread]
  exact Double.toDouble?_of_shortest hnegative hunits

end Decimal

end ShapeAssembly
