import ShapeAssembly.Proofs.DecimalText
import ShapeAssembly.Proofs.MaximalMunch
import ShapeAssembly.Proofs.NearestDouble
import ShapeAssembly.RawArgument

open Computability

namespace ShapeAssembly

namespace Numeral

/-- Digits with an optional point, and their number. -/
inductive Mantissa : List Char → ℚ → Prop
  | whole {ds : List Char} (hne : ds ≠ []) (hd : ∀ c ∈ ds, c.isDigit) :
    Mantissa ds (Nat.ofDigitChars 10 ds 0)
  | point {ds fs : List Char} (hne : ds ≠ [] ∨ fs ≠ []) (hd : ∀ c ∈ ds, c.isDigit)
    (hf : ∀ c ∈ fs, c.isDigit) :
    Mantissa (ds ++ '.' :: fs)
      (Nat.ofDigitChars 10 ds 0 + Nat.ofDigitChars 10 fs 0 / 10 ^ fs.length)

inductive Exponent : List Char → ℤ → Prop
  | none : Exponent [] 0
  | unsigned {e : Char} {ds : List Char} (he : e = 'e' ∨ e = 'E') (hne : ds ≠ [])
    (hd : ∀ c ∈ ds, c.isDigit) : Exponent (e :: ds) (Nat.ofDigitChars 10 ds 0)
  | plus {e : Char} {ds : List Char} (he : e = 'e' ∨ e = 'E') (hne : ds ≠ [])
    (hd : ∀ c ∈ ds, c.isDigit) : Exponent (e :: '+' :: ds) (Nat.ofDigitChars 10 ds 0)
  | minus {e : Char} {ds : List Char} (he : e = 'e' ∨ e = 'E') (hne : ds ≠ [])
    (hd : ∀ c ∈ ds, c.isDigit) : Exponent (e :: '-' :: ds) (-Nat.ofDigitChars 10 ds 0)

/-- The number that a literal stands for. -/
inductive Denotes : List Char → ℚ → Prop
  | positive {m tail : List Char} {x : ℚ} {e : ℤ} (hm : Mantissa m x) (he : Exponent tail e) :
    Denotes (m ++ tail) (x * 10 ^ e)
  | negative {m tail : List Char} {x : ℚ} {e : ℤ} (hm : Mantissa m x) (he : Exponent tail e) :
    Denotes ('-' :: (m ++ tail)) (-(x * 10 ^ e))

variable {cs m tail : List Char} {v x : ℚ} {e : ℤ}

theorem exists_mantissa (h : cs ∈ Pattern.mantissa) : ∃ x, Mantissa cs x := by
  rcases Pattern.mem_mantissa.1 h with ⟨hne, hd⟩ | ⟨ds, fs, rfl, hd, hf, hlen⟩
  · exact ⟨_, .whole hne hd⟩
  · have hne : ds ≠ [] ∨ fs ≠ [] := by
      by_contra! hnil
      rw [hnil.1, hnil.2] at hlen
      exact hlen rfl
    exact ⟨_, .point hne hd hf⟩

theorem exists_exponent (h : cs ∈ Pattern.optional Pattern.exponent) : ∃ e, Exponent cs e := by
  rcases Pattern.mem_optional.1 h with rfl | h
  · exact ⟨_, .none⟩
  · obtain ⟨e, sign, ds, he, hsign, hne, hd, rfl⟩ := Pattern.mem_exponent.1 h
    rcases hsign with rfl | rfl | rfl
    · exact ⟨_, .unsigned he hne hd⟩
    · exact ⟨_, .plus he hne hd⟩
    · exact ⟨_, .minus he hne hd⟩

/-- What the lexer takes for a number is one. -/
theorem exists_denotes (h : cs ∈ Pattern.number) : ∃ v, Denotes cs v := by
  obtain ⟨sign, hsign, body, hbody, rfl⟩ := Language.mem_mul.1 h
  obtain ⟨m, hm, tail, htail, rfl⟩ := Language.mem_mul.1 hbody
  obtain ⟨x, hm⟩ := exists_mantissa hm
  obtain ⟨e, he⟩ := exists_exponent htail
  rcases Pattern.mem_optional.1 hsign with rfl | ⟨_, rfl, rfl⟩
  · rw [List.nil_append]
    exact ⟨_, .positive hm he⟩
  · rw [List.singleton_append]
    exact ⟨_, .negative hm he⟩

theorem Exponent.head (h : Exponent cs e) : ∀ c ∈ cs.head?, c.isDigit = false ∧ c ≠ '.' := by
  have hmark : ∀ {e : Char} {more : List Char}, e = 'e' ∨ e = 'E' →
      ∀ c ∈ (e :: more).head?, c.isDigit = false ∧ c ≠ '.' := by
    rintro e more he c ⟨⟩
    rcases he with rfl | rfl <;> decide
  cases h with
  | none => exact fun c hc => by cases hc
  | unsigned he | plus he | minus he => exact hmark he

theorem Exponent.readExponent?_eq (h : Exponent cs e) : Decimal.readExponent? cs = some e := by
  have hall : ∀ {ds : List Char}, (∀ c ∈ ds, c.isDigit) → ds.all Char.isDigit :=
    List.all_eq_true.2
  cases h with
  | none => rfl
  | @unsigned e ds he hne hd =>
    have hsplit := Decimal.splitSign_of_head (Decimal.head_of_digits hd hne []) false
    rw [List.append_nil] at hsplit
    rw [Decimal.readExponent?, show Decimal.splitSign ds = (false, ds) from hsplit]
    exact (if_pos ⟨he, hne, hall hd⟩).trans (by rw [Decimal.ofDigits_eq]; rfl)
  | plus he hne hd => exact (if_pos ⟨he, hne, hall hd⟩).trans (by rw [Decimal.ofDigits_eq]; rfl)
  | minus he hne hd => exact (if_pos ⟨he, hne, hall hd⟩).trans (by rw [Decimal.ofDigits_eq]; rfl)

/-- Digits after the point are worth less by a tenth each. -/
theorem ofDigits_append (ds fs : List Char) : (Decimal.ofDigits (ds ++ fs) : ℚ) =
    (Nat.ofDigitChars 10 ds 0 + Nat.ofDigitChars 10 fs 0 / 10 ^ fs.length) * 10 ^ fs.length := by
  have hpos : (10 : ℚ) ^ fs.length ≠ 0 := by positivity
  rw [Decimal.ofDigits_eq, Nat.ofDigitChars_append, Nat.ofDigitChars_eq_ofDigitChars_zero,
    add_mul, div_mul_cancel₀ _ hpos]
  push_cast
  ring

theorem exists_read? (hm : Mantissa m x) (he : Exponent tail e) (negative : Bool) :
    ∃ d, Decimal.read? (Decimal.sign negative ++ (m ++ tail)) = some d ∧
      d.negative = negative ∧ d.value = signed negative (x * 10 ^ e) := by
  have hexponent := he.readExponent?_eq
  have hhead := he.head
  cases hm with
  | whole hne hd =>
    rw [Decimal.read?_whole hd hne hhead, hexponent, Option.map_some]
    exact ⟨_, rfl, rfl, by rw [Decimal.value, Decimal.ofDigits_eq]⟩
  | @point ds fs hne hd hf =>
    rw [List.append_assoc, List.cons_append,
      Decimal.read?_point hd hne hf fun c hc => (hhead c hc).1, hexponent, Option.map_some]
    refine ⟨_, rfl, rfl, ?_⟩
    have hten : (10 : ℚ) ^ fs.length * 10 ^ (e - fs.length) = 10 ^ e := by
      rw [← zpow_natCast, ← zpow_add₀ (by norm_num), add_sub_cancel]
    rw [Decimal.value, ofDigits_append, mul_assoc, hten]

theorem Mantissa.head (h : Mantissa m x) (rest : List Char) : (m ++ rest).head? ≠ some '-' := by
  intro hminus
  cases h with
  | whole hne hd => exact (Decimal.head_of_digits hd hne rest '-' hminus).1 rfl
  | point hne hd hf =>
    rw [List.append_assoc] at hminus
    exact (Decimal.head_of_point hd _ '-' hminus).1 rfl

/-- A literal is read as its number, with its sign. -/
theorem Denotes.exists_read? (h : Denotes cs v) :
    ∃ d, Decimal.read? cs = some d ∧ d.value = v ∧ (d.negative = true ↔ cs.head? = some '-') := by
  cases h with
  | @positive m tail x e hm he =>
    obtain ⟨d, hd, hsign, hvalue⟩ := Numeral.exists_read? hm he false
    refine ⟨d, hd, hvalue, ?_⟩
    rw [hsign]
    exact ⟨fun h => absurd h Bool.false_ne_true, fun h => absurd h (hm.head tail)⟩
  | negative hm he =>
    obtain ⟨d, hd, hsign, hvalue⟩ := Numeral.exists_read? hm he true
    exact ⟨d, hd, hvalue, fun _ => rfl, fun _ => hsign⟩

theorem Denotes.unique {w : ℚ} (h : Denotes cs v) (h' : Denotes cs w) : w = v := by
  obtain ⟨d, hd, rfl, -⟩ := h.exists_read?
  obtain ⟨d', hd', rfl, -⟩ := h'.exists_read?
  rw [Option.some.inj (hd.symm.trans hd')]

end Numeral

namespace RawArgument

variable {keyword : String} {position : Nat} {scope : Scope} {text : String} {span : Span}

theorem coerce_of_toDouble? {d : Decimal} {x : Double}
    (hd : Decimal.read? text.toList = some d) (hx : d.toDouble? = some x) :
    coerce keyword position .float scope ⟨⟨text, span⟩, some .number⟩ =
      .ok ⟨⟨text, span⟩, .float, .float x⟩ := by
  have hvalue : value? ⟨⟨text, span⟩, some .number⟩ .float = some (.float x) := by
    rw [value?, if_pos rfl, hd, Option.bind_some, hx]
    rfl
  rw [coerce, hvalue]
  rfl

theorem coerce_of_toDouble?_eq_none {d : Decimal} (hd : Decimal.read? text.toList = some d)
    (hx : d.toDouble? = none) :
    coerce keyword position .float scope ⟨⟨text, span⟩, some .number⟩ =
      .error ⟨.kindMismatch keyword position .float text, span⟩ := by
  have hvalue : value? ⟨⟨text, span⟩, some .number⟩ .float = none := by
    rw [value?, if_pos rfl, hd, Option.bind_some, hx]
    rfl
  rw [coerce, hvalue]
  rfl

/-- A number is refused for its size only, and otherwise read as the double nearest to it. -/
theorem coerce_number {e : Excerpt} {ts : List Token} {t : Token} (h : e.tokens = .ok ts)
    (ht : t ∈ ts) (hk : t.kind = .number) (keyword : String) (position : Nat) (scope : Scope)
    (span : Span) :
    let result := coerce keyword position .float scope ⟨⟨t.text, span⟩, some t.kind⟩
    ∃ v, (∀ w, Numeral.Denotes t.text.toList w ↔ w = v) ∧
      ((∃ a, result = .ok a) ↔ |v| < 2 ^ 1024 - 2 ^ 970) ∧
      (∀ a, result = .ok a → ∃ d : Double, a = ⟨⟨t.text, span⟩, .float, .float d⟩ ∧
        d.IsNearest v ∧ (d.negative = true ↔ t.text.toList.head? = some '-')) ∧
      (2 ^ 1024 - 2 ^ 970 ≤ |v| →
        result = .error ⟨.kindMismatch keyword position .float t.text, span⟩) := by
  intro result
  have hpattern := Excerpt.mem_pattern_of_mem h ht (by rw [hk]; exact TokenKind.noConfusion)
  rw [hk] at hpattern
  obtain ⟨v, hv⟩ := Numeral.exists_denotes hpattern
  obtain ⟨d, hd, rfl, hsign⟩ := hv.exists_read?
  obtain ⟨hsmall, hlarge⟩ := d.toDouble?_classified
  have hread : |d.value| < 2 ^ 1024 - 2 ^ 970 → ∃ x : Double,
      result = .ok ⟨⟨t.text, span⟩, .float, .float x⟩ ∧ x.IsNearest d.value ∧
        x.negative = d.negative := fun hlt => by
    obtain ⟨x, hx, hnearest⟩ := hsmall hlt
    refine ⟨x, ?_, hnearest⟩
    rw [← coerce_of_toDouble? hd hx, ← hk]
  have hrefused : 2 ^ 1024 - 2 ^ 970 ≤ |d.value| →
      result = .error ⟨.kindMismatch keyword position .float t.text, span⟩ := fun hle => by
    rw [← coerce_of_toDouble?_eq_none hd (hlarge hle), ← hk]
  have hlt_of_ok : ∀ a, result = .ok a → |d.value| < 2 ^ 1024 - 2 ^ 970 := fun a ha => by
    refine not_le.1 fun hle => ?_
    rw [hrefused hle] at ha
    cases ha
  refine ⟨d.value, fun w => ⟨hv.unique, fun hw => hw ▸ hv⟩,
    ⟨fun ⟨a, ha⟩ => hlt_of_ok a ha, fun hlt => ?_⟩, fun a ha => ?_, hrefused⟩
  · obtain ⟨x, hx, -⟩ := hread hlt
    exact ⟨_, hx⟩
  · obtain ⟨x, hx, hnearest, hnegative⟩ := hread (hlt_of_ok a ha)
    refine ⟨x, Except.ok.inj (ha.symm.trans hx), hnearest, ?_⟩
    rw [hnegative, hsign]

/-- Without a digit before the point, and with a zero in front of the exponent. -/
theorem coerce_number_short :
    let t : Token := ⟨.number, "-.5e+07", ⟨0, 7⟩⟩
    (Excerpt.whole "-.5e+07").tokens = .ok [t] ∧
      ∃ d : Double, coerce "Cuboid" 1 .float ⟨[]⟩ t.argument =
        .ok ⟨t.name, .float, .float d⟩ ∧ d.IsNearest (-5000000) ∧ d.negative = true := by
  intro t
  have h : (Excerpt.whole "-.5e+07").tokens = .ok [t] := by decide
  refine ⟨h, ?_⟩
  obtain ⟨v, hv, hok, hread, -⟩ :=
    coerce_number h (List.mem_singleton_self t) rfl "Cuboid" 1 ⟨[]⟩ t.span
  have hfraction : ∀ c ∈ ['5'], c.isDigit := List.forall_mem_singleton.2 rfl
  have hdigits : ∀ c ∈ ['0', '7'], c.isDigit :=
    List.forall_mem_cons.2 ⟨rfl, List.forall_mem_singleton.2 rfl⟩
  have hm := Numeral.Mantissa.point (.inr (List.cons_ne_nil '5' [])) (List.forall_mem_nil _)
    hfraction
  have he := Numeral.Exponent.plus (.inl rfl) (List.cons_ne_nil '0' ['7']) hdigits
  have htext : t.text.toList = '-' :: ([] ++ '.' :: ['5'] ++ 'e' :: '+' :: ['0', '7']) := by decide
  rw [htext] at hv hread
  obtain rfl : -5000000 = v := by
    have hnone : Nat.ofDigitChars 10 [] 0 = 0 := by decide
    have hfive : Nat.ofDigitChars 10 ['5'] 0 = 5 := by decide
    have hseven : Nat.ofDigitChars 10 ['0', '7'] 0 = 7 := by decide
    rw [← (hv _).1 (.negative hm he), hnone, hfive, hseven]
    norm_num
  have hbound : (5000000 : ℚ) + 2 ^ 970 < 2 ^ 1024 := by
    exact_mod_cast (by decide +kernel : 5000000 + 2 ^ 970 < 2 ^ 1024)
  have habs : |(-5000000 : ℚ)| = 5000000 := by norm_num
  obtain ⟨a, ha⟩ := hok.2 (habs ▸ lt_sub_iff_add_lt.2 hbound)
  obtain ⟨d, rfl, hnearest, hsign⟩ := hread a ha
  exact ⟨d, ha, hnearest, hsign.2 rfl⟩

end RawArgument

end ShapeAssembly
