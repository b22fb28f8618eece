import ShapeAssembly.Proofs.Numeral

namespace ShapeAssembly.Lexeme

/-- The classes of lexemes that a character can start, each with how far the lexeme reaches. -/
inductive Munched (c : Char) (cs : List Char) : Option TokenKind × Nat → Prop
  | blank (h : isBlank c) : Munched c cs (none, run isBlank cs)
  | comment (h : c = '#') : Munched c cs (none, run (· ≠ '\n') cs)
  | ident (h : isIdentStart c) : Munched c cs (some .ident, run isIdentRest cs)
  | string (h : c = '"') : Munched c cs
      (some (if (stringTail cs).1 then .string else .unterminatedString), (stringTail cs).2)
  | punctuation {kind : TokenKind} (h : punctuation? c = some kind) : Munched c cs (some kind, 0)
  | number {n : Nat} (h : numberLength (c :: cs) = n + 1) : Munched c cs (some .number, n)
  | error : Munched c cs (some .error, 0)

theorem munched (c : Char) (cs : List Char) : Munched c cs (munch c cs) := by
  unfold munch
  split
  · exact .blank ‹_›
  · split
    · exact .comment ‹_›
    · split
      · exact .ident ‹_›
      · split
        · exact .string ‹_›
        · split
          · exact .punctuation ‹_›
          · split
            · exact .error
            · exact .number ‹_›

theorem munch_blank {c : Char} (h : isBlank c) (cs : List Char) :
    munch c cs = (none, run isBlank cs) := by
  rw [munch, if_pos h]

theorem munch_ident {c : Char} (h : isIdentStart c) (cs : List Char) :
    munch c cs = (some .ident, run isIdentRest cs) := by
  have hb : ¬ isBlank c := by
    intro hb
    simp only [isBlank, Bool.or_eq_true, decide_eq_true_eq] at hb
    rcases hb with ((rfl | rfl) | rfl) | rfl <;> exact absurd h (by decide)
  have hc : c ≠ '#' := by
    rintro rfl
    exact absurd h (by decide)
  rw [munch, if_neg hb, if_neg hc, if_pos h]

theorem punctuation_cases {c : Char} {kind : TokenKind} (h : punctuation? c = some kind) :
    (c = '(' ∧ kind = .openParen) ∨ (c = ')' ∧ kind = .closeParen) ∨ (c = ',' ∧ kind = .comma) ∨
      (c = '=' ∧ kind = .eq) ∨ (c = ':' ∧ kind = .colon) := by
  unfold punctuation? at h
  split at h <;> simp_all

theorem munch_punctuation {c : Char} {kind : TokenKind} (h : punctuation? c = some kind)
    (cs : List Char) : munch c cs = (some kind, 0) := by
  rcases punctuation_cases h with ⟨rfl, rfl⟩ | ⟨rfl, rfl⟩ | ⟨rfl, rfl⟩ | ⟨rfl, rfl⟩ | ⟨rfl, rfl⟩ <;>
    rfl

theorem isAlpha_eq (c : Char) : c.isAlpha = (decide (c.val ≥ 'A'.val ∧ c.val ≤ 'Z'.val) ||
    (decide (c.val ≥ 'a'.val) && decide (c.val ≤ 'z'.val))) := rfl

theorem isIdentStart_eq_false {c : Char} (h : c.isDigit) : isIdentStart c = false := by
  have hu : c ≠ '_' := by
    rintro rfl
    exact absurd h (by decide)
  simp only [Char.isDigit, Bool.and_eq_true, decide_eq_true_eq, ge_iff_le, UInt32.le_iff_toNat_le]
    at h
  simp only [isIdentStart, hu, decide_false, Bool.or_false, isAlpha_eq, Bool.or_eq_false_iff,
    Bool.and_eq_false_iff, decide_eq_false_iff_not, UInt32.le_iff_toNat_le, ge_iff_le]
  simp only [Char.reduceVal, UInt32.reduceToNat] at h ⊢
  omega

theorem munch_number {c : Char} {cs : List Char} {n : Nat} (h : numberLength (c :: cs) = n + 1) :
    munch c cs = (some .number, n) := by
  -- no earlier class of lexemes has the first character of a number
  have hs : ¬ isBlank c ∧ c ≠ '#' ∧ ¬ isIdentStart c ∧ c ≠ '"' ∧ punctuation? c = none := by
    rcases head_of_numberLength (by rw [h]; exact Nat.succ_ne_zero n) with hd | rfl | rfl
    · refine ⟨?_, ?_, by simp [isIdentStart_eq_false hd], ?_, ?_⟩
      · intro hb
        simp only [isBlank, Bool.or_eq_true, decide_eq_true_eq] at hb
        rcases hb with ((rfl | rfl) | rfl) | rfl <;> exact absurd hd (by decide)
      · rintro rfl
        exact absurd hd (by decide)
      · rintro rfl
        exact absurd hd (by decide)
      · by_contra hp
        obtain ⟨kind, hp⟩ := Option.ne_none_iff_exists'.1 hp
        rcases punctuation_cases hp with
          ⟨rfl, -⟩ | ⟨rfl, -⟩ | ⟨rfl, -⟩ | ⟨rfl, -⟩ | ⟨rfl, -⟩ <;> exact absurd hd (by decide)
    · decide
    · decide
  rw [munch, if_neg hs.1, if_neg hs.2.1, if_neg hs.2.2.1, if_neg hs.2.2.2.1]
  simp only [hs.2.2.2.2, h]

theorem stringTail_le (cs : List Char) : (stringTail cs).2 ≤ cs.length := by
  fun_induction stringTail cs <;> simp_all

theorem munch_le (c : Char) (cs : List Char) : (munch c cs).2 ≤ cs.length := by
  have h := munched c cs
  generalize munch c cs = r at h
  cases h with
  | blank | comment | ident => exact run_le _ _
  | string => exact stringTail_le cs
  | punctuation | error => exact Nat.zero_le _
  | number h =>
    have := numberLength_le (c :: cs)
    rw [h, List.length_cons] at this
    exact Nat.le_of_succ_le_succ this

def IsAtom (kind : TokenKind) : Prop := kind = .ident ∨ kind = .number

def IsOne (kind : TokenKind) (cs : List Char) : Prop := scan cs = [⟨some kind, cs⟩]

theorem scan_cons (c : Char) (cs : List Char) :
    scan (c :: cs) = ⟨(munch c cs).1, c :: cs.take (munch c cs).2⟩ ::
      scan (cs.drop (munch c cs).2) := by
  rw [← scanAfter_eq_scan_drop]
  rfl

/-- A blank joins the run of blanks after it, if there is one. -/
theorem scan_blank {c : Char} (h : isBlank c) (cs : List Char) :
    ∃ bs rest, scan (c :: cs) = ⟨none, c :: bs⟩ :: rest ∧
      (scan cs = rest ∨ scan cs = ⟨none, bs⟩ :: rest) := by
  rw [scan_cons, munch_blank h]
  refine ⟨_, _, rfl, ?_⟩
  cases cs with
  | nil => exact .inl rfl
  | cons d cs =>
    cases hd : isBlank d with
    | false => simp [run, hd]
    | true =>
      rw [scan_cons d cs, munch_blank hd]
      simp [run, hd]

theorem isOne_cons {kind : TokenKind} {c : Char} {cs : List Char} :
    IsOne kind (c :: cs) ↔ munch c cs = (some kind, cs.length) := by
  have hle := munch_le c cs
  rw [IsOne, scan_cons]
  constructor
  · intro h
    have hk : (munch c cs).1 = some kind := by
      simpa using congrArg (·.map Lexeme.kind |>.head?) h
    have ht : cs.take (munch c cs).2 = cs := by
      simpa using congrArg (·.map Lexeme.chars |>.head?) h
    have hn : (munch c cs).2 = cs.length := by
      have := congrArg List.length ht
      rw [List.length_take] at this
      omega
    exact Prod.ext hk hn
  · intro h
    rw [h, List.take_length, List.drop_length]
    rfl

/-- Only two classes start an atom. -/
theorem munch_atom {kind : TokenKind} {c : Char} {cs : List Char} (hk : IsAtom kind)
    (hm : (munch c cs).1 = some kind) :
    isIdentStart c ∨ ∃ n, numberLength (c :: cs) = n + 1 := by
  have hs := munched c cs
  generalize munch c cs = r at hm hs
  cases hs with
  | ident hc => exact .inl hc
  | number hn => exact .inr ⟨_, hn⟩
  | blank | comment | error => rcases hk with rfl | rfl <;> simp at hm
  | string => rcases hk with rfl | rfl <;> simp at hm <;> split at hm <;> simp at hm
  | punctuation hp =>
    rcases punctuation_cases hp with ⟨-, rfl⟩ | ⟨-, rfl⟩ | ⟨-, rfl⟩ | ⟨-, rfl⟩ | ⟨-, rfl⟩ <;>
      rcases hk with rfl | rfl <;> simp at hm

theorem munch_append {kind : TokenKind} {c : Char} {as bs : List Char} (hk : IsAtom kind)
    (hm : (munch c as).1 = some kind) (h : Stops bs) : munch c (as ++ bs) = munch c as := by
  rcases munch_atom hk hm with hc | ⟨n, hn⟩
  · rw [munch_ident hc, munch_ident hc, run_append fun b hb => (h b hb).1]
  · rw [munch_number hn, munch_number (by rw [← List.cons_append, numberLength_append h, hn])]

theorem munch_take {kind : TokenKind} {c : Char} {cs : List Char} (hk : IsAtom kind)
    (hm : (munch c cs).1 = some kind) : munch c (cs.take (munch c cs).2) = munch c cs := by
  rcases munch_atom hk hm with hc | ⟨n, hn⟩
  · rw [munch_ident hc, munch_ident hc, run_take]
  · have ht := numberLength_take (c :: cs)
    rw [hn, List.take_succ_cons] at ht
    rw [munch_number hn, munch_number ht]

theorem isOne_punctuation {c : Char} {kind : TokenKind} (h : punctuation? c = some kind) :
    IsOne kind [c] := by
  rw [isOne_cons, munch_punctuation h]
  rfl

theorem scan_punctuation {c : Char} {kind : TokenKind} (h : punctuation? c = some kind)
    (cs : List Char) : scan (c :: cs) = ⟨some kind, [c]⟩ :: scan cs := by
  rw [scan_cons, munch_punctuation h]
  rfl

theorem IsOne.scan_append {kind : TokenKind} {cs rest : List Char} (hk : IsAtom kind)
    (h : IsOne kind cs) (hr : Stops rest) : scan (cs ++ rest) = ⟨some kind, cs⟩ :: scan rest := by
  match cs with
  | [] => exact absurd h (by simp [IsOne, scan, scanAfter])
  | c :: cs =>
    rw [isOne_cons] at h
    rw [List.cons_append, scan_cons, munch_append hk (by rw [h]) hr, h, List.take_left,
      List.drop_left]

/-- An atom stays on its line. -/
theorem IsOne.notMem_newline {kind : TokenKind} {cs : List Char} (hk : IsAtom kind)
    (h : IsOne kind cs) : '\n' ∉ cs := by
  intro hn
  -- the atom would end before its newline
  obtain ⟨as, bs, rfl⟩ := List.append_of_mem hn
  have hb : Stops ('\n' :: bs) := by
    intro c hc
    obtain rfl : '\n' = c := by simpa using hc
    decide
  cases as with
  | nil =>
    rcases munch_atom hk (by rw [isOne_cons.1 h]) with hc | ⟨n, hc⟩
    · exact absurd hc (by decide)
    · rcases head_of_numberLength (by rw [hc]; exact Nat.succ_ne_zero n) with hd | hd | hd <;>
        exact absurd hd (by decide)
  | cons c as =>
    rw [List.cons_append] at h
    have hlen := congrArg Prod.snd (isOne_cons.1 h)
    rcases munch_atom hk (by rw [isOne_cons.1 h]) with hc | ⟨n, hc⟩
    · rw [munch_ident hc, run_append fun b hb' => (hb b hb').1] at hlen
      have := run_le isIdentRest as
      simp only [List.length_append, List.length_cons] at hlen
      omega
    · have hle := numberLength_le (c :: as)
      rw [munch_number hc] at hlen
      rw [← List.cons_append, numberLength_append hb] at hc
      simp only [List.length_append, List.length_cons] at hlen hle
      omega

theorem punctuation_of_munch {kind : TokenKind} {c d : Char} {cs : List Char}
    (hd : punctuation? d = some kind) (hm : (munch c cs).1 = some kind) :
    punctuation? c = some kind := by
  have hs := munched c cs
  generalize munch c cs = r at hm hs
  cases hs with
  | punctuation hp => rwa [← hm]
  | blank | comment => simp at hm
  | string =>
    rcases punctuation_cases hd with ⟨-, rfl⟩ | ⟨-, rfl⟩ | ⟨-, rfl⟩ | ⟨-, rfl⟩ | ⟨-, rfl⟩ <;>
      simp at hm <;> split at hm <;> simp at hm
  | ident | number | error =>
    obtain rfl := Option.some.inj hm
    rcases punctuation_cases hd with ⟨-, h⟩ | ⟨-, h⟩ | ⟨-, h⟩ | ⟨-, h⟩ | ⟨-, h⟩ <;> cases h

theorem isOne_punctuation_iff {c : Char} {kind : TokenKind} (h : punctuation? c = some kind)
    {cs : List Char} : IsOne kind cs ↔ cs = [c] := by
  constructor
  · intro hone
    match cs with
    | [] => exact absurd hone (by simp [IsOne, scan, scanAfter])
    | d :: cs =>
      rw [isOne_cons] at hone
      have hd := punctuation_of_munch h (by rw [hone])
      rw [munch_punctuation hd] at hone
      obtain rfl : cs = [] := List.length_eq_zero_iff.1 (congrArg Prod.snd hone).symm
      rcases punctuation_cases h with
        ⟨rfl, rfl⟩ | ⟨rfl, rfl⟩ | ⟨rfl, rfl⟩ | ⟨rfl, rfl⟩ | ⟨rfl, rfl⟩ <;>
        rcases punctuation_cases hd with ⟨rfl, h⟩ | ⟨rfl, h⟩ | ⟨rfl, h⟩ | ⟨rfl, h⟩ | ⟨rfl, h⟩ <;>
        first | rfl | cases h
  · rintro rfl
    exact isOne_punctuation h

/-- Every lexeme is what a character of the text starts. -/
theorem exists_munch_of_mem {n : Nat} {cs : List Char} {l : Lexeme} (h : l ∈ scanAfter n cs) :
    ∃ c rest, l = ⟨(munch c rest).1, c :: rest.take (munch c rest).2⟩ := by
  induction cs generalizing n with
  | nil => simp [scanAfter] at h
  | cons c cs ih =>
    cases n with
    | succ n => exact ih h
    | zero =>
      rcases List.mem_cons.1 h with rfl | h
      · exact ⟨c, cs, rfl⟩
      · exact ih h

/-- Atoms and punctuation marks are lexemes of the same kind outside of their text. -/
theorem isOne_of_mem_scan {kind : TokenKind} {cs text : List Char}
    (hk : IsAtom kind ∨ ∃ c, punctuation? c = some kind) (h : ⟨some kind, cs⟩ ∈ scan text) :
    IsOne kind cs := by
  obtain ⟨c, rest, hl⟩ := exists_munch_of_mem h
  obtain ⟨hm, rfl⟩ : some kind = (munch c rest).1 ∧ cs = c :: rest.take (munch c rest).2 := by
    simpa using hl
  have hlen := munch_le c rest
  rw [isOne_cons, List.length_take, Nat.min_eq_left hlen]
  rcases hk with hk | ⟨d, hd⟩
  · rw [munch_take hk hm.symm]
    exact Prod.ext hm.symm rfl
  · have hc := punctuation_of_munch hd hm.symm
    rw [munch_punctuation hc, munch_punctuation hc]

end ShapeAssembly.Lexeme
