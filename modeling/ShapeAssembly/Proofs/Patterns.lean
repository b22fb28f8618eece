import Mathlib.Computability.Language
import Mathlib.Data.Char
import ShapeAssembly.Proofs.Lexing

open Computability

namespace ShapeAssembly

namespace Pattern

def one (s : Set Char) : Language Char := {cs | ∃ c ∈ s, cs = [c]}

def many (l : Language Char) : Language Char := l * l∗

def optional (l : Language Char) : Language Char := 1 + l

def blank : Set Char := {' ', '\t', '\r', '\x0c'}

def digit : Set Char := Set.Icc '0' '9'

def letter : Set Char := Set.Icc 'A' 'Z' ∪ Set.Icc 'a' 'z' ∪ {'_'}

def ascii : Set Char := Set.Icc '\x00' '\x7f'

def digits : Language Char := many (one digit)

def mantissa : Language Char :=
  digits * optional (one {'.'} * (one digit)∗) + one {'.'} * digits

def exponent : Language Char := one {'e', 'E'} * (optional (one {'+', '-'}) * digits)

def number : Language Char := optional (one {'-'}) * (mantissa * optional exponent)

/-- What stands after the opening quote of a string. A backslash takes the next character of its
line with it. -/
def stringBody : Language Char := (one {'"', '\\', '\n'}ᶜ + one {'\\'} * one {'\n'}ᶜ)∗

def blanks : Language Char := many (one blank)

def comment : Language Char := one {'#'} * (one {'\n'}ᶜ)∗

def ident : Language Char := one letter * (one (letter ∪ digit))∗

end Pattern

open Pattern in
/-- The texts that are lexemes of a kind; without a kind those that leave no token. -/
def Lexeme.pattern : Option TokenKind → Language Char
  | none => blanks + comment
  | some .openParen => one {'('}
  | some .closeParen => one {')'}
  | some .comma => one {','}
  | some .eq => one {'='}
  | some .colon => one {':'}
  | some .number => number
  | some .string => one {'"'} * (stringBody * one {'"'})
  | some .unterminatedString => one {'"'} * stringBody
  | some .ident => ident
  | some .error => one asciiᶜ

namespace Pattern

variable {s t : Set Char} {l : Language Char} {cs : List Char}

theorem mem_one : cs ∈ one s ↔ ∃ c ∈ s, cs = [c] := Iff.rfl

theorem mem_one_mul : cs ∈ one s * l ↔ ∃ c ∈ s, ∃ rest ∈ l, cs = c :: rest := by
  constructor
  · rintro ⟨_, ⟨c, hc, rfl⟩, rest, hrest, rfl⟩
    exact ⟨c, hc, rest, hrest, rfl⟩
  · rintro ⟨c, hc, rest, hrest, rfl⟩
    exact ⟨[c], ⟨c, hc, rfl⟩, rest, hrest, rfl⟩

theorem mem_optional : cs ∈ optional l ↔ cs = [] ∨ cs ∈ l := Iff.rfl

theorem mem_star_one : cs ∈ (one s)∗ ↔ ∀ c ∈ cs, c ∈ s := by
  constructor
  · rintro ⟨parts, rfl, hparts⟩ c hc
    obtain ⟨part, hpart, hc⟩ := List.mem_flatten.1 hc
    obtain ⟨d, hd, rfl⟩ := hparts part hpart
    rwa [List.mem_singleton.1 hc]
  · intro h
    refine ⟨cs.map fun c => [c], ?_, List.forall_mem_map.2 fun c hc => ⟨c, h c hc, rfl⟩⟩
    rw [← List.flatMap_def, List.flatMap_singleton']

theorem mem_many_one : cs ∈ many (one s) ↔ cs ≠ [] ∧ ∀ c ∈ cs, c ∈ s := by
  rw [many, mem_one_mul]
  simp only [mem_star_one]
  constructor
  · rintro ⟨c, hc, rest, hrest, rfl⟩
    exact ⟨List.cons_ne_nil c rest, List.forall_mem_cons.2 ⟨hc, hrest⟩⟩
  · rintro ⟨hne, h⟩
    obtain ⟨c, rest, rfl⟩ := List.exists_cons_of_ne_nil hne
    obtain ⟨hc, hrest⟩ := List.forall_mem_cons.1 h
    exact ⟨c, hc, rest, hrest, rfl⟩

theorem mem_blank {c : Char} : c ∈ blank ↔ Lexeme.isBlank c := by
  simp [blank, Lexeme.isBlank, or_assoc]

theorem mem_digit {c : Char} : c ∈ digit ↔ c.isDigit := by
  simp [digit, Char.isDigit, Char.le_def]

theorem mem_letter {c : Char} : c ∈ letter ↔ Lexeme.isIdentStart c := by
  simp [letter, Lexeme.isIdentStart, Lexeme.isAlpha_eq, Char.le_def, or_comm]

theorem mem_word {c : Char} : c ∈ letter ∪ digit ↔ Lexeme.isIdentRest c := by
  rw [Set.mem_union, mem_letter, mem_digit, Lexeme.isIdentStart, Lexeme.isIdentRest,
    Char.isAlphanum]
  simp [or_right_comm]

theorem mem_digits : cs ∈ digits ↔ cs ≠ [] ∧ ∀ c ∈ cs, c.isDigit := by
  simp only [digits, mem_many_one, mem_digit]

theorem mem_mantissa : cs ∈ mantissa ↔ (cs ≠ [] ∧ ∀ c ∈ cs, c.isDigit) ∨
    ∃ ds fs, cs = ds ++ '.' :: fs ∧ (∀ c ∈ ds, c.isDigit) ∧ (∀ c ∈ fs, c.isDigit) ∧
      ds.length + fs.length ≠ 0 := by
  rw [mantissa, Language.mem_add, Language.mem_mul]
  constructor
  · rintro (⟨ds, hds, tail, htail, rfl⟩ | h)
    · rcases mem_optional.1 htail with rfl | htail
      · rw [List.append_nil]
        exact .inl (mem_digits.1 hds)
      obtain ⟨_, rfl, fs, hfs, rfl⟩ := mem_one_mul.1 htail
      obtain ⟨hne, hds⟩ := mem_digits.1 hds
      have hlen := List.length_pos_of_ne_nil hne
      exact .inr ⟨ds, fs, rfl, hds, fun c hc => mem_digit.1 (mem_star_one.1 hfs c hc), by omega⟩
    · obtain ⟨_, rfl, fs, hfs, rfl⟩ := mem_one_mul.1 h
      obtain ⟨hne, hfs⟩ := mem_digits.1 hfs
      have hlen := List.length_pos_of_ne_nil hne
      exact .inr ⟨[], fs, rfl, by simp, hfs, by omega⟩
  · rintro (⟨hne, hds⟩ | ⟨ds, fs, rfl, hds, hfs, hlen⟩)
    · exact .inl ⟨cs, mem_digits.2 ⟨hne, hds⟩, [], mem_optional.2 (.inl rfl), List.append_nil cs⟩
    · by_cases hd : ds = []
      · subst hd
        have hne : fs ≠ [] := fun h => hlen (by rw [h]; rfl)
        exact .inr (mem_one_mul.2 ⟨'.', rfl, fs, mem_digits.2 ⟨hne, hfs⟩, rfl⟩)
      · have htail : '.' :: fs ∈ one {'.'} * (one digit)∗ :=
          mem_one_mul.2 ⟨'.', rfl, fs, mem_star_one.2 fun c hc => mem_digit.2 (hfs c hc), rfl⟩
        exact .inl ⟨ds, mem_digits.2 ⟨hd, hds⟩, _, mem_optional.2 (.inr htail), rfl⟩

theorem mem_exponent : cs ∈ exponent ↔ ∃ e sign ds, (e = 'e' ∨ e = 'E') ∧
    (sign = [] ∨ sign = ['+'] ∨ sign = ['-']) ∧ ds ≠ [] ∧ (∀ c ∈ ds, c.isDigit) ∧
      cs = e :: (sign ++ ds) := by
  have hsign : ∀ sign, sign ∈ optional (one {'+', '-'}) ↔
      sign = [] ∨ sign = ['+'] ∨ sign = ['-'] := by
    intro sign
    rw [mem_optional, mem_one]
    simp
  rw [exponent, mem_one_mul]
  constructor
  · rintro ⟨e, he, tail, htail, rfl⟩
    obtain ⟨sign, hs, ds, hds, rfl⟩ := Language.mem_mul.1 htail
    obtain ⟨hne, hds⟩ := mem_digits.1 hds
    exact ⟨e, sign, ds, he, (hsign sign).1 hs, hne, hds, rfl⟩
  · rintro ⟨e, sign, ds, he, hs, hne, hds, rfl⟩
    exact ⟨e, he, _, Language.append_mem_mul ((hsign sign).2 hs) (mem_digits.2 ⟨hne, hds⟩), rfl⟩

end Pattern

namespace Lexeme

open Pattern

/-- Digits that a number goes on with are taken. -/
theorem length_le_run {p : Char → Bool} {as : List Char} (h : ∀ a ∈ as, p a) (bs : List Char) :
    as.length ≤ run p (as ++ bs) := by
  rw [run, List.takeWhile_append_of_pos h, List.length_append]
  exact Nat.le_add_right _ _

theorem signLength_append {sign ds : List Char} (hs : sign = [] ∨ sign = ['+'] ∨ sign = ['-'])
    (hne : ds ≠ []) (hds : ∀ c ∈ ds, c.isDigit) (rest : List Char) :
    signLength (sign ++ (ds ++ rest)) = sign.length := by
  rcases hs with rfl | rfl | rfl
  · obtain ⟨d, ds, rfl⟩ := List.exists_cons_of_ne_nil hne
    have hd : d.isDigit := hds d List.mem_cons_self
    rw [signLength, if_neg]
    · rfl
    · rintro (h | h) <;> obtain rfl := Option.some.inj h <;> exact absurd hd (by decide)
  · rfl
  · rfl

theorem le_exponentLength {cs : List Char} (h : cs ∈ exponent) (rest : List Char) :
    cs.length ≤ exponentLength (cs ++ rest) := by
  obtain ⟨e, sign, ds, he, hs, hne, hds, rfl⟩ := mem_exponent.1 h
  have hrun := length_le_run hds rest
  have hpos := List.length_pos_of_ne_nil hne
  rw [List.cons_append, List.append_assoc, exponentLength_cons he, signLength_append hs hne hds,
    List.drop_left, if_neg (by omega), List.length_cons, List.length_append]
  omega

theorem take_exponentLength (cs : List Char) :
    cs.take (exponentLength cs) ∈ optional exponent := by
  rw [mem_optional]
  match cs with
  | [] => exact .inl rfl
  | e :: cs =>
    by_cases he : e = 'e' ∨ e = 'E'
    · rw [exponentLength_cons he]
      split
      · exact .inl rfl
      · rename_i hd
        have hlen : 1 + signLength cs + run Char.isDigit (cs.drop (signLength cs)) =
            signLength cs + run Char.isDigit (cs.drop (signLength cs)) + 1 := by omega
        have hsign : cs.take (signLength cs) = [] ∨ cs.take (signLength cs) = ['+'] ∨
            cs.take (signLength cs) = ['-'] := by
          rw [signLength]
          split
          · rename_i h
            cases cs with
            | nil => simp at h
            | cons c cs => simpa using h
          · exact .inl rfl
        refine .inr (mem_exponent.2 ⟨e, cs.take (signLength cs),
          (cs.drop (signLength cs)).takeWhile Char.isDigit, he, hsign, ?_,
          fun c hc => List.mem_takeWhile_imp hc, ?_⟩)
        · exact List.ne_nil_of_length_pos (Nat.pos_of_ne_zero hd)
        · rw [hlen, List.take_succ_cons, List.take_add, take_run]
    · rw [exponentLength_cons_of_ne he]
      exact .inl rfl

/-- A number takes all of its digits and its point, whatever follows. -/
theorem length_le_unsignedLength {m : List Char} (hm : m ∈ mantissa) (rest : List Char) :
    m.length ≤ unsignedLength (m ++ rest) := by
  rcases mem_mantissa.1 hm with ⟨hne, hds⟩ | ⟨ds, fs, rfl, hds, hfs, hlen⟩
  · have hpos := List.length_pos_of_ne_nil hne
    rcases unsigned_cases rest with ⟨es, fs, tail, rfl, hes, hfs, ht⟩ | ⟨es, tail, rfl, hes, ht⟩
    · have hlen := unsignedLength_point (List.forall_mem_append.2 ⟨hds, hes⟩) hfs ht
      rw [← List.append_assoc, hlen, List.length_append, if_neg (by omega)]
      omega
    · have hlen := unsignedLength_noPoint (List.forall_mem_append.2 ⟨hds, hes⟩) ht
      rw [← List.append_assoc, hlen, List.length_append, if_neg (by omega)]
      omega
  · have hmore : ∀ c ∈ rest.takeWhile Char.isDigit, c.isDigit := fun c hc =>
      List.mem_takeWhile_imp hc
    have h := unsignedLength_point hds (List.forall_mem_append.2 ⟨hfs, hmore⟩)
      (head?_dropWhile Char.isDigit rest)
    rw [List.append_assoc fs, List.takeWhile_append_dropWhile, List.length_append,
      if_neg (by omega)] at h
    rw [List.append_assoc, List.cons_append, h, List.length_append, List.length_cons]
    omega

theorem le_unsignedLength {m x : List Char} (hm : m ∈ mantissa) (hx : x ∈ optional exponent)
    (rest : List Char) : (m ++ x).length ≤ unsignedLength (m ++ x ++ rest) := by
  rcases mem_optional.1 hx with rfl | hx
  · rw [List.append_nil]
    exact length_le_unsignedLength hm rest
  have hlong := le_exponentLength hx rest
  have hhead : ∀ c ∈ (x ++ rest).head?, c.isDigit = false ∧ c ≠ '.' := by
    obtain ⟨e, sign, ds, he, -, -, -, rfl⟩ := mem_exponent.1 hx
    intro c hc
    obtain rfl : e = c := by simpa using hc
    rcases he with rfl | rfl <;> decide
  rw [List.append_assoc, List.length_append]
  rcases mem_mantissa.1 hm with ⟨hne, hds⟩ | ⟨ds, fs, rfl, hds, hfs, hlen⟩
  · have hpos := List.length_pos_of_ne_nil hne
    rw [unsignedLength_noPoint hds hhead, if_neg (by omega)]
    omega
  · rw [List.append_assoc, List.cons_append,
      unsignedLength_point hds hfs fun c hc => (hhead c hc).1, if_neg hlen, List.length_append,
      List.length_cons]
    omega

theorem take_unsignedLength {cs : List Char} (h : unsignedLength cs ≠ 0) :
    cs.take (unsignedLength cs) ∈ mantissa * optional exponent := by
  rcases unsigned_cases cs with ⟨ds, fs, tail, rfl, hds, hfs, ht⟩ | ⟨ds, tail, rfl, hds, ht⟩
  · rw [unsignedLength_point hds hfs ht] at h ⊢
    split at h
    · exact absurd rfl h
    · rename_i hn
      have hlen : ds.length + fs.length + 1 + exponentLength tail =
          ds.length + (fs.length + exponentLength tail + 1) := by omega
      have hm : ds ++ '.' :: fs ∈ mantissa := mem_mantissa.2 (.inr ⟨ds, fs, rfl, hds, hfs, hn⟩)
      rw [if_neg hn, hlen, List.take_length_add_append, List.take_succ_cons,
        List.take_length_add_append, ← List.cons_append, ← List.append_assoc]
      exact Language.append_mem_mul hm (take_exponentLength tail)
  · rw [unsignedLength_noPoint hds ht] at h ⊢
    split at h
    · exact absurd rfl h
    · rename_i hn
      have hne : ds ≠ [] := fun hnil => hn (by rw [hnil]; rfl)
      have hm : ds ∈ mantissa := mem_mantissa.2 (.inl ⟨hne, hds⟩)
      rw [if_neg hn, List.take_length_add_append]
      exact Language.append_mem_mul hm (take_exponentLength tail)

theorem ne_minus_of_mantissa {m : List Char} (h : m ∈ mantissa) (rest : List Char) :
    ∃ c cs, m ++ rest = c :: cs ∧ c ≠ '-' := by
  have hdigit : ∀ c : Char, c.isDigit → c ≠ '-' := by
    rintro c hc rfl
    exact absurd hc (by decide)
  rcases mem_mantissa.1 h with ⟨hne, hds⟩ | ⟨ds, fs, rfl, hds, -, -⟩
  · obtain ⟨d, ds, rfl⟩ := List.exists_cons_of_ne_nil hne
    exact ⟨d, ds ++ rest, rfl, hdigit d (hds d List.mem_cons_self)⟩
  · cases ds with
    | nil => exact ⟨'.', fs ++ rest, rfl, by decide⟩
    | cons d ds =>
      exact ⟨d, ds ++ '.' :: fs ++ rest, rfl, hdigit d (hds d List.mem_cons_self)⟩

theorem le_numberLength {cs : List Char} (h : cs ∈ number) (rest : List Char) :
    cs ≠ [] ∧ cs.length ≤ numberLength (cs ++ rest) := by
  obtain ⟨sign, hsign, u, hu, rfl⟩ := Language.mem_mul.1 h
  obtain ⟨m, hm, x, hx, rfl⟩ := Language.mem_mul.1 hu
  have hlong := le_unsignedLength hm hx rest
  obtain ⟨c, more, hcons, hc⟩ := ne_minus_of_mantissa hm (x ++ rest)
  have hpos : 0 < (m ++ x).length := by
    obtain ⟨c, more, hcons, -⟩ := ne_minus_of_mantissa hm x
    rw [hcons]
    exact Nat.succ_pos _
  rcases mem_optional.1 hsign with rfl | ⟨c, rfl, rfl⟩
  · refine ⟨List.ne_nil_of_length_pos hpos, ?_⟩
    rw [List.nil_append, numberLength_of_head]
    · exact hlong
    · rw [List.append_assoc, hcons]
      intro b hb
      obtain rfl : c = b := by simpa using hb
      exact hc
  · refine ⟨List.cons_ne_nil _ _, ?_⟩
    rw [List.singleton_append, List.cons_append, numberLength_minus, if_neg (by omega),
      List.length_cons]
    omega

theorem take_numberLength {cs : List Char} (h : numberLength cs ≠ 0) :
    cs.take (numberLength cs) ∈ number := by
  rcases eq_minus_or_head cs with ⟨rest, rfl⟩ | hc
  · rw [numberLength_minus] at h ⊢
    split at h
    · exact absurd rfl h
    · rename_i hn
      have hsign : ['-'] ∈ optional (one {'-'}) := mem_optional.2 (.inr (mem_one.2 ⟨'-', rfl, rfl⟩))
      rw [if_neg hn, List.take_succ_cons]
      exact Language.append_mem_mul hsign (take_unsignedLength hn)
  · rw [numberLength_of_head hc] at h ⊢
    exact Language.append_mem_mul (mem_optional.2 (.inl rfl)) (take_unsignedLength h)

end Lexeme

end ShapeAssembly
