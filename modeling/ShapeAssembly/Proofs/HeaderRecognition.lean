import ShapeAssembly.Proofs.Contexts

namespace ShapeAssembly

namespace Word

def isDef (w : Word) : Bool := w.kind = .ident && sameLetters w.text "def"

def continuesHeader (w : Word) : Bool := w.kind = .ident || w.kind = .openParen

theorem isHeader_eq (ws : List Word) :
    isHeader ws = (ws.head?.any isDef && ws[1]?.any continuesHeader) := by
  match ws with
  | [] => rfl
  | [w] => simp [isHeader]
  | w :: next :: rest => rfl

end Word

theorem exists_of_sameLetters_def {cs : List Char} (h : sameLetters (String.ofList cs) "def") :
    ∃ c rest, cs = c :: rest ∧ c.isAlpha := by
  have hletters : cs.map Char.toLower = ['d', 'e', 'f'] := by simpa [sameLetters] using h
  cases cs with
  | nil => cases hletters
  | cons c rest =>
    obtain ⟨hc, -⟩ := List.cons.inj hletters
    exact ⟨c, rest, rfl, isAlpha_of_toLower (by rw [hc]; rfl)⟩

theorem Line.startsWithDef_cons {c : Char} (hs : ¬ isSpace c) (hi : Lexeme.isIdentStart c = false)
    (cs : List Char) : Line.startsWithDef (c :: cs) = false := by
  rw [Line.startsWithDef, trimStart, List.dropWhile_cons_of_neg hs, ← Bool.not_eq_true]
  intro hdef
  obtain ⟨d, rest, hd, hletter⟩ := exists_of_sameLetters_def hdef
  obtain rfl : c = d := by
    rw [List.takeWhile_cons] at hd
    split at hd
    · exact (List.cons.inj hd).1
    · cases hd
  rw [Lexeme.isIdentStart, hletter] at hi
  cases hi

namespace Lexeme

theorem isSpace_of_isBlank {c : Char} (h : isBlank c) : isSpace c := by
  simp only [isBlank, Bool.or_eq_true, decide_eq_true_eq] at h
  rcases h with ((h | h) | h) | h <;> subst h <;> decide

theorem isIdentStart_of_isSpace {c : Char} (h : isSpace c) : isIdentStart c = false := by
  have hu : c ≠ '_' := by
    rintro rfl
    exact absurd h (by decide)
  simp only [isSpace, Char.toNat, Bool.or_eq_true, Bool.and_eq_true, decide_eq_true_eq] at h
  simp only [isIdentStart, hu, decide_false, Bool.or_false, isAlpha_eq, Bool.or_eq_false_iff,
    Bool.and_eq_false_iff, decide_eq_false_iff_not, UInt32.le_iff_toNat_le, ge_iff_le]
  simp only [Char.reduceVal, UInt32.reduceToNat] at h ⊢
  omega

theorem isIdentRest_of_isIdentStart {c : Char} (h : isIdentStart c) : isIdentRest c := by
  rw [isIdentStart, Bool.or_eq_true] at h
  rw [isIdentRest, Char.isAlphanum, Bool.or_assoc, Bool.or_eq_true, Bool.or_eq_true]
  exact h.imp_right .inr

/-- The words among lexemes up to the first string that is not closed. -/
def wordsBefore : List Lexeme → List Word
  | [] => []
  | ⟨none, _⟩ :: rest => wordsBefore rest
  | ⟨some .unterminatedString, _⟩ :: _ => []
  | ⟨some kind, cs⟩ :: rest => ⟨kind, String.ofList cs⟩ :: wordsBefore rest

theorem wordsBefore_cons {kind : TokenKind} (h : kind ≠ .unterminatedString) (cs : List Char)
    (rest : List Lexeme) :
    wordsBefore (⟨some kind, cs⟩ :: rest) = ⟨kind, String.ofList cs⟩ :: wordsBefore rest := by
  cases kind <;> first | rfl | exact absurd rfl h

theorem wordsBefore_scan_blank {c : Char} (h : isBlank c) (cs : List Char) :
    wordsBefore (scan (c :: cs)) = wordsBefore (scan cs) := by
  obtain ⟨bs, rest, h, hrest⟩ := scan_blank h cs
  rcases hrest with hrest | hrest <;> rw [h, hrest] <;> rfl

def startsWithDef (ls : List Lexeme) : Bool := (wordsBefore ls).head?.any Word.isDef

theorem startsWithDef_of_ne {kind : TokenKind} (h : kind ≠ .ident) (cs : List Char)
    (rest : List Lexeme) : startsWithDef (⟨some kind, cs⟩ :: rest) = false := by
  rw [startsWithDef]
  by_cases hk : kind = .unterminatedString
  · rw [hk]
    rfl
  · rw [wordsBefore_cons hk, List.head?_cons, Option.any_some, Word.isDef, decide_eq_false h,
      Bool.false_and]

theorem startsWithDef_after_comment (cs : List Char) :
    startsWithDef (scan (cs.dropWhile (· ≠ '\n'))) = false := by
  have hhead := head?_dropWhile (· ≠ '\n') cs
  cases hd : cs.dropWhile (· ≠ '\n') with
  | nil => rfl
  | cons d ds =>
    rw [hd] at hhead
    obtain rfl : d = '\n' := by simpa using hhead d rfl
    rw [scan_cons]
    exact startsWithDef_of_ne (by decide) _ _

/-- Only a letter starts `def`. -/
theorem startsWithDef_scan_cons {c : Char} (hb : isBlank c = false) (hi : isIdentStart c = false)
    (cs : List Char) : startsWithDef (scan (c :: cs)) = false := by
  have hm := munched c cs
  rw [scan_cons]
  generalize munch c cs = r at hm
  cases hm with
  | blank h =>
    rw [hb] at h
    cases h
  | ident h =>
    rw [hi] at h
    cases h
  | comment =>
    have h := startsWithDef_after_comment cs
    rwa [← drop_run] at h
  | string =>
    apply startsWithDef_of_ne
    split <;> decide
  | punctuation h =>
    apply startsWithDef_of_ne
    rcases punctuation_cases h with ⟨-, rfl⟩ | ⟨-, rfl⟩ | ⟨-, rfl⟩ | ⟨-, rfl⟩ | ⟨-, rfl⟩ <;> decide
  | number | error => exact startsWithDef_of_ne (by decide) _ _

/-- The first word of a text is `def` for the scanner if it is and only blanks stand before it. -/
theorem startsWithDef_scan (cs : List Char) :
    startsWithDef (scan cs) = (Line.startsWithDef cs && (cs.takeWhile isSpace).all isBlank) := by
  induction cs with
  | nil => rfl
  | cons c cs ih =>
    -- both sides pass over blanks; what comes then decides
    cases hb : isBlank c with
    | true =>
      have hs := isSpace_of_isBlank hb
      rw [startsWithDef, wordsBefore_scan_blank hb, ← startsWithDef, ih, Line.startsWithDef,
        Line.startsWithDef, trimStart, trimStart, List.dropWhile_cons_of_pos hs,
        List.takeWhile_cons_of_pos hs, List.all_cons, hb, Bool.true_and]
    | false =>
      cases hi : isIdentStart c with
      | true =>
        have hs : ¬ isSpace c := by
          intro h
          rw [isIdentStart_of_isSpace h] at hi
          cases hi
        rw [scan_cons, munch_ident hi, startsWithDef, wordsBefore_cons (by decide), take_run,
          Line.startsWithDef, trimStart, List.dropWhile_cons_of_neg hs,
          List.takeWhile_cons_of_pos (isIdentRest_of_isIdentStart hi),
          List.takeWhile_cons_of_neg hs]
        simp [Word.isDef]
      | false =>
        rw [startsWithDef_scan_cons hb hi, eq_comm, Bool.and_eq_false_iff]
        by_cases hs : isSpace c
        · right
          rw [List.takeWhile_cons_of_pos hs, List.all_cons, hb, Bool.false_and]
        · exact .inl (Line.startsWithDef_cons hs hi cs)

end Lexeme

namespace Excerpt

/-- The words of a line before its first open string. -/
def wordsBefore (line : Excerpt) : List Word := Lexeme.wordsBefore (Lexeme.scan line.chars)

/-- A line whose first word is `def`, but not that of a header: white space that is no blank stands
before it, or neither a name nor a list after it. -/
structure IsMistaken (line : Excerpt) : Prop where
  first : Line.startsWithDef line.chars
  other : (∃ c ∈ line.chars.takeWhile isSpace, Lexeme.isBlank c = false) ∨
    line.wordsBefore[1]?.any Word.continuesHeader = false

/-- The first word of a line is `def` if the words before an open string form a header, or if the
line is mistaken for one, and these exclude each other. -/
theorem startsWithDef_iff (line : Excerpt) :
    (Line.startsWithDef line.chars ↔ Word.isHeader line.wordsBefore ∨ line.IsMistaken) ∧
      ¬ (Word.isHeader line.wordsBefore ∧ line.IsMistaken) := by
  have hheader : Word.isHeader line.wordsBefore ↔
      (Line.startsWithDef line.chars ∧ ∀ c ∈ line.chars.takeWhile isSpace, Lexeme.isBlank c) ∧
        line.wordsBefore[1]?.any Word.continuesHeader := by
    have hfirst := Lexeme.startsWithDef_scan line.chars
    rw [Lexeme.startsWithDef, ← wordsBefore] at hfirst
    rw [Word.isHeader_eq, hfirst, Bool.and_eq_true, Bool.and_eq_true, List.all_eq_true]
  constructor
  · constructor
    · intro hdef
      by_cases h : Word.isHeader line.wordsBefore
      · exact .inl h
      · refine .inr ⟨hdef, ?_⟩
        by_contra hno
        rw [not_or] at hno
        refine h (hheader.2 ⟨⟨hdef, fun c hc => ?_⟩, by simpa using hno.2⟩)
        by_contra hb
        exact hno.1 ⟨c, hc, by simpa using hb⟩
    · rintro (h | h)
      · exact (hheader.1 h).1.1
      · exact h.first
  · rintro ⟨h, hm⟩
    obtain ⟨⟨-, hblank⟩, hnext⟩ := hheader.1 h
    rcases hm.other with ⟨c, hc, hb⟩ | hno
    · rw [hblank c hc] at hb
      cases hb
    · rw [hnext] at hno
      cases hno

end Excerpt

namespace Context

theorem after_unlexed (before : List Excerpt) {line : Excerpt} (h : line.words? = none) :
    after (before ++ [line]) =
      if line.isHeader then ⟨some .empty, (after before).names⟩ else after before := by
  rw [after_append_singleton]
  cases ht : line.tokens with
  | ok ts =>
    rw [Excerpt.words?_of_tokens ht] at h
    cases h
  | error string =>
    cases hl : line.isHeader with
    | true =>
      rw [next_header _ hl, if_pos rfl, Excerpt.headerScope, Excerpt.parameters, Excerpt.nameText?,
        Excerpt.headerName?, Excerpt.header?_of_error ht]
      rfl
    | false =>
      rw [next_body _ hl, Excerpt.bodyLine_of_error ht]
      cases after before with
      | mk scope? names => cases scope? <;> rfl

/-- A line that does not lex opens a block with no name in scope if its first word is `def`, also
where it is mistaken for a header. Any other such line leaves the open block as it is. -/
theorem after_open_string (before : List Excerpt) (line : Excerpt) (h : line.words? = none) :
    (line.isHeader ↔ Word.isHeader line.wordsBefore ∨ line.IsMistaken) ∧
      ¬ (Word.isHeader line.wordsBefore ∧ line.IsMistaken) ∧
      after (before ++ [line]) =
        if line.isHeader then ⟨some .empty, (after before).names⟩ else after before := by
  refine ⟨?_, line.startsWithDef_iff.2, after_unlexed before h⟩
  rw [Excerpt.isHeader, h]
  exact line.startsWithDef_iff.1

/-- The start of a statement that assigns to a variable `def` is mistaken for a header. -/
theorem after_open_string_assignment :
    let line : Excerpt := ⟨0, "def = Cuboid(\"x".toList⟩
    line.words? = none ∧ line.IsMistaken ∧ after [line] = ⟨some .empty, []⟩ := by
  intro line
  have hw : line.words? = none := by decide +kernel
  have hl : line.isHeader := by decide +kernel
  have hno : ¬ Word.isHeader line.wordsBefore := by decide +kernel
  obtain ⟨hiff, -, hafter⟩ := after_open_string [] line hw
  rw [if_pos hl] at hafter
  exact ⟨hw, (hiff.1 hl).resolve_left hno, hafter⟩

end Context

/-- What follows such a statement is in no definition. -/
theorem Program.statements_parse_assignment :
    let text := "def main():\n    def = Cuboid(\"x\n    a = Cuboid(1, 1, 1)"
    (∃ line ∈ (Excerpt.whole text).lines, line.words? = none ∧
      Word.isHeader line.wordsBefore = false ∧ line.isHeader) ∧
      (parse text).program.definitions.flatMap (·.statements) = [] := by
  decide +kernel

end ShapeAssembly
