import ShapeAssembly.Proofs.Lexing

namespace ShapeAssembly

/-- A token without its place. -/
structure Word where
  kind : TokenKind
  text : String
  deriving DecidableEq

namespace Word

def openParen : Word := ⟨.openParen, "("⟩

def closeParen : Word := ⟨.closeParen, ")"⟩

def comma : Word := ⟨.comma, ","⟩

def assign : Word := ⟨.eq, "="⟩

def colon : Word := ⟨.colon, ":"⟩

def ident (text : String) : Word := ⟨.ident, text⟩

def list (ws : List Word) : List Word := openParen :: (ws.intersperse comma ++ [closeParen])

theorem getLast?_list (ws : List Word) : (list ws).getLast? = some closeParen := by
  rw [list, ← List.cons_append, List.getLast?_concat]

theorem list_eq_list_nil {ws : List Word} (h : list ws = list []) : ws = [] := by
  match ws with
  | [] => rfl
  | [w] => simp [list] at h
  | w :: v :: ws => simp [list] at h

theorem mem_intersperse {w : Word} {ws : List Word} (h : w ∈ ws) : w ∈ ws.intersperse comma := by
  match ws with
  | [v] => exact h
  | u :: v :: ws =>
    rw [List.intersperse_cons_cons]
    rcases List.mem_cons.1 h with rfl | h
    · exact List.mem_cons_self
    · exact List.mem_cons_of_mem _ (List.mem_cons_of_mem _ (mem_intersperse h))

theorem mem_list {w : Word} {ws : List Word} (h : w ∈ ws) : w ∈ list ws :=
  List.mem_cons_of_mem _ (List.mem_append_left _ (mem_intersperse h))

def IsSpelled (w : Word) : Prop := Lexeme.IsOne w.kind w.text.toList

end Word

namespace Token

def word (t : Token) : Word := ⟨t.kind, t.text⟩

def IsLexed (t : Token) : Prop :=
  Lexeme.IsAtom t.kind ∨ (∃ c, Lexeme.punctuation? c = some t.kind) → t.word.IsSpelled

theorem IsLexed.word_eq {t : Token} (h : t.IsLexed) {c : Char}
    (hc : Lexeme.punctuation? c = some t.kind) : t.word = ⟨t.kind, String.ofList [c]⟩ := by
  have ht := (Lexeme.isOne_punctuation_iff hc).1 (h (.inr ⟨c, hc⟩))
  rw [word, ← ht, word, String.ofList_toList]

end Token

namespace Lexeme

/-- The words among lexemes; none if a string is not closed. -/
def words? : List Lexeme → Option (List Word)
  | [] => some []
  | ⟨none, _⟩ :: rest => words? rest
  | ⟨some .unterminatedString, _⟩ :: _ => none
  | ⟨some kind, cs⟩ :: rest => (words? rest).map (⟨kind, String.ofList cs⟩ :: ·)

theorem words?_cons {kind : TokenKind} (h : kind ≠ .unterminatedString) (cs : List Char)
    (rest : List Lexeme) :
    words? (⟨some kind, cs⟩ :: rest) = (words? rest).map (⟨kind, String.ofList cs⟩ :: ·) := by
  cases kind <;> first | rfl | exact absurd rfl h

theorem words?_scan_nil : words? (scan []) = some [] := rfl

theorem words?_scan_blank (cs : List Char) : words? (scan (' ' :: cs)) = words? (scan cs) := by
  obtain ⟨bs, rest, h, hrest⟩ := scan_blank (c := ' ') rfl cs
  rcases hrest with hrest | hrest <;> rw [h, hrest] <;> rfl

theorem words?_scan_mark {c : Char} {k : TokenKind} (h : punctuation? c = some k)
    (cs : List Char) :
    words? (scan (c :: cs)) = (words? (scan cs)).map (⟨k, String.ofList [c]⟩ :: ·) := by
  rw [scan_punctuation h, words?_cons]
  rcases punctuation_cases h with ⟨-, rfl⟩ | ⟨-, rfl⟩ | ⟨-, rfl⟩ | ⟨-, rfl⟩ | ⟨-, rfl⟩ <;> decide

theorem words?_scan_atom {w : Word} (hk : IsAtom w.kind) (h : w.IsSpelled) {cs : List Char}
    (hs : Stops cs) :
    words? (scan (w.text.toList ++ cs)) = (words? (scan cs)).map (w :: ·) := by
  rw [h.scan_append hk hs, words?_cons, String.ofList_toList]
  rcases hk with hk | hk <;> rw [hk] <;> decide

end Lexeme

namespace Token

theorem place_blank (start : Nat) (cs : List Char) (rest : List Lexeme) :
    place start (⟨none, cs⟩ :: rest) = place (start + byteSize cs) rest := rfl

theorem place_open (start : Nat) (cs : List Char) (rest : List Lexeme) :
    place start (⟨some .unterminatedString, cs⟩ :: rest) =
      .error ⟨⟨start, start + byteSize cs⟩⟩ := rfl

theorem place_cons {kind : TokenKind} (h : kind ≠ .unterminatedString) (start : Nat)
    (cs : List Char) (rest : List Lexeme) :
    place start (⟨some kind, cs⟩ :: rest) =
      (⟨kind, String.ofList cs, ⟨start, start + byteSize cs⟩⟩ :: ·) <$>
        place (start + byteSize cs) rest := by
  cases kind <;> first | rfl | exact absurd rfl h

theorem place_words (start : Nat) (ls : List Lexeme) :
    (place start ls).toOption.map (·.map word) = Lexeme.words? ls := by
  induction ls generalizing start with
  | nil => rfl
  | cons l ls ih =>
    obtain ⟨kind, cs⟩ := l
    match kind with
    | none => rw [place_blank, ih, Lexeme.words?]
    | some kind =>
      by_cases hk : kind = .unterminatedString
      · rw [hk, place_open]
        rfl
      · rw [place_cons hk, Lexeme.words?_cons hk, ← ih (start + byteSize cs)]
        cases place (start + byteSize cs) ls <;> rfl

theorem mem_of_place {start : Nat} {ls : List Lexeme} {ts : List Token}
    (h : place start ls = .ok ts) {t : Token} (ht : t ∈ ts) :
    ⟨some t.kind, t.text.toList⟩ ∈ ls := by
  induction ls generalizing start ts with
  | nil =>
    obtain rfl : [] = ts := Except.ok.inj h
    simp at ht
  | cons l ls ih =>
    obtain ⟨kind, cs⟩ := l
    match kind with
    | none => exact List.mem_cons_of_mem _ (ih h ht)
    | some kind =>
      by_cases hk : kind = .unterminatedString
      · rw [hk, place_open] at h
        cases h
      · rw [place_cons hk] at h
        cases hp : place (start + byteSize cs) ls with
        | error e =>
          rw [hp] at h
          cases h
        | ok rest =>
          rw [hp] at h
          obtain rfl := Except.ok.inj h
          rcases List.mem_cons.1 ht with rfl | ht
          · rw [String.toList_ofList]
            exact List.mem_cons_self
          · exact List.mem_cons_of_mem _ (ih hp ht)

end Token

namespace Excerpt

/-- The words of an excerpt that is read as one line; none if it does not lex. -/
def words? (e : Excerpt) : Option (List Word) := e.tokens.toOption.map (·.map Token.word)

theorem words?_eq (e : Excerpt) : e.words? = Lexeme.words? (Lexeme.scan e.chars) :=
  Token.place_words _ _

theorem words?_of_tokens {e : Excerpt} {ts : List Token} (h : e.tokens = .ok ts) :
    e.words? = some (ts.map Token.word) := by
  rw [words?, h]
  rfl

/-- The names, numbers and marks among the tokens of a line are words of their own. -/
theorem isLexed_of_mem {e : Excerpt} {ts : List Token} (h : e.tokens = .ok ts) {t : Token}
    (ht : t ∈ ts) : t.IsLexed :=
  fun hk => Lexeme.isOne_of_mem_scan hk (Token.mem_of_place h ht)

theorem linesFrom_append {cs : List Char} (h : '\n' ∉ cs) (start : Nat) (rest : List Char) :
    linesFrom start (cs ++ '\n' :: rest) =
      (⟨start, cs⟩, lines ⟨start + byteSize cs + 1, rest⟩) := by
  induction cs generalizing start with
  | nil => rfl
  | cons c cs ih =>
    have hc : c ≠ '\n' := fun hc => h (by rw [hc]; exact List.mem_cons_self)
    have hcs : '\n' ∉ cs := fun hcs => h (List.mem_cons_of_mem _ hcs)
    rw [List.cons_append, linesFrom, ih hcs]
    simp only [if_neg hc, byteSize_cons, Nat.add_assoc]

theorem lines_append {cs : List Char} (h : '\n' ∉ cs) (start : Nat) (rest : List Char) :
    lines ⟨start, cs ++ '\n' :: rest⟩ =
      ⟨start, cs⟩ :: lines ⟨start + byteSize cs + 1, rest⟩ := by
  rw [lines, linesFrom_append h]

/-- The words of the lines that are not blank, with none for a line that does not lex. -/
def content (e : Excerpt) : List (Option (List Word)) :=
  (e.lines.map words?).filter (· ≠ some [])

theorem chars_linesFrom (a b : Nat) (cs : List Char) :
    (linesFrom a cs).1.chars = (linesFrom b cs).1.chars ∧
      (linesFrom a cs).2.map Excerpt.chars = (linesFrom b cs).2.map Excerpt.chars := by
  induction cs generalizing a b with
  | nil => exact ⟨rfl, rfl⟩
  | cons c cs ih =>
    obtain ⟨hline, hmore⟩ := ih (a + c.utf8Size) (b + c.utf8Size)
    by_cases hc : c = '\n'
    · simp only [linesFrom, if_pos hc, List.map_cons, hline, hmore, and_self]
    · simp only [linesFrom, if_neg hc, hline, hmore, and_self]

/-- What a text says does not depend on where it stands. -/
theorem content_start (a b : Nat) (cs : List Char) : content ⟨a, cs⟩ = content ⟨b, cs⟩ := by
  have hwords : words? = (fun as => Lexeme.words? (Lexeme.scan as)) ∘ Excerpt.chars :=
    funext words?_eq
  have hlines : ∀ n, lines ⟨n, cs⟩ = (linesFrom n cs).1 :: (linesFrom n cs).2 := fun _ => rfl
  obtain ⟨hline, hmore⟩ := chars_linesFrom a b cs
  rw [content, content, hwords, ← List.map_map, ← List.map_map, hlines, hlines]
  simp only [List.map_cons, hline, hmore]

theorem content_nil (start : Nat) : content ⟨start, []⟩ = [] := rfl

theorem content_cons {cs : List Char} {ws : List Word} (hn : '\n' ∉ cs)
    (h : Lexeme.words? (Lexeme.scan cs) = some ws) (hw : ws ≠ []) (start : Nat)
    (rest : List Char) :
    content ⟨start, cs ++ '\n' :: rest⟩ = some ws :: content ⟨start, rest⟩ := by
  rw [content_start start (start + byteSize cs + 1) rest, content, lines_append hn, List.map_cons,
    words?_eq, h, List.filter_cons_of_pos (by simpa)]
  rfl

theorem content_blank (start : Nat) (rest : List Char) :
    content ⟨start, '\n' :: rest⟩ = content ⟨start, rest⟩ := by
  have h := lines_append (show '\n' ∉ [] by simp) start rest
  have hw : words? ⟨start, []⟩ = some [] := rfl
  rw [List.nil_append] at h
  rw [content_start start (start + byteSize [] + 1) rest, content, h, List.map_cons,
    List.filter_cons_of_neg (by rw [hw]; decide)]
  rfl

end Excerpt

end ShapeAssembly
