import ShapeAssembly.Proofs.DecimalText
import ShapeAssembly.Proofs.Lexing

namespace ShapeAssembly.Json

theorem hexUnit?_control : ∀ n < 32,
    hexUnit? '0' '0' (Nat.digitChar (n / 16)) (Nat.digitChar (n % 16)) = some n := by
  decide

/-- The part that a character becomes and that is joined to it again. -/
theorem exists_part (c : Char) (rest : List Char) :
    ∃ part, (∀ parts n, textParts? rest = some (parts, n) →
        textParts? (escape c ++ rest) = some (part :: parts, n + (escape c).length)) ∧
      ∀ parts, joinParts? (part :: parts) = (c :: ·) <$> joinParts? parts := by
  unfold escape
  split
  · exact ⟨.char '"', fun parts n h => by simp [textParts?, unescape?, h], fun _ => rfl⟩
  · exact ⟨.char '\\', fun parts n h => by simp [textParts?, unescape?, h], fun _ => rfl⟩
  · exact ⟨.char '\n', fun parts n h => by simp [textParts?, unescape?, h], fun _ => rfl⟩
  · exact ⟨.char '\r', fun parts n h => by simp [textParts?, unescape?, h], fun _ => rfl⟩
  · exact ⟨.char '\t', fun parts n h => by simp [textParts?, unescape?, h], fun _ => rfl⟩
  · exact ⟨.char '\x08', fun parts n h => by simp [textParts?, unescape?, h], fun _ => rfl⟩
  · exact ⟨.char '\x0c', fun parts n h => by simp [textParts?, unescape?, h], fun _ => rfl⟩
  · rename_i hquote hslash _ _ _ _ _
    split
    · rename_i hcontrol
      refine ⟨.unit c.toNat, fun parts n h => ?_, fun parts => ?_⟩
      · simp [textParts?, hexUnit?_control c.toNat hcontrol, h]
      · have hlow : c.toNat < 0xd800 ∨ 0xdfff < c.toNat := .inl (by omega)
        conv_lhs => unfold joinParts?
        simp only [hlow, if_true, Char.ofNat_toNat]
    · rename_i hplain
      refine ⟨.char c, fun parts n h => ?_, fun _ => rfl⟩
      have hno : ¬ (c = '\\' ∨ c.toNat < 0x20) := not_or.2 ⟨hslash, hplain⟩
      show textParts? (c :: rest) = _
      unfold textParts?
      split
      · exact absurd ‹_› (List.cons_ne_nil _ _)
      · rename_i heq
        exact absurd (List.cons.inj heq).1 hquote
      · rename_i heq
        exact absurd (List.cons.inj heq).1 hslash
      · rename_i heq
        exact absurd (List.cons.inj heq).1 hslash
      · rename_i heq
        obtain ⟨rfl, rfl⟩ := List.cons.inj heq
        rw [if_neg hno, h]
        rfl

theorem exists_parts (cs rest : List Char) :
    ∃ parts, textParts? (cs.flatMap escape ++ '"' :: rest) =
        some (parts, (cs.flatMap escape).length + 1) ∧ joinParts? parts = some cs := by
  induction cs with
  | nil => exact ⟨[], rfl, rfl⟩
  | cons c cs ih =>
    obtain ⟨parts, hparts, hjoin⟩ := ih
    obtain ⟨part, hpart, hc⟩ := exists_part c (cs.flatMap escape ++ '"' :: rest)
    refine ⟨part :: parts, ?_, ?_⟩
    · rw [List.flatMap_cons, List.append_assoc, hpart _ _ hparts, List.length_append]
      congr 2
      omega
    · rw [hc, hjoin]
      rfl

namespace Symbol

/-- A text that continues no number and no word. -/
def Separates (cs : List Char) : Prop := ∀ c ∈ cs.head?, isNumeric c = false ∧ c.isAlpha = false

def readFrom? (cs : List Char) : Option (List Symbol) := (scanAfter? 0 cs).bind reduce?

theorem scanAfter?_append (as bs : List Char) :
    scanAfter? as.length (as ++ bs) = scanAfter? 0 bs := by
  induction as with
  | nil => rfl
  | cons a as ih => exact ih

theorem readFrom?_symbol {c : Char} {as : List Char} {symbol : Symbol} {rest : List Char}
    (hb : isBlank c = false) (hs : start? c (as ++ rest) = some (symbol, as.length)) :
    readFrom? (c :: (as ++ rest)) = (readFrom? rest).bind symbol.push? := by
  rw [readFrom?, scanAfter?, if_neg (by rw [hb]; decide), hs]
  show ((scanAfter? as.length (as ++ rest)).bind fun symbols => some (symbol :: symbols)).bind
    reduce? = _
  rw [scanAfter?_append, readFrom?, Option.bind_assoc, Option.bind_assoc]
  rfl

theorem readFrom?_blanks {bs : List Char} (hb : ∀ c ∈ bs, isBlank c) (rest : List Char) :
    readFrom? (bs ++ rest) = readFrom? rest := by
  induction bs with
  | nil => rfl
  | cons b bs ih =>
    obtain ⟨hb, hbs⟩ := List.forall_mem_cons.1 hb
    rw [← ih hbs, List.cons_append, readFrom?, scanAfter?, if_pos hb, readFrom?]

theorem readFrom?_value {c : Char} {as : List Char} {j : Json} {rest : List Char}
    (hb : isBlank c = false) (hs : start? c (as ++ rest) = some (value j, as.length)) :
    readFrom? (c :: (as ++ rest)) = (readFrom? rest).map (value j :: ·) := by
  rw [readFrom?_symbol hb hs, Option.map_eq_bind]
  rfl

theorem isAlpha_of_number {c : Char} (hc : c.isDigit ∨ c = '-') : c.isAlpha = false := by
  rcases hc with hc | rfl
  · exact (Bool.or_eq_false_iff.1 (Lexeme.isIdentStart_eq_false hc)).1
  · decide

theorem isBlank_of_start {c : Char} (hc : c.isAlpha ∨ c.isDigit ∨ c = '-') :
    isBlank c = false := by
  by_contra hb
  simp only [isBlank, Bool.not_eq_false, Bool.or_eq_true, decide_eq_true_eq] at hb
  rcases hb with ((rfl | rfl) | rfl) | rfl <;> exact absurd hc (by decide)

/-- Letters start a word, digits and a minus sign a number. -/
theorem start?_of_start {c : Char} (hc : c.isAlpha ∨ c.isDigit ∨ c = '-') (cs : List Char) :
    start? c cs =
      let more := cs.takeWhile (if c.isAlpha then Char.isAlpha else isNumeric)
      (if c.isAlpha then word? (c :: more) else if c.isDigit ∨ c = '-' then number? (c :: more)
        else none).map fun j => (value j, more.length) := by
  unfold start?
  split
  iterate 7 exact absurd hc (by decide)
  rfl

theorem readFrom?_number {c : Char} {as : List Char} {j : Json} {rest : List Char}
    (hc : c.isDigit ∨ c = '-') (ha : ∀ c ∈ as, isNumeric c) (hj : number? (c :: as) = some j)
    (hr : Separates rest) :
    readFrom? (c :: (as ++ rest)) = (readFrom? rest).map (value j :: ·) := by
  have hmore := (takeWhile_of_head ha fun c hc => (hr c hc).1).1
  have halpha := isAlpha_of_number hc
  apply readFrom?_value (isBlank_of_start (.inr hc))
  rw [start?_of_start (.inr hc)]
  simp only [halpha, Bool.false_eq_true, if_false, hmore, if_pos hc, hj]
  rfl

theorem isNumeric_of_isDigit {c : Char} (hc : c.isDigit) : isNumeric c := by
  simp [isNumeric, hc]

theorem readFrom?_natural (n : Nat) {rest : List Char} (hr : Separates rest) :
    readFrom? (Nat.toDigits 10 n ++ rest) = (readFrom? rest).map (value (.natural n) :: ·) := by
  have hall : ∀ c ∈ Nat.toDigits 10 n, c.isDigit := fun c => Decimal.isDigit_of_mem_toDigits
  have hnumber : number? (Nat.toDigits 10 n) = some (.natural n) := by
    rw [number?, if_pos (List.all_eq_true.2 hall), Decimal.ofDigits_toDigits]
  obtain ⟨c, as, hcs⟩ := List.exists_cons_of_ne_nil (Nat.toDigits_ne_nil (n := n) (b := 10))
  rw [hcs] at hall hnumber ⊢
  obtain ⟨hc, has⟩ := List.forall_mem_cons.1 hall
  exact readFrom?_number (.inl hc) (fun c hc => isNumeric_of_isDigit (has c hc)) hnumber hr

theorem isNumeric_of_mem_text (layout : Decimal.Layout) (d : Decimal) :
    ∀ a ∈ d.text layout, isNumeric a := by
  have hdigits : ∀ n, ∀ a ∈ Nat.toDigits 10 n, isNumeric a := fun n a ha =>
    isNumeric_of_isDigit (Decimal.isDigit_of_mem_toDigits ha)
  have hzeros : ∀ k, ∀ a ∈ List.replicate k '0', isNumeric a := fun k a ha =>
    isNumeric_of_isDigit (Decimal.isDigit_of_mem_zeros ha)
  have htake : ∀ k, ∀ a ∈ (Nat.toDigits 10 d.digits).take k, isNumeric a := fun k a ha =>
    hdigits _ a (List.mem_of_mem_take ha)
  have hdrop : ∀ k, ∀ a ∈ (Nat.toDigits 10 d.digits).drop k, isNumeric a := fun k a ha =>
    hdigits _ a (List.mem_of_mem_drop ha)
  unfold Decimal.text
  refine List.forall_mem_append.2 ⟨List.all_eq_true.1 (by cases d.negative <;> rfl), ?_⟩
  split
  · split
    · exact List.forall_mem_append.2
        ⟨List.forall_mem_append.2 ⟨hdigits _, hzeros _⟩, List.all_eq_true.1 rfl⟩
    · split
      · exact List.forall_mem_append.2 ⟨htake _, List.forall_mem_cons.2 ⟨by decide, hdrop _⟩⟩
      · exact List.forall_mem_cons.2 ⟨by decide, List.forall_mem_cons.2 ⟨by decide,
          List.forall_mem_append.2 ⟨hzeros _, hdigits _⟩⟩⟩
  · refine List.forall_mem_append.2 ⟨List.forall_mem_append.2 ⟨htake 1, ?_⟩,
      List.forall_mem_cons.2 ⟨by decide, List.forall_mem_cons.2 ⟨?_, hdigits _⟩⟩⟩
    · split
      · exact fun a ha => nomatch ha
      · exact List.forall_mem_cons.2 ⟨by decide, hdrop 1⟩
    · split <;> decide

/-- The text of a decimal starts like a number and has more in it than digits. -/
theorem exists_text (layout : Decimal.Layout) (d : Decimal) :
    ∃ c as, d.text layout = c :: as ∧ (c.isDigit ∨ c = '-') ∧ ∃ a ∈ as, a.isDigit = false := by
  obtain ⟨body, hbody, c, as, rfl, hc, hno⟩ : ∃ body,
      d.text layout = (if d.negative then ['-'] else []) ++ body ∧ ∃ c as, body = c :: as ∧
        c.isDigit ∧ ∃ a ∈ as, a.isDigit = false := by
    refine ⟨_, rfl, ?_⟩
    obtain ⟨c, ds, hds⟩ := List.exists_cons_of_ne_nil
      (Nat.toDigits_ne_nil (n := d.digits) (b := 10))
    have hc : c.isDigit := Decimal.isDigit_of_mem_toDigits (hds ▸ List.mem_cons_self)
    rw [hds]
    split
    · split
      · exact ⟨c, _, rfl, hc, '.', by simp, by decide⟩
      · split
        · exact ⟨c, _, rfl, hc, '.', by simp, by decide⟩
        · exact ⟨'0', _, rfl, by decide, '.', by simp, by decide⟩
    · exact ⟨c, _, rfl, hc, 'e', by simp, by decide⟩
  rw [hbody]
  cases d.negative with
  | true => exact ⟨'-', c :: as, rfl, .inr rfl, hno.imp fun a ha => ⟨.tail c ha.1, ha.2⟩⟩
  | false => exact ⟨c, as, rfl, .inl hc, hno⟩

theorem readFrom?_double (d : Double) {rest : List Char} (hr : Separates rest) :
    readFrom? (d.shortest.text places ++ rest) =
      (readFrom? rest).map (value (.double d) :: ·) := by
  have hread := Decimal.toDouble?_read?_shortest places d
  have hnumeric := isNumeric_of_mem_text places d.shortest
  obtain ⟨c, as, hcs, hc, a, ha, hno⟩ := exists_text places d.shortest
  rw [hcs] at hread hnumeric ⊢
  have hall : ¬ (c :: as).all Char.isDigit := fun h =>
    absurd (List.all_eq_true.1 h a (List.mem_cons_of_mem c ha)) (by rw [hno]; decide)
  have hnumber : number? (c :: as) = some (.double d) := by
    rw [number?, if_neg hall, hread]
    rfl
  exact readFrom?_number hc (List.forall_mem_cons.1 hnumeric).2 hnumber hr

theorem readFrom?_word {c : Char} {as : List Char} {j : Json} {rest : List Char}
    (hall : (c :: as).all Char.isAlpha) (hj : word? (c :: as) = some j) (hr : Separates rest) :
    readFrom? (c :: (as ++ rest)) = (readFrom? rest).map (value j :: ·) := by
  obtain ⟨hc, ha⟩ := List.forall_mem_cons.1 (List.all_eq_true.1 hall)
  have hmore := (takeWhile_of_head ha fun c hc => (hr c hc).2).1
  apply readFrom?_value (isBlank_of_start (.inl hc))
  rw [start?_of_start (.inl hc)]
  simp only [hc, if_true, hmore, hj]
  rfl

theorem readFrom?_quote (s : String) (rest : List Char) :
    readFrom? (quote s ++ rest) = (readFrom? rest).map (value (.text s) :: ·) := by
  obtain ⟨parts, hparts, hjoin⟩ := exists_parts s.toList rest
  have hquote : quote s ++ rest = '"' :: ((s.toList.flatMap escape ++ ['"']) ++ rest) := by
    simp [quote]
  rw [hquote]
  apply readFrom?_value rfl
  rw [List.append_assoc, List.length_append]
  show (textParts? (s.toList.flatMap escape ++ '"' :: rest) >>= _) = _
  rw [hparts]
  show (joinParts? parts >>= _) = _
  rw [hjoin]
  exact congrArg (fun s => some (value (.text s), _)) String.ofList_toList

end Symbol

end ShapeAssembly.Json
