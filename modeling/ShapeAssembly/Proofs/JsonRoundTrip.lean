import ShapeAssembly.Proofs.JsonText

namespace ShapeAssembly.Json

namespace Symbol

def ofItems (items : List Json) : List Symbol := items.flatMap fun j => [comma, value j]

def ofFields (fields : List (String × Json)) : List Symbol :=
  fields.flatMap fun (key, j) => [comma, value (.text key), colon, value j]

theorem moreItems?_ofItems (items : List Json) (rest : List Symbol) :
    moreItems? (ofItems items ++ closeArray :: rest) = some (items, rest) := by
  induction items with
  | nil => rfl
  | cons j items ih =>
    show (moreItems? (ofItems items ++ closeArray :: rest)).map _ = _
    rw [ih]
    rfl

theorem moreFields?_ofFields (fields : List (String × Json)) (rest : List Symbol) :
    moreFields? (ofFields fields ++ closeObject :: rest) = some (fields, rest) := by
  induction fields with
  | nil => rfl
  | cons field fields ih =>
    obtain ⟨key, j⟩ := field
    show (moreFields? (ofFields fields ++ closeObject :: rest)).map _ = _
    rw [ih]
    rfl

theorem push?_openArray (j : Json) (items : List Json) (rest : List Symbol) :
    openArray.push? (value j :: (ofItems items ++ closeArray :: rest)) =
      some (value (.array (j :: items)) :: rest) := by
  show (((moreItems? (ofItems items ++ closeArray :: rest)).map _).map _) = _
  rw [moreItems?_ofItems]
  rfl

theorem push?_openObject (key : String) (j : Json) (fields : List (String × Json))
    (rest : List Symbol) :
    openObject.push? (value (.text key) :: colon :: value j ::
      (ofFields fields ++ closeObject :: rest)) =
      some (value (.object ((key, j) :: fields)) :: rest) := by
  show (((moreFields? (ofFields fields ++ closeObject :: rest)).map _).map _) = _
  rw [moreFields?_ofFields]
  rfl

theorem readFrom?_mark (c : Char) (symbol : Symbol) (hb : isBlank c = false)
    (hs : ∀ cs, start? c cs = some (symbol, 0)) (rest : List Char) :
    readFrom? (c :: rest) = (readFrom? rest).bind symbol.push? :=
  @readFrom?_symbol c [] symbol rest hb (hs rest)

theorem readFrom?_comma (rest : List Char) :
    readFrom? (',' :: rest) = (readFrom? rest).map (comma :: ·) := by
  rw [readFrom?_mark ',' comma rfl fun _ => rfl, Option.map_eq_bind]
  rfl

theorem readFrom?_lineBreak (style : Style) (depth : Nat) (rest : List Char) :
    readFrom? (lineBreak depth style ++ rest) = readFrom? rest := by
  apply readFrom?_blanks
  cases style with
  | compact => exact fun c hc => nomatch hc
  | pretty =>
    refine List.forall_mem_cons.2 ⟨rfl, fun c hc => ?_⟩
    rw [List.eq_of_mem_replicate hc]
    rfl

theorem readFrom?_keyMark (style : Style) (rest : List Char) :
    readFrom? (keyMark style ++ rest) = (readFrom? rest).map (colon :: ·) := by
  have hcolon := readFrom?_mark ':' colon rfl (fun _ => rfl)
  rw [Option.map_eq_bind]
  cases style with
  | compact => exact hcolon rest
  | pretty =>
    refine (hcolon (' ' :: rest)).trans ?_
    rw [← @readFrom?_blanks [' '] (List.all_eq_true.1 rfl) rest]
    rfl

theorem separates_cons {c : Char} (hc : isNumeric c = false ∧ c.isAlpha = false)
    (rest : List Char) : Separates (c :: rest) := by
  intro a ha
  obtain rfl := Option.some.inj ha
  exact hc

theorem separates_lineBreak (style : Style) (depth : Nat) {rest : List Char}
    (hr : Separates rest) : Separates (lineBreak depth style ++ rest) := by
  cases style with
  | compact => exact hr
  | pretty => exact separates_cons (by decide) _

theorem separates_moreItems (style : Style) (depth : Nat) (items : List Json) {rest : List Char}
    (hr : Separates rest) : Separates (moreItems style depth items ++ rest) := by
  cases items with
  | nil => rw [moreItems]; exact hr
  | cons j items => rw [moreItems]; exact separates_cons (by decide) _

theorem separates_moreFields (style : Style) (depth : Nat) (fields : List (String × Json))
    {rest : List Char} (hr : Separates rest) :
    Separates (moreFields style depth fields ++ rest) := by
  cases fields with
  | nil => rw [moreFields]; exact hr
  | cons field fields => rw [moreFields]; exact separates_cons (by decide) _

/-- A value between brackets ends where the closing bracket is. -/
theorem separates_close (style : Style) (depth : Nat) {c : Char}
    (hc : isNumeric c = false ∧ c.isAlpha = false) (rest : List Char) :
    Separates (lineBreak depth style ++ c :: rest) :=
  separates_lineBreak style depth (separates_cons hc rest)

mutual

theorem readFrom?_chars (style : Style) : ∀ (j : Json) (depth : Nat) {rest : List Char},
    Separates rest →
      readFrom? (chars style depth j ++ rest) = (readFrom? rest).map (value j :: ·)
  | .null, depth, rest, hr => by
    rw [chars]
    exact readFrom?_word (c := 'n') (by decide) rfl hr
  | .bool b, depth, rest, hr => by
    rw [chars]
    cases b with
    | false => exact readFrom?_word (c := 'f') (by decide) rfl hr
    | true => exact readFrom?_word (c := 't') (by decide) rfl hr
  | .natural n, depth, rest, hr => by
    rw [chars]
    exact readFrom?_natural n hr
  | .double d, depth, rest, hr => by
    rw [chars]
    exact readFrom?_double d hr
  | .text s, depth, rest, hr => by
    rw [chars]
    exact readFrom?_quote s rest
  | .array [], depth, rest, hr => by
    rw [chars]
    show readFrom? ('[' :: ']' :: rest) = _
    rw [readFrom?_mark '[' openArray rfl fun _ => rfl,
      readFrom?_mark ']' closeArray rfl fun _ => rfl]
    cases readFrom? rest <;> rfl
  | .array (j :: items), depth, rest, hr => by
    have hclose := separates_close style depth (c := ']') (by decide) rest
    have hmore := separates_moreItems style (depth + 1) items hclose
    simp only [chars, List.cons_append, List.append_assoc, List.nil_append]
    rw [readFrom?_mark '[' openArray rfl fun _ => rfl, readFrom?_lineBreak,
      readFrom?_chars style j (depth + 1) hmore, readFrom?_moreItems style items (depth + 1) hclose,
      readFrom?_lineBreak, readFrom?_mark ']' closeArray rfl fun _ => rfl]
    cases readFrom? rest with
    | none => rfl
    | some symbols => exact push?_openArray j items symbols
  | .object [], depth, rest, hr => by
    rw [chars]
    show readFrom? ('{' :: '}' :: rest) = _
    rw [readFrom?_mark '{' openObject rfl fun _ => rfl,
      readFrom?_mark '}' closeObject rfl fun _ => rfl]
    cases readFrom? rest <;> rfl
  | .object ((key, j) :: fields), depth, rest, hr => by
    have hclose := separates_close style depth (c := '}') (by decide) rest
    have hmore := separates_moreFields style (depth + 1) fields hclose
    simp only [chars, List.cons_append, List.append_assoc, List.nil_append]
    rw [readFrom?_mark '{' openObject rfl fun _ => rfl, readFrom?_lineBreak, readFrom?_quote,
      readFrom?_keyMark, readFrom?_chars style j (depth + 1) hmore,
      readFrom?_moreFields style fields (depth + 1) hclose, readFrom?_lineBreak,
      readFrom?_mark '}' closeObject rfl fun _ => rfl]
    cases readFrom? rest with
    | none => rfl
    | some symbols => exact push?_openObject key j fields symbols

theorem readFrom?_moreItems (style : Style) :
    ∀ (items : List Json) (depth : Nat) {rest : List Char}, Separates rest →
      readFrom? (moreItems style depth items ++ rest) = (readFrom? rest).map (ofItems items ++ ·)
  | [], depth, rest, hr => by
    rw [moreItems]
    cases h : readFrom? rest <;> simp [h, ofItems]
  | j :: items, depth, rest, hr => by
    have hmore := separates_moreItems style depth items hr
    simp only [moreItems, List.cons_append, List.append_assoc]
    rw [readFrom?_comma, readFrom?_lineBreak, readFrom?_chars style j depth hmore,
      readFrom?_moreItems style items depth hr]
    simp only [Option.map_map]
    rfl

theorem readFrom?_moreFields (style : Style) :
    ∀ (fields : List (String × Json)) (depth : Nat) {rest : List Char}, Separates rest →
      readFrom? (moreFields style depth fields ++ rest) =
        (readFrom? rest).map (ofFields fields ++ ·)
  | [], depth, rest, hr => by
    rw [moreFields]
    cases h : readFrom? rest <;> simp [h, ofFields]
  | (key, j) :: fields, depth, rest, hr => by
    have hmore := separates_moreFields style depth fields hr
    simp only [moreFields, List.cons_append, List.append_assoc]
    rw [readFrom?_comma, readFrom?_lineBreak, readFrom?_quote, readFrom?_keyMark,
      readFrom?_chars style j depth hmore, readFrom?_moreFields style fields depth hr]
    simp only [Option.map_map]
    rfl

end

end Symbol

/-- What is printed on a line of its own is read back. -/
theorem read?_render (style : Style) (j : Json) : read? (j.render style ++ "\n") = some j := by
  have hread : Symbol.readFrom? (j.chars style 0 ++ ['\n']) = some [Symbol.value j] :=
    Symbol.readFrom?_chars style j 0 (Symbol.separates_cons (c := '\n') (by decide) [])
  have hlist : (j.render style ++ "\n").toList = j.chars style 0 ++ ['\n'] := by
    rw [String.toList_append, render, String.toList_ofList]
    rfl
  rw [read?, hlist, ← Symbol.readFrom?, hread]

end ShapeAssembly.Json
