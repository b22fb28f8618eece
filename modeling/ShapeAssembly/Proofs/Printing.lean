import ShapeAssembly.Program.Printer
import ShapeAssembly.Proofs.Printable

namespace ShapeAssembly

namespace Lexeme

theorem words?_scan_indentation (level : Nat) (cs : List Char) :
    words? (scan (indentation level ++ cs)) = words? (scan cs) := by
  rw [indentation]
  induction 4 * level with
  | zero => rfl
  | succ n ih => rw [List.replicate_succ, List.cons_append, words?_scan_blank, ih]

theorem stops_mark {c : Char} {k : TokenKind} (h : punctuation? c = some k)
    (cs : List Char) : Stops (c :: cs) := by
  intro d hd
  obtain rfl : c = d := by simpa using hd
  rcases punctuation_cases h with ⟨rfl, -⟩ | ⟨rfl, -⟩ | ⟨rfl, -⟩ | ⟨rfl, -⟩ | ⟨rfl, -⟩ <;> decide

theorem stops_blank (cs : List Char) : Stops (' ' :: cs) := by
  intro d hd
  obtain rfl : ' ' = d := by simpa using hd
  decide

theorem words?_scan_items {ws : List Word} (hw : ∀ w ∈ ws, IsAtom w.kind ∧ w.IsSpelled)
    (cs : List Char) :
    words? (scan (commaList (ws.map (·.text.toList)) ++ ')' :: cs)) =
      (words? (scan cs)).map (ws.intersperse .comma ++ .closeParen :: ·) := by
  have hclose : punctuation? ')' = some .closeParen := rfl
  have hcomma : punctuation? ',' = some .comma := rfl
  match ws with
  | [] => exact words?_scan_mark hclose cs
  | [w] =>
    obtain ⟨hk, hs⟩ := hw w List.mem_cons_self
    rw [List.map_singleton, commaList, List.intercalate_singleton,
      words?_scan_atom hk hs (stops_mark hclose cs), words?_scan_mark hclose, Option.map_map]
    rfl
  | w :: v :: ws =>
    obtain ⟨hk, hs⟩ := hw w List.mem_cons_self
    have ih := words?_scan_items (fun u hu => hw u (List.mem_cons_of_mem w hu)) cs
    rw [commaList, List.map_cons] at ih
    rw [List.map_cons, List.map_cons, commaList, List.intercalate_cons_cons, List.append_assoc,
      List.append_assoc, List.cons_append, List.cons_append, List.nil_append,
      words?_scan_atom hk hs (stops_mark hcomma _), words?_scan_mark hcomma, words?_scan_blank, ih,
      Option.map_map, Option.map_map, List.intersperse_cons_cons]
    rfl

theorem words?_scan_list {ws : List Word} (hw : ∀ w ∈ ws, IsAtom w.kind ∧ w.IsSpelled)
    (cs : List Char) :
    words? (scan ('(' :: (commaList (ws.map (·.text.toList)) ++ ')' :: cs))) =
      (words? (scan cs)).map (Word.list ws ++ ·) := by
  rw [words?_scan_mark (k := .openParen) rfl, words?_scan_items hw, Option.map_map]
  congr 1
  funext vs
  rw [Word.list, List.cons_append, List.append_assoc]
  rfl

theorem words?_scan_ident {text : String} (h : IsIdentifier text) {cs : List Char}
    (hs : Stops cs) :
    words? (scan (text.toList ++ cs)) = (words? (scan cs)).map (.ident text :: ·) :=
  words?_scan_atom (w := .ident text) (.inl rfl) h hs

theorem isOne_ident {c : Char} {cs : List Char} (h : isIdentStart c)
    (hs : ∀ d ∈ cs, isIdentRest d) : IsOne .ident (c :: cs) := by
  rw [isOne_cons, munch_ident h, run_eq_length hs]

end Lexeme

theorem IsIdentifier.notMem_newline {text : String} (h : IsIdentifier text) :
    '\n' ∉ text.toList :=
  Lexeme.IsOne.notMem_newline (.inl rfl) h

theorem notMem_indentation (level : Nat) : '\n' ∉ indentation level := by
  intro h
  exact absurd (List.eq_of_mem_replicate h) (by decide)

theorem notMem_commaList {items : List (List Char)} (h : ∀ item ∈ items, '\n' ∉ item) :
    '\n' ∉ commaList items := by
  match items with
  | [] => exact List.not_mem_nil
  | [a] =>
    rw [commaList, List.intercalate_singleton]
    exact h a List.mem_cons_self
  | a :: b :: items =>
    have ih := notMem_commaList fun item hi => h item (List.mem_cons_of_mem a hi)
    rw [commaList] at ih
    rw [commaList, List.intercalate_cons_cons]
    simp [h a List.mem_cons_self, ih]

theorem isAlpha_of_toLower {c : Char} (h : c.toLower.isAlpha) : c.isAlpha := by
  by_cases hc : c.isUpper
  · exact Bool.or_eq_true_iff.2 (.inl hc)
  · have hlower : c.toLower = c := dif_neg fun hu => hc (decide_eq_true hu)
    rwa [hlower] at h

theorem isIdentifier_of_isAlpha {text : String} (hne : text.toList ≠ [])
    (h : ∀ c ∈ text.toList, c.isAlpha) : IsIdentifier text := by
  obtain ⟨c, cs, hc⟩ := List.exists_cons_of_ne_nil hne
  rw [hc] at h
  rw [IsIdentifier, Word.IsSpelled, Word.ident, hc]
  apply Lexeme.isOne_ident
  · simp [Lexeme.isIdentStart, h c List.mem_cons_self]
  · intro d hd
    simp [Lexeme.isIdentRest, Char.isAlphanum, h d (List.mem_cons_of_mem c hd)]

theorem isIdentifier_def : IsIdentifier "def" := by
  have halpha : "def".toList.all Char.isAlpha := by decide
  exact isIdentifier_of_isAlpha (by decide) (List.all_eq_true.1 halpha)

/-- Keywords are identifiers, in whatever case they are written. -/
theorem Schema.isIdentifier_of_lookup {keyword : String} {schema : Schema}
    (h : lookup? keyword = some schema) : IsIdentifier keyword := by
  have hname : ∀ s ∈ registry, s.name.toList ≠ [] ∧ s.name.toList.all (·.toLower.isAlpha) := by
    decide
  obtain ⟨hne, halpha⟩ := hname schema (mem_registry h)
  have hsame := toLower_of_lookup h
  apply isIdentifier_of_isAlpha
  · intro hnil
    rw [hnil] at hsame
    exact hne (List.map_eq_nil_iff.1 hsame)
  · intro c hc
    apply isAlpha_of_toLower
    have hmem : c.toLower ∈ schema.name.toList.map Char.toLower := by
      rw [hsame]
      exact List.mem_map_of_mem hc
    obtain ⟨d, hd, heq⟩ := List.mem_map.1 hmem
    rw [← heq]
    exact List.all_eq_true.1 halpha d hd

namespace Statement

theorem IsReadable.keyword {names : List String} {s : Statement} (h : s.IsReadable names) :
    IsIdentifier s.keyword.val := by
  obtain ⟨schema, binding, hk, -⟩ := h.exists_schema
  exact Schema.isIdentifier_of_lookup hk

theorem IsReadable.result {names : List String} {s : Statement} (h : s.IsReadable names) :
    ∀ r ∈ s.result, IsIdentifier r.val := by
  rcases h with h | h
  · exact fun r hr => (h.result r hr).1.1
  · exact h.result

theorem IsReadable.read {names : List String} {s : Statement} (h : s.IsReadable names) :
    ∀ a ∈ s.arguments, a.IsRead := by
  rcases h with h | h
  · exact h.read
  · simp [h.arguments]

theorem words?_chars {names : List String} {s : Statement} (h : s.IsReadable names)
    (level : Nat) : Lexeme.words? (Lexeme.scan (s.chars level)) = some s.words := by
  have hlist : ∀ w ∈ s.arguments.map Argument.word, Lexeme.IsAtom w.kind ∧ w.IsSpelled := by
    rw [List.forall_mem_map]
    exact fun a ha => ⟨a.kind.isAtom_token, (h.read a ha).isSpelled⟩
  have hargs := Lexeme.words?_scan_list hlist []
  rw [List.map_map] at hargs
  have hcall : Lexeme.words? (Lexeme.scan (s.keyword.val.toList ++
      '(' :: (commaList (s.arguments.map (·.raw.val.toList)) ++ [')']))) =
      some (.ident s.keyword.val :: Word.list (s.arguments.map (·.word))) := by
    rw [Lexeme.words?_scan_ident h.keyword (Lexeme.stops_mark (k := .openParen) rfl _)]
    refine (congrArg (Option.map _) hargs).trans ?_
    rw [Lexeme.words?_scan_nil, Option.map_some, List.append_nil]
    rfl
  rw [chars, words]
  simp only [List.append_assoc, List.cons_append, Lexeme.words?_scan_indentation]
  cases hr : s.result with
  | none => exact hcall
  | some r =>
    simp only [List.append_assoc, List.cons_append, List.nil_append]
    rw [Lexeme.words?_scan_ident (h.result r hr) (Lexeme.stops_blank _),
      Lexeme.words?_scan_blank, Lexeme.words?_scan_mark (k := .eq) rfl, Lexeme.words?_scan_blank,
      hcall]
    rfl

theorem notMem_chars {names : List String} {s : Statement} (h : s.IsReadable names)
    (level : Nat) : '\n' ∉ s.chars level := by
  have hkeyword := h.keyword.notMem_newline
  have hargs : '\n' ∉ commaList (s.arguments.map (·.raw.val.toList)) := by
    apply notMem_commaList
    rw [List.forall_mem_map]
    intro a ha
    exact Lexeme.IsOne.notMem_newline a.kind.isAtom_token (h.read a ha).isSpelled
  rw [chars]
  cases hr : s.result with
  | none => simp [notMem_indentation, hargs, hkeyword]
  | some r =>
    have hres := (h.result r hr).notMem_newline
    simp [notMem_indentation, hargs, hkeyword, hres]

end Statement

namespace Definition

theorem words?_headerChars {d : Definition} (h : d.Printable) (level : Nat) :
    Lexeme.words? (Lexeme.scan (d.headerChars level)) = some d.headerWords := by
  have hlist : ∀ w ∈ d.parameters.map (Word.ident ·.val), Lexeme.IsAtom w.kind ∧ w.IsSpelled := by
    rw [List.forall_mem_map]
    exact fun p hp => ⟨.inl rfl, (h.parameters p hp).1⟩
  have hparams := Lexeme.words?_scan_list hlist [':']
  rw [List.map_map] at hparams
  have hcall : Lexeme.words? (Lexeme.scan
      ('(' :: (commaList (d.parameters.map (·.val.toList)) ++ [')', ':']))) =
      some (Word.list (d.parameters.map (.ident ·.val)) ++ [.colon]) := hparams
  have hdef : ∀ {cs}, Lexeme.Stops cs → Lexeme.words? (Lexeme.scan ('d' :: 'e' :: 'f' :: cs)) =
      (Lexeme.words? (Lexeme.scan cs)).map (.ident "def" :: ·) :=
    Lexeme.words?_scan_ident isIdentifier_def
  rw [headerChars, headerWords, nameText]
  simp only [List.append_assoc, List.cons_append, Lexeme.words?_scan_indentation]
  cases hn : d.name with
  | none =>
    simp only [List.nil_append]
    rw [hdef (Lexeme.stops_mark (k := .openParen) rfl _), hcall]
    rfl
  | some n =>
    simp only [List.nil_append, List.cons_append]
    rw [hdef (Lexeme.stops_blank _), Lexeme.words?_scan_blank,
      Lexeme.words?_scan_ident (h.name n hn) (Lexeme.stops_mark (k := .openParen) rfl _), hcall]
    rfl

theorem notMem_headerChars {d : Definition} (h : d.Printable) (level : Nat) :
    '\n' ∉ d.headerChars level := by
  have hparams : '\n' ∉ commaList (d.parameters.map (·.val.toList)) := by
    apply notMem_commaList
    rw [List.forall_mem_map]
    intro p hp
    exact (h.parameters p hp).1.notMem_newline
  rw [headerChars]
  cases hn : d.name with
  | none => simp [notMem_indentation, hparams]
  | some n =>
    have hname := (h.name n hn).notMem_newline
    simp [notMem_indentation, hparams, hname]

theorem content_statements {names : List String} {ss : List Statement}
    (h : Statement.AllReadable names ss) (level start : Nat) (rest : List Char) :
    Excerpt.content ⟨start, (ss.flatMap fun s => s.chars level ++ ['\n']) ++ rest⟩ =
      ss.map (some ·.words) ++ Excerpt.content ⟨start, rest⟩ := by
  induction ss generalizing names with
  | nil => rfl
  | cons s ss ih =>
    have hne : s.words ≠ [] := by
      rw [Statement.words]
      exact List.append_ne_nil_of_right_ne_nil _ (List.cons_ne_nil _ _)
    rw [List.flatMap_cons, List.append_assoc, List.append_assoc, List.singleton_append,
      Excerpt.content_cons (Statement.notMem_chars h.1 level)
        (Statement.words?_chars h.1 level) hne, ih h.2, List.map_cons, List.cons_append]

/-- The lines of a printed definition. -/
theorem content_chars {d : Definition} (h : d.Printable) (level start : Nat) (rest : List Char) :
    Excerpt.content ⟨start, d.chars level ++ rest⟩ =
      d.wordLines.map some ++ Excerpt.content ⟨start, rest⟩ := by
  rw [chars, List.append_assoc, List.cons_append,
    Excerpt.content_cons (notMem_headerChars h level) (words?_headerChars h level)
      (List.cons_ne_nil _ _),
    content_statements h.body, wordLines, List.map_cons, List.map_map, List.cons_append]
  rfl

end Definition

namespace Program

theorem content_definitions {ds : List Definition} (h : ∀ d ∈ ds, d.Printable)
    (level start : Nat) :
    Excerpt.content ⟨start, ['\n'].intercalate (ds.map (·.chars level))⟩ =
      (ds.flatMap (·.wordLines)).map some := by
  match ds with
  | [] => rfl
  | [d] =>
    have hd := Definition.content_chars (h d List.mem_cons_self) level start []
    rw [Excerpt.content_nil, List.append_nil, List.append_nil] at hd
    rw [List.map_singleton, List.intercalate_singleton, hd, List.flatMap_singleton]
  | d :: e :: ds =>
    have ih := content_definitions (fun d hd => h d (List.mem_cons_of_mem _ hd)) level start
    rw [List.map_cons] at ih
    rw [List.map_cons, List.map_cons, List.intercalate_cons_cons, List.append_assoc,
      Definition.content_chars (h d List.mem_cons_self), List.singleton_append,
      Excerpt.content_blank, ih, ← List.map_append, ← List.flatMap_cons]

/-- The lines of a printed program. -/
theorem content_render {p : Program} (h : p.Printable) (level : Nat) :
    (Excerpt.whole (p.render level)).content = p.wordLines.map some := by
  rw [Excerpt.whole, render, String.toList_ofList]
  exact content_definitions h.definitions level 0

end Program

end ShapeAssembly
