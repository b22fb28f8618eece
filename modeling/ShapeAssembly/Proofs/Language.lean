import ShapeAssembly.Proofs.Programs

namespace ShapeAssembly

/-- The words that an argument position takes where these names are in scope. -/
def Kind.Takes (names : List String) (w : Word) : Kind → Prop
  | .float => w.kind = .number ∧
      ∃ x, (Decimal.read? w.text.toList).bind Decimal.toDouble? = some x
  | .bool => w.kind = .ident ∧ ∃ b, w.text = boolLiteral b
  | .axis => w.kind = .ident ∧ ∃ a : Axis, w.text = a.literal
  | .face => w.kind = .ident ∧ ∃ f : Face, w.text = f.literal
  | .existingVariable => w.kind = .ident ∧ isReserved w.text = false ∧ w.text ∈ names
  | .newVariable => w.kind = .ident ∧ isReserved w.text = false ∧ w.text ∉ names
  | .identifier => w.kind = .ident ∧ isReserved w.text = false

/-- The line `result = keyword(arguments)`, or without the result a plain call, where these names
are in scope. -/
inductive StatementLine (names : List String) : Option String → List Word → Prop
  | mk {result : Option String} {keyword : String} {schema : Schema} {binding : ResultBinding}
    {signature : Signature} {args : List Word} (hk : Schema.lookup? keyword = some schema)
    (hb : schema.usage = .statement binding) (hreq : binding = .required → result ≠ none)
    (hres : ∀ r ∈ result, isReserved r = false ∧ r ∉ names) (hs : signature ∈ schema.signatures)
    (ha : List.Forall₂ (Kind.Takes names) args signature) :
    StatementLine names result
      (Statement.targetWords result ++ .ident keyword :: Word.list args)

/-- The line `def name(parameters):`, in which the colon is optional. -/
inductive HeaderLine : Option String → List String → List Word → Prop
  | mk {define : String} {name : Option String} {params : List String} {colon : List Word}
    (hd : sameLetters define "def") (hn : ∀ n ∈ name, isReserved n = false)
    (hl : params = [] ∨ params.length = 4) (hp : ∀ p ∈ params, isReserved p = false)
    (hnd : params.Nodup) (hc : colon = [] ∨ colon = [.colon]) :
    HeaderLine name params
      (.ident define :: (name.toList.map .ident ++ (Word.list (params.map .ident) ++ colon)))

/-- Lines below a header, where these are the names of the headers so far and those in scope. -/
inductive LaterLines : List String → List String → List (List Word) → Prop
  | nil {earlier names : List String} : LaterLines earlier names []
  | statement {earlier names : List String} {result : Option String} {ws : List Word}
    {ls : List (List Word)} (h : StatementLine names result ws)
    (hls : LaterLines earlier (names ++ result.toList) ls) : LaterLines earlier names (ws :: ls)
  | header {earlier names params : List String} {name : String} {ws : List Word}
    {ls : List (List Word)} (h : HeaderLine (some name) params ws) (hfresh : name ∉ earlier)
    (hls : LaterLines (name :: earlier) params ls) : LaterLines earlier names (ws :: ls)

/-- The lines of a program. Only the first header may go without a name. -/
inductive ProgramLines : List (List Word) → Prop
  | mk {name : Option String} {params : List String} {ws : List Word} {ls : List (List Word)}
    (h : HeaderLine name params ws) (hls : LaterLines name.toList params ls) :
    ProgramLines (ws :: ls)

theorem eq_literal_of_find? {α : Type} {all : List α} {literal : α → String} {text : String} {a : α}
    (h : all.find? (literal · = text) = some a) : text = literal a := by
  have hfound := List.find?_some h
  exact (of_decide_eq_true hfound).symm

theorem bool?_eq_some {text : String} {b : Bool} : bool? text = some b ↔ text = boolLiteral b := by
  constructor
  · exact eq_literal_of_find?
  · rintro rfl
    cases b <;> decide

theorem Axis.ofLiteral?_eq_some {text : String} {a : Axis} :
    ofLiteral? text = some a ↔ text = a.literal := by
  constructor
  · exact eq_literal_of_find?
  · rintro rfl
    exact ofLiteral_literal a

theorem Face.ofLiteral?_eq_some {text : String} {f : Face} :
    ofLiteral? text = some f ↔ text = f.literal := by
  constructor
  · exact eq_literal_of_find?
  · rintro rfl
    exact ofLiteral_literal f

/-- A kind takes the words that it gives a value to, if their names are in scope or fresh as it
asks. -/
theorem Kind.takes_iff {names : List String} {a : RawArgument} {token : TokenKind}
    (ha : a.token = some token) (kind : Kind) :
    kind.Takes names ⟨token, a.text.val⟩ ↔ (∃ v, a.value? kind = some v) ∧
      (kind = .existingVariable → a.text.val ∈ names) ∧
      (kind = .newVariable → a.text.val ∉ names) := by
  have hident : ∀ text, a.ident? = some text ↔ token = .ident ∧ a.text.val = text := by
    intro text
    simp [RawArgument.ident?, ha]
  have hmap : ∀ {α : Type} (o : Option α) (g : α → Value),
      (∃ v, o.map g = some v) ↔ ∃ x, o = some x := by
    intro α o g
    cases o <;> simp
  have hliteral : ∀ {α : Type} (f : String → Option α),
      (∃ x, a.ident?.bind f = some x) ↔ token = .ident ∧ ∃ x, f a.text.val = some x := by
    intro α f
    simp only [Option.bind_eq_some_iff, hident]
    constructor
    · rintro ⟨x, text, ⟨ht, rfl⟩, hx⟩
      exact ⟨ht, x, hx⟩
    · rintro ⟨ht, x, hx⟩
      exact ⟨x, _, ⟨ht, rfl⟩, hx⟩
  cases kind with
  | float =>
    simp only [Takes, RawArgument.value?, ha, Option.some.injEq]
    by_cases ht : token = .number
    · simp only [ht, if_true, hmap]
      simp
    · simp [ht]
  | bool =>
    simp only [Takes, RawArgument.value?, hmap, hliteral, bool?_eq_some]
    simp
  | axis =>
    simp only [Takes, RawArgument.value?, hmap, hliteral, Axis.ofLiteral?_eq_some]
    simp
  | face =>
    simp only [Takes, RawArgument.value?, hmap, hliteral, Face.ofLiteral?_eq_some]
    simp
  | existingVariable | newVariable | identifier =>
    simp [Takes, RawArgument.value?, RawArgument.usable?, hident, and_assoc]

theorem Schema.binding?_eq_some {schema : Schema} {binding : ResultBinding} :
    schema.binding? = some binding ↔ schema.usage = .statement binding := by
  rw [binding?]
  cases schema.usage <;> simp

namespace Statement

theorem IsSound.takes {names : List String} {s : Statement} (h : s.IsSound names) :
    ∀ a ∈ s.arguments, a.kind.Takes names a.word := by
  obtain ⟨schema, binding, hk, hb, -, hsig⟩ := h.schema
  have hnew := (Schema.signature_of_lookup hk hb hsig).2
  intro a ha
  refine (Kind.takes_iff (a := ⟨a.raw, some a.kind.token⟩) rfl a.kind).2
    ⟨⟨_, (h.read a ha).value?⟩, h.bound a ha, fun hkind => absurd ?_ hnew⟩
  rw [← hkind]
  exact List.mem_map_of_mem (f := (·.kind)) ha

/-- A complete statement is a line of the language. -/
theorem IsSound.statementLine {names : List String} {s : Statement} (h : s.IsSound names) :
    StatementLine names (s.result.map (·.val)) s.words := by
  obtain ⟨schema, binding, hk, hb, hreq, hsig⟩ := h.schema
  refine .mk hk (Schema.binding?_eq_some.1 hb) (fun hbind hnone => ?_) (fun r hr => ?_) hsig ?_
  · exact hreq hbind (Option.map_eq_none_iff.1 hnone)
  · obtain ⟨r', hr', rfl⟩ := Option.map_eq_some_iff.1 hr
    obtain ⟨husable, hfresh⟩ := h.result r' hr'
    exact ⟨husable.2, hfresh⟩
  · rw [List.forall₂_map_left_iff, List.forall₂_map_right_iff, List.forall₂_same]
    exact h.takes

end Statement

def Word.AllSpelled (ws : List Word) : Prop := ∀ w ∈ ws, Lexeme.IsAtom w.kind → w.IsSpelled

theorem exists_arguments {names : List String} {args : List Word} {signature : Signature}
    (h : List.Forall₂ (Kind.Takes names) args signature) (hl : Word.AllSpelled args) :
    ∃ xs : List Argument, xs.map Argument.word = args ∧ xs.map (·.kind) = signature ∧
      ∀ a ∈ xs, a.IsRead ∧ (a.kind = .existingVariable → a.raw.val ∈ names) := by
  induction h with
  | nil => exact ⟨[], rfl, rfl, by simp⟩
  | @cons w kind args signature hw _ ih =>
    obtain ⟨hspelled, hrest⟩ := List.forall_mem_cons.1 hl
    obtain ⟨xs, hwords, hkinds, hxs⟩ := ih hrest
    obtain ⟨⟨v, hv⟩, hbound, -⟩ :=
      (Kind.takes_iff (a := ⟨⟨w.text, default⟩, some w.kind⟩) rfl kind).1 hw
    have htoken : w.kind = kind.token := Option.some.inj (RawArgument.token_of_value? hv)
    have hatom : Lexeme.IsAtom w.kind := by
      rw [htoken]
      exact kind.isAtom_token
    refine ⟨⟨⟨w.text, default⟩, kind, v⟩ :: xs, ?_, ?_, ?_⟩
    · rw [List.map_cons, hwords, Argument.word, ← htoken]
    · rw [List.map_cons, hkinds]
    · exact List.forall_mem_cons.2 ⟨⟨⟨w.kind, hatom, hspelled hatom, hv⟩, hbound⟩, hxs⟩

/-- A statement line of the language is that of a complete statement. -/
theorem StatementLine.exists_isSound {names : List String} {result : Option String}
    {ws : List Word} (h : StatementLine names result ws) (hl : Word.AllSpelled ws) :
    ∃ s : Statement, s.IsSound names ∧ s.words = ws ∧ s.result.map (·.val) = result := by
  cases h with
  | @mk keyword schema binding signature args hk hb hreq hres hs ha =>
    have hargs : Word.AllSpelled args := fun w hw =>
      hl w (List.mem_append_right _ (List.mem_cons_of_mem _ (Word.mem_list hw)))
    have hident : ∀ r ∈ result, IsIdentifier r := by
      rintro r rfl
      exact hl (.ident r) (by simp [Statement.targetWords]) (.inl rfl)
    obtain ⟨xs, hwords, hkinds, hxs⟩ := exists_arguments ha hargs
    have hval : (result.map fun r => (⟨r, default⟩ : Name)).map (·.val) = result := by
      cases result <;> rfl
    refine ⟨⟨⟨keyword, default⟩, result.map fun r => ⟨r, default⟩, xs, default⟩, ?_, ?_, hval⟩
    · refine ⟨⟨schema, binding, hk, Schema.binding?_eq_some.2 hb, fun hbind hnone => ?_, ?_⟩,
        fun a ha => (hxs a ha).1, fun a ha => (hxs a ha).2, fun r hr => ?_⟩
      · exact hreq hbind (Option.map_eq_none_iff.1 hnone)
      · rw [hkinds]
        exact hs
      · obtain ⟨r', hr', rfl⟩ := Option.map_eq_some_iff.1 hr
        obtain ⟨hreserved, hfresh⟩ := hres r' hr'
        exact ⟨⟨hident r' hr', hreserved⟩, hfresh⟩
    · rw [Statement.words, hval, hwords]

/-- A line with the words of a sound header is a header of the language. -/
theorem Definition.WellFormed.headerLine {d : Definition} (h : d.WellFormed) {ws : List Word}
    (hc : Word.canonical ws = d.headerWords) :
    HeaderLine d.nameText (d.parameters.map (·.val)) ws := by
  have hhead : Word.isHeader ws := by
    rw [← Word.isHeader_canonical, hc]
    exact d.isHeader_headerWords
  rw [Word.canonical_of_isHeader hhead, headerWords, ← List.append_assoc] at hc
  -- the colon is either written or added
  have htail := Word.withColon_eq (List.cons.inj hc).2
  obtain ⟨define, rest, rfl, hdef⟩ := Word.exists_of_isHeader hhead
  have hcolon : ∃ colon, (colon = [] ∨ colon = [Word.colon]) ∧
      rest = d.nameText.toList.map .ident ++
        (Word.list ((d.parameters.map (·.val)).map .ident) ++ colon) := by
    rw [List.map_map]
    rcases htail with htail | htail
    · exact ⟨[], .inl rfl, by rw [List.append_nil]; exact htail⟩
    · exact ⟨[.colon], .inr rfl, by rw [← List.append_assoc]; exact htail⟩
  obtain ⟨colon, hc, hrest⟩ := hcolon
  rw [hrest]
  refine .mk hdef (fun n hn => ?_) ?_ ?_ h.distinct hc
  · obtain ⟨m, hm, rfl⟩ := Option.map_eq_some_iff.1 hn
    exact (h.name m hm).2
  · exact h.length.imp (fun hnil => by rw [hnil]; rfl) fun hlen => by rw [List.length_map, hlen]
  · exact List.forall_mem_map.2 fun p hp => (h.parameters p hp).2

/-- A header of the language is that of a definition. -/
theorem HeaderLine.exists_wellFormed {name : Option String} {params : List String}
    {ws : List Word} (h : HeaderLine name params ws) (hl : Word.AllSpelled ws) :
    ∃ d : Definition, d.WellFormed ∧ d.nameText = name ∧ d.parameters.map (·.val) = params ∧
      Word.canonical ws = d.headerWords := by
  cases h with
  | @mk define name params colon hd hn hlen hp hnd hc =>
    have hname : ∀ n ∈ name, IsIdentifier n := by
      rintro n rfl
      exact hl (.ident n) (by simp) (.inl rfl)
    have hparam : ∀ p ∈ params, IsIdentifier p := by
      intro p hmem
      refine hl (.ident p) (List.mem_cons_of_mem _ (List.mem_append_right _
        (List.mem_append_left _ (Word.mem_list ?_)))) (.inl rfl)
      exact List.mem_map_of_mem hmem
    have hval : (name.map fun n => (⟨n, default⟩ : Name)).map (·.val) = name := by
      cases name <;> rfl
    have hvals : (params.map fun p => (⟨p, default⟩ : Name)).map (·.val) = params := by
      rw [List.map_map]
      exact List.map_id params
    refine ⟨⟨name.map fun n => ⟨n, default⟩, params.map fun p => ⟨p, default⟩, [], default⟩,
      ⟨fun n hmem => ?_, List.forall_mem_map.2 fun p hmem => ⟨hparam p hmem, hp p hmem⟩, ?_, ?_,
        trivial⟩, hval, hvals, ?_⟩
    · obtain ⟨m, hm, rfl⟩ := Option.map_eq_some_iff.1 hmem
      exact ⟨hname m hm, hn m hm⟩
    · exact hlen.imp (fun hnil => by rw [hnil]; rfl) fun hlen => by rw [List.length_map, hlen]
    · rw [hvals]
      exact hnd
    · have hhead : Word.isHeader (.ident define ::
          (name.toList.map .ident ++ (Word.list (params.map .ident) ++ colon))) := by
        cases name <;> simp [Word.isHeader, Word.ident, Word.list, Word.openParen, hd]
      have hparams : (params.map fun p => (⟨p, default⟩ : Name)).map (Word.ident ·.val) =
          params.map .ident := by
        rw [List.map_map]
        rfl
      rw [Word.canonical_of_isHeader hhead, List.tail_cons, Definition.headerWords,
        Definition.nameText, hval, hparams]
      rcases hc with rfl | rfl
      · rw [List.append_nil, Word.withColon_list]
      · rw [← List.append_assoc, Word.withColon_append, List.append_assoc]

/-- Lines that spell statements and then definitions are lines of the language. -/
theorem laterLines_of_wellFormed {earlier names : List String} {ls : List (List Word)}
    {ss : List Statement} {ds : List Definition} (hs : Statement.AllSound names ss)
    (hd : ∀ d ∈ ds, d.WellFormed) (hn : Definition.AllNamed earlier ds)
    (hc : ls.map Word.canonical = ss.map (·.words) ++ ds.flatMap (·.wordLines)) :
    LaterLines earlier names ls := by
  induction ls generalizing earlier names ss ds with
  | nil => exact .nil
  | cons ws ls ih =>
    match ss, ds with
    | [], [] => cases hc
    | [], d :: ds =>
      obtain ⟨hheader, hrest⟩ := List.cons.inj hc
      obtain ⟨hwf, hwfs⟩ := List.forall_mem_cons.1 hd
      obtain ⟨n, hname, -, hfresh, hnamed⟩ := hn
      have hline := hwf.headerLine hheader
      rw [hname] at hline
      exact .header hline hfresh (ih hwf.body hwfs hnamed hrest)
    | s :: ss, ds =>
      obtain ⟨hword, hrest⟩ := List.cons.inj hc
      -- only headers are rewritten, and no statement looks like one
      have hno : Word.isHeader ws = false := by
        rw [← Word.isHeader_canonical, hword]
        exact Statement.IsReadable.isHeader_words (.inl hs.1)
      rw [Word.canonical_of_not_isHeader hno] at hword
      rw [hword]
      exact .statement hs.1.statementLine (ih hs.2 hd hn hrest)

/-- Lines of the language spell statements and then definitions. -/
theorem LaterLines.exists_wellFormed {earlier names : List String} {ls : List (List Word)}
    (h : LaterLines earlier names ls) (hl : ∀ ws ∈ ls, Word.AllSpelled ws) :
    ∃ (ss : List Statement) (ds : List Definition), Statement.AllSound names ss ∧
      (∀ d ∈ ds, d.WellFormed) ∧ Definition.AllNamed earlier ds ∧
      ls.map Word.canonical = ss.map (·.words) ++ ds.flatMap (·.wordLines) := by
  induction h with
  | nil => exact ⟨[], [], trivial, by simp, trivial, rfl⟩
  | statement h _ ih =>
    obtain ⟨hws, hrest⟩ := List.forall_mem_cons.1 hl
    obtain ⟨ss, ds, hs, hd, hn, hc⟩ := ih hrest
    obtain ⟨s, hsound, hwords, hres⟩ := h.exists_isSound hws
    rw [← hres] at hs
    refine ⟨s :: ss, ds, ⟨hsound, hs⟩, hd, hn, ?_⟩
    have hno := Statement.IsReadable.isHeader_words (.inl hsound)
    rw [hwords] at hno
    rw [List.map_cons, Word.canonical_of_not_isHeader hno, hc, List.map_cons, hwords]
    rfl
  | header h hfresh _ ih =>
    obtain ⟨hws, hrest⟩ := List.forall_mem_cons.1 hl
    obtain ⟨ss, ds, hs, hd, hn, hc⟩ := ih hrest
    obtain ⟨d, hwf, hname, rfl, hheader⟩ := h.exists_wellFormed hws
    obtain ⟨n, hn', rfl⟩ := Option.map_eq_some_iff.1 hname
    refine ⟨[], d.withStatements ss :: ds, trivial,
      List.forall_mem_cons.2 ⟨hwf.withStatements hs, hd⟩,
      ⟨n.val, hname, (hwf.name n hn').2, hfresh, hn⟩, ?_⟩
    rw [List.map_cons, hheader, hc]
    rfl

theorem ProgramLines.exists_wellFormed {ls : List (List Word)} (h : ProgramLines ls)
    (hl : ∀ ws ∈ ls, Word.AllSpelled ws) :
    ∃ p : Program, p.WellFormed ∧ ls.map Word.canonical = p.wordLines := by
  cases h with
  | mk h hls =>
    obtain ⟨hws, hrest⟩ := List.forall_mem_cons.1 hl
    obtain ⟨ss, ds, hs, hd, hn, hc⟩ := hls.exists_wellFormed hrest
    obtain ⟨d, hwf, rfl, rfl, hheader⟩ := h.exists_wellFormed hws
    have hall : ∀ e ∈ d.withStatements ss :: ds, e.WellFormed :=
      List.forall_mem_cons.2 ⟨hwf.withStatements hs, hd⟩
    have hprint : (Program.mk (d.withStatements ss) ds).Printable :=
      ⟨fun e he => (hall e he).printable, hn⟩
    refine ⟨⟨d.withStatements ss, ds⟩, hprint.wellFormed hall, ?_⟩
    rw [List.map_cons, hheader, hc]
    rfl

theorem Program.WellFormed.programLines {p : Program} (h : p.WellFormed) {ls : List (List Word)}
    (hc : ls.map Word.canonical = p.wordLines) : ProgramLines ls := by
  obtain ⟨hentry, hrest⟩ := List.forall_mem_cons.1 h.definitions
  match ls with
  | [] => cases hc
  | ws :: ls =>
    obtain ⟨hheader, hlater⟩ := List.cons.inj hc
    exact .mk (hentry.headerLine hheader)
      (laterLines_of_wellFormed hentry.body hrest h.printable.named hlater)

/-- The words of a text are lexemes by themselves. -/
theorem Excerpt.allSpelled_of_content {e : Excerpt} {ls : List (List Word)}
    (h : e.content = ls.map some) : ∀ ws ∈ ls, Word.AllSpelled ws := by
  intro ws hws w hw hk
  have hmem : some ws ∈ e.content := by
    rw [h]
    exact List.mem_map_of_mem hws
  obtain ⟨line, -, hline⟩ := List.mem_map.1 (List.mem_of_mem_filter hmem)
  obtain ⟨ts, hts, rfl⟩ := Option.map_eq_some_iff.1 hline
  obtain ⟨t, ht, rfl⟩ := List.mem_map.1 hw
  cases htokens : line.tokens with
  | error string =>
    rw [htokens] at hts
    cases hts
  | ok ts' =>
    rw [htokens] at hts
    obtain rfl := Option.some.inj hts
    exact Excerpt.isLexed_of_mem htokens ht (.inl hk)

/-- A text has no diagnostic exactly if each of its lines lexes and those with content are the lines
of a program. -/
theorem Program.diagnostics_eq_nil_iff (text : String) : (parse text).diagnostics = [] ↔
    ∃ ls : List (List Word), (Excerpt.whole text).content = ls.map some ∧ ProgramLines ls := by
  constructor
  · intro h
    obtain ⟨hwf, ls, hw, hc⟩ := isTextOf_parse h
    exact ⟨ls, hw, hwf.programLines hc⟩
  · rintro ⟨ls, hw, hls⟩
    obtain ⟨p, hwf, hc⟩ := hls.exists_wellFormed (Excerpt.allSpelled_of_content hw)
    exact (parse_of_isTextOf ⟨ls, hw, hc⟩ hwf.printable).2 hwf

end ShapeAssembly
