import ShapeAssembly.Proofs.AddedLine
import ShapeAssembly.Proofs.ClassSpans
import ShapeAssembly.Proofs.Language

namespace ShapeAssembly

def ParseResult.diagnosticsIn (r : ParseResult) (line : Excerpt) : List Diagnostic :=
  r.diagnostics.filter (·.span.Within line.span)

/-- No span lies in two lines of which one is below the other. -/
theorem Span.Within.not_below {s a b : Span} (ha : s.Within a) (hlt : a.stop < b.start) :
    ¬ s.Within b := by
  intro hb
  have hstart := hb.start
  have hstop := ha.ordered.trans ha.stop
  omega

/-- Of the diagnostics of lines, those that lie in one of them are its own. -/
theorem Context.filter_diagnostics {before rest : List Excerpt} {line : Excerpt}
    (h : (before ++ line :: rest).Pairwise fun a b => a.span.stop < b.start) :
    ((after []).diagnostics (before ++ line :: rest)).filter (·.span.Within line.span) =
      (after before).diagnostics [line] := by
  obtain ⟨-, hrest, hbefore⟩ := List.pairwise_append.1 h
  have hlater := (List.pairwise_cons.1 hrest).1
  rw [diagnostics_append [] h, List.nil_append, List.filter_append,
    ← List.singleton_append (l := rest), diagnostics_append before hrest, List.filter_append,
    List.filter_eq_nil_iff.2, List.filter_eq_self.2, List.filter_eq_nil_iff.2, List.nil_append,
    List.append_nil]
  · intro d hd
    obtain ⟨l, hl, hin⟩ := exists_of_mem_diagnostics hd
    exact fun hline => (of_decide_eq_true hline).not_below (hlater l hl) hin
  · intro d hd
    obtain ⟨l, hl, hin⟩ := exists_of_mem_diagnostics hd
    rw [List.mem_singleton.1 hl] at hin
    exact decide_eq_true hin
  · intro d hd
    obtain ⟨l, hl, hin⟩ := exists_of_mem_diagnostics hd
    have hbelow := hbefore l hl line List.mem_cons_self
    exact fun hline => hin.not_below hbelow (of_decide_eq_true hline)

/-- In a line of a block lies the diagnostic of its statement, if there is one. -/
theorem Program.diagnosticsIn_body {text : String} {before body rest : List Excerpt}
    {header line : Excerpt} (hlines : (Excerpt.whole text).lines =
      before ++ header :: body ++ line :: rest) (hh : header.isHeader)
    (hb : ∀ l ∈ body, l.isHeader = false) (hl : line.isHeader = false) :
    (parse text).diagnosticsIn line =
      ((line.bodyLine.read (BodyLine.scopeAfter header.headerScope
        (body.map Excerpt.bodyLine))).1.fault?.map Fault.diagnostic).toList := by
  have hbelow := (Excerpt.whole text).pairwise_lines
  have hany : ∃ l ∈ (Excerpt.whole text).lines, l.isHeader :=
    ⟨header, by rw [hlines]; simp, hh⟩
  rw [hlines] at hbelow
  rw [ParseResult.diagnosticsIn, diagnostics_of_header hany, hlines,
    Context.filter_diagnostics hbelow, Context.diagnostics, List.map_singleton, Context.reports,
    Context.reports, Excerpt.ofExcerpt_of_not_isHeader hl, Context.faults, List.flatten_singleton,
    Context.scope?_after hh hb, Fault.inOrder_toList, Option.toList_map]

/-- The value that a kind assigns to the text of a token. -/
inductive Kind.Assigns : Kind → TokenKind → String → Value → Prop
  | float {text : String} {d : Decimal} {x : Double} (hd : Decimal.read? text.toList = some d)
    (hx : d.toDouble? = some x) : Assigns .float .number text (.float x)
  | bool (b : Bool) : Assigns .bool .ident (boolLiteral b) (.bool b)
  | axis (a : Axis) : Assigns .axis .ident a.literal (.axis a)
  | face (f : Face) : Assigns .face .ident f.literal (.face f)
  | name {kind : Kind} {text : String}
    (hk : kind = .existingVariable ∨ kind = .newVariable ∨ kind = .identifier)
    (hr : isReserved text = false) : Assigns kind .ident text (.name text)

theorem RawArgument.assigns_of_value? {a : RawArgument} {token : TokenKind} {kind : Kind}
    {v : Value} (ha : a.token = some token) (h : a.value? kind = some v) :
    kind.Assigns token a.text.val v := by
  obtain rfl : token = kind.token := Option.some.inj (ha.symm.trans (token_of_value? h))
  have hident : ∀ text, a.ident? = some text → text = a.text.val := fun text ht =>
    (token_of_ident? ht).2.symm
  cases kind with
  | float =>
    have hnumber : a.token = some .number := ha
    rw [value?, if_pos hnumber] at h
    obtain ⟨x, hx, rfl⟩ := Option.map_eq_some_iff.1 h
    obtain ⟨d, hd, hx⟩ := Option.bind_eq_some_iff.1 hx
    exact .float hd hx
  | bool =>
    obtain ⟨b, hb, rfl⟩ := Option.map_eq_some_iff.1 h
    obtain ⟨text, ht, hb⟩ := Option.bind_eq_some_iff.1 hb
    rw [← hident text ht, bool?_eq_some.1 hb]
    exact .bool b
  | axis =>
    obtain ⟨e, he, rfl⟩ := Option.map_eq_some_iff.1 h
    obtain ⟨text, ht, he⟩ := Option.bind_eq_some_iff.1 he
    rw [← hident text ht, Axis.ofLiteral?_eq_some.1 he]
    exact .axis e
  | face =>
    obtain ⟨f, hf, rfl⟩ := Option.map_eq_some_iff.1 h
    obtain ⟨text, ht, hf⟩ := Option.bind_eq_some_iff.1 hf
    rw [← hident text ht, Face.ofLiteral?_eq_some.1 hf]
    exact .face f
  | existingVariable | newVariable | identifier =>
    obtain ⟨text, ht, rfl⟩ := Option.map_eq_some_iff.1 h
    obtain ⟨ht, hr⟩ := Option.filter_eq_some_iff.1 ht
    rw [← hident text ht]
    exact .name (by simp) (by simpa using hr)

def Argument.IsTyped (a : Argument) : Prop :=
  ∃ token, Lexeme.IsAtom token ∧ (⟨token, a.raw.val⟩ : Word).IsSpelled ∧
    a.kind.Assigns token a.raw.val a.value

theorem Argument.IsRead.isTyped {a : Argument} (h : a.IsRead) : a.IsTyped := by
  obtain ⟨token, hatom, hspelled, hvalue⟩ := h
  exact ⟨token, hatom, hspelled, RawArgument.assigns_of_value? rfl hvalue⟩

namespace Statement

/-- A statement with the arguments that a keyword takes, and with its result if one is required. -/
structure IsTyped (schema : Schema) (binding : ResultBinding) (s : Statement) : Prop where
  arity : schema.acceptsArity s.arguments.length
  kinds : schema.signature? s.arguments.length = some (s.arguments.map (·.kind))
  result : binding = .required → s.result ≠ none
  arguments : ∀ a ∈ s.arguments, a.IsTyped

/-- What a line leaves: without arguments it has a fault, and without a fault it is typed. -/
theorem typed_of_parse {source : Excerpt} {scope : Scope} {ts : List Token}
    (hl : ∀ t ∈ ts, t.IsLexed) {s : Statement}
    (hs : (parse source scope ts).1.statement? = some s) :
    ∃ schema binding, Schema.lookup? s.keyword.val = some schema ∧
      schema.usage = .statement binding ∧
      (s.arguments = [] ∧ (∃ f, (parse source scope ts).1.fault? = some f) ∨
        s.arguments ≠ [] ∧ (parse source scope ts).1.fault? = none ∧
          s.IsTyped schema binding) := by
  have h := parse_read source scope ts
  generalize parse source scope ts = r at h hs
  cases h with
  | failed => cases hs
  | @incomplete head call fault hr hf =>
    cases hs
    obtain ⟨-, hk, hb, -⟩ := words_of_readHead hl hr
    exact ⟨head.schema, head.binding, hk, Schema.binding?_eq_some.1 hb, .inl ⟨rfl, fault, rfl⟩⟩
  | @parsed head call args scope' hr ha =>
    cases hs
    obtain ⟨-, hk, hb, -⟩ := words_of_readHead hl hr
    obtain ⟨list, -, hreq, hval, -⟩ := Head.readArguments_eq_ok.1 ha
    have hsound := (sound_of_readArguments hl hr ha (Token.spanOf ts)).1
    obtain ⟨hsig, hg⟩ := Schema.validate_eq_ok.1 hval
    rw [hg.length_eq] at hsig
    have hmem := List.mem_of_find?_eq_some hsig
    refine ⟨head.schema, head.binding, hk, Schema.binding?_eq_some.1 hb,
      .inr ⟨hsound.arguments_ne_nil, rfl, ?_, hsig, fun hbind hnone => hreq ⟨hbind, hnone⟩,
        fun a h => (hsound.read a h).isTyped⟩⟩
    rw [Schema.acceptsArity, List.contains_iff_mem, ← List.length_map (·.kind)]
    exact List.mem_map_of_mem hmem

end Statement

/-- A statement of a section is what one of the lines of its body leaves. -/
theorem Section.IsReadAs.exists_line {s : Section} {d : Definition} (h : s.IsReadAs d)
    {st : Statement} (hst : st ∈ d.statements) :
    ∃ before line rest t ts, s.body = before ++ line :: rest ∧ line.tokens = .ok (t :: ts) ∧
      (Statement.parse line (BodyLine.scopeAfter s.header.headerScope
        (before.map Excerpt.bodyLine)) (t :: ts)).1.statement? = some st := by
  rw [h.statements, outcomes, ← BodyLine.statements_readAll] at hst
  obtain ⟨r, hr, hst⟩ := List.mem_filterMap.1 hst
  obtain ⟨before, b, rest, hbody, rfl⟩ := BodyLine.exists_of_mem_readAll hr
  obtain ⟨lines, more, hlines, rfl, hmore⟩ := List.map_eq_append_iff.1 hbody
  obtain ⟨line, after, rfl, rfl, -⟩ := List.map_eq_cons_iff.1 hmore
  cases ht : line.tokens with
  | error string => rw [Excerpt.bodyLine_of_error ht] at hst; cases hst
  | ok ts =>
    cases ts with
    | nil => rw [Excerpt.bodyLine_of_nil ht] at hst; cases hst
    | cons t ts =>
      rw [Excerpt.bodyLine_of_cons ht] at hst
      exact ⟨lines, line, after, t, ts, hlines, ht, hst⟩

namespace Program

/-- Every definition has no parameters or four that are usable, and every statement has a keyword
that may start one. If it has no arguments, its line has one diagnostic; if it has any, its line has
none, and they are as many and of the kinds that the keyword takes, each with the value that its
kind assigns to its text. -/
theorem typed_parse (text : String) :
    let lines := (Excerpt.whole text).lines
    let result := parse text
    ∀ d ∈ result.program.definitions,
      (d.parameters = [] ∨ d.parameters.length = 4) ∧ (∀ p ∈ d.parameters, IsUsable p.val) ∧
      ∀ s ∈ d.statements, ∃ schema binding, Schema.lookup? s.keyword.val = some schema ∧
        schema ≠ .define ∧ schema.usage = .statement binding ∧
        ∃ line ∈ lines, s.StandsIn line ∧
          (s.arguments = [] ∧ (∃ diagnostic, result.diagnosticsIn line = [diagnostic]) ∨
            s.arguments ≠ [] ∧ result.diagnosticsIn line = [] ∧ s.IsTyped schema binding) := by
  intro lines result d hd
  have hprint := (printable_parse text).definitions d hd
  refine ⟨hprint.length, hprint.parameters, fun st hst => ?_⟩
  obtain ⟨loose, sections, hdiv⟩ := Section.exists_divides lines
  rcases (isReadFrom_parse hdiv).exists_of_mem hd with ⟨-, -, hnone⟩ | ⟨s, hs, hread⟩
  · rw [hnone] at hst
    cases hst
  obtain ⟨before, line, rest, t, ts, hbody, ht, hparse⟩ := hread.exists_line hst
  obtain ⟨earlier, later, rfl⟩ := List.append_of_mem hs
  have hlines : lines = (loose ++ earlier.flatMap Section.lines) ++ s.header :: before ++
      line :: (rest ++ later.flatMap Section.lines) := by
    rw [hdiv.lines]
    simp [Section.lines, hbody]
  have hno := hdiv.body s hs
  rw [hbody, List.forall_mem_append] at hno
  have hdiags := diagnosticsIn_body hlines (hdiv.header s hs) hno.1 (hno.2 line List.mem_cons_self)
  rw [Excerpt.bodyLine_of_cons ht, BodyLine.read] at hdiags
  dsimp only at hdiags
  obtain ⟨schema, binding, hk, hb, htyped⟩ :=
    Statement.typed_of_parse (fun t hmem => Excerpt.isLexed_of_mem ht hmem) hparse
  refine ⟨schema, binding, hk, ?_, hb, line, by rw [hlines]; simp,
    ⟨t, ts, ht, Statement.sublist_names hparse, Statement.span_of_parse hparse⟩, ?_⟩
  · rintro rfl
    cases hb
  · rcases htyped with ⟨hargs, f, hf⟩ | ⟨hargs, hf, htyped⟩
    · exact .inl ⟨hargs, f.diagnostic, by rw [hdiags, hf]; rfl⟩
    · exact .inr ⟨hargs, by rw [hdiags, hf]; rfl, htyped⟩

end Program

end ShapeAssembly
