import ShapeAssembly.Proofs.Typing

namespace ShapeAssembly

namespace Schema

variable {keyword : String} {schema : Schema}

/-- Keywords differ in more than the case of their letters. -/
theorem eq_of_sameLetters : ∀ a ∈ registry, ∀ b ∈ registry, sameLetters a.name b.name → a = b := by
  decide

theorem lookup?_eq_none :
    lookup? keyword = none ↔ ∀ schema ∈ registry, ¬ sameLetters schema.name keyword :=
  List.find?_eq_none

theorem lookup?_eq_some :
    lookup? keyword = some schema ↔ schema ∈ registry ∧ sameLetters schema.name keyword := by
  constructor
  · exact fun h => ⟨mem_registry h, decide_eq_true (toLower_of_lookup h)⟩
  · rintro ⟨hmem, hletters⟩
    obtain ⟨found, hfound⟩ := Option.ne_none_iff_exists'.1 fun hnone =>
      lookup?_eq_none.1 hnone schema hmem hletters
    have hsame : sameLetters found.name schema.name :=
      decide_eq_true ((toLower_of_lookup hfound).trans (of_decide_eq_true hletters).symm)
    rwa [← eq_of_sameLetters found (mem_registry hfound) schema hmem hsame]

/-- Only one keyword may not start a statement. -/
theorem usage_eq_header : ∀ schema ∈ registry, schema.usage = .header ↔ schema = define := by
  decide

end Schema

/-- A token and the argument it is read as where these names are in scope. -/
structure Token.ReadsAs (names : List String) (t : Token) (a : Argument) : Prop where
  raw : a.raw = t.name
  value : a.kind.Assigns t.kind t.text a.value
  bound : a.kind = .existingVariable → t.text ∈ names
  fresh : a.kind = .newVariable → t.text ∉ names

namespace RawArgument

theorem value?_of_assigns {a : RawArgument} {token : TokenKind} {kind : Kind} {v : Value}
    (ha : a.token = some token) (h : kind.Assigns token a.text.val v) :
    a.value? kind = some v := by
  generalize htext : a.text.val = text at h
  cases h with
  | float hd hx => simp [value?, ha, htext, hd, hx]
  | bool | axis | face =>
    simp [value?, ident?, ha, htext, bool?_eq_some, Axis.ofLiteral?_eq_some,
      Face.ofLiteral?_eq_some]
  | name hk hr =>
    rcases hk with rfl | rfl | rfl <;> simp [value?, usable?, ident?, ha, htext, hr]

theorem gives_iff {scope : Scope} {t : Token} {y : Argument} :
    Gives scope t.argument y ↔ t.ReadsAs scope.names y := by
  constructor
  · rintro ⟨hraw, hvalue, hcause⟩
    obtain ⟨hbound, hfresh⟩ := scopeCause?_eq_none.1 hcause
    exact ⟨hraw, assigns_of_value? rfl hvalue, hbound, hfresh⟩
  · rintro ⟨hraw, hvalue, hbound, hfresh⟩
    exact ⟨hraw, value?_of_assigns rfl hvalue, scopeCause?_eq_none.2 ⟨hbound, hfresh⟩⟩

end RawArgument

theorem Token.ReadsAs.kind_eq {names : List String} {t : Token} {a : Argument}
    (h : t.ReadsAs names a) : t.kind = a.kind.token :=
  Option.some.inj (RawArgument.token_of_value?
    (RawArgument.value?_of_assigns (a := t.argument) rfl h.value))

theorem Token.ReadsAs.isAtom {names : List String} {t : Token} {a : Argument}
    (h : t.ReadsAs names a) : Lexeme.IsAtom t.kind := by
  rw [h.kind_eq]
  exact a.kind.isAtom_token

namespace Statement

/-- Tokens of which a keyword is the first, or the first after a name and an equals sign. -/
inductive Headed : List Token → Option Name → Token → List Token → Prop
  | plain {k : Token} {call : List Token} (h : ∀ next ∈ call.head?, next.kind ≠ .eq) :
    Headed (k :: call) none k call
  | assigned {r eq k : Token} {call : List Token} (hr : r.kind = .ident) (he : eq.kind = .eq) :
    Headed (r :: eq :: k :: call) (some r.name) k call

/-- Tokens that start as a statement with a known keyword does. -/
structure Begins (ts : List Token) (result : Option Name) (k : Token) (call : List Token)
    (schema : Schema) (binding : ResultBinding) : Prop where
  headed : Headed ts result k call
  ident : k.kind = .ident
  known : schema ∈ Schema.registry
  letters : sameLetters schema.name k.text
  usage : schema.usage = .statement binding

inductive Unrecognised : List Token → Prop
  | target {t eq : Token} {rest : List Token} (he : eq.kind = .eq) (ht : t.kind ≠ .ident) :
    Unrecognised (t :: eq :: rest)
  | nothing {t eq : Token} (he : eq.kind = .eq) : Unrecognised [t, eq]
  | notWord {ts call : List Token} {result : Option Name} {k : Token}
    (h : Headed ts result k call) (hk : k.kind ≠ .ident) : Unrecognised ts
  | unknown {ts call : List Token} {result : Option Name} {k : Token}
    (h : Headed ts result k call)
    (hk : ∀ schema ∈ Schema.registry, ¬ sameLetters schema.name k.text) : Unrecognised ts
  | header {ts call : List Token} {result : Option Name} {k : Token}
    (h : Headed ts result k call) (hk : sameLetters Schema.define.name k.text) : Unrecognised ts

variable {ts call : List Token} {result : Option Name} {k : Token} {schema : Schema}
  {binding : ResultBinding}

theorem splitResult_eq_ok_cons :
    splitResult ts = .ok (result, k :: call) ↔ Headed ts result k call := by
  constructor
  · intro h
    rcases splitResult_eq_ok h with ⟨rfl, rfl⟩ | ⟨t, eq, rfl, ht, he, rfl⟩
    · refine .plain fun next hnext he => ?_
      obtain ⟨rest, rfl⟩ := List.head?_eq_some_iff.1 hnext
      rw [splitResult, if_neg (not_not.2 he)] at h
      split at h
      · cases h
      · split at h <;> cases h
    · exact .assigned ht he
  · intro h
    cases h with
    | plain h =>
      cases call with
      | nil => rfl
      | cons next rest => exact splitResult_plain (h next rfl) rest
    | assigned hr he => exact splitResult_assigned hr he (List.cons_ne_nil _ _)

theorem Headed.unique {result' : Option Name} {k' : Token} {call' : List Token}
    (h : Headed ts result k call) (h' : Headed ts result' k' call') :
    result = result' ∧ k = k' ∧ call = call' := by
  have heq := (splitResult_eq_ok_cons.2 h).symm.trans (splitResult_eq_ok_cons.2 h')
  simpa using heq

theorem readHead_eq_ok_iff {h : Head} :
    readHead ts = .ok (h, call) ↔
      ∃ k, Begins ts h.result k call h.schema h.binding ∧ h.keyword = k.name := by
  rw [readHead_eq_ok]
  refine exists_congr fun k => ?_
  rw [splitResult_eq_ok_cons, readKeyword_eq_ok, Schema.lookup?_eq_some,
    Schema.binding?_eq_some]
  constructor
  · rintro ⟨hs, ⟨hk, ⟨hmem, hletters⟩, hu⟩, hname⟩
    exact ⟨⟨hs, hk, hmem, hletters, hu⟩, hname⟩
  · rintro ⟨⟨hs, hk, hmem, hletters, hu⟩, hname⟩
    exact ⟨hs, ⟨hk, ⟨hmem, hletters⟩, hu⟩, hname⟩

theorem Begins.readHead (hb : Begins ts result k call schema binding) :
    readHead ts = .ok (⟨result, k.name, schema, binding⟩, call) :=
  readHead_eq_ok_iff.2 ⟨k, hb, rfl⟩

theorem exists_headed_or (t : Token) (rest : List Token) :
    (∃ result k call, Headed (t :: rest) result k call) ∨
      ∃ eq more, rest = eq :: more ∧ eq.kind = .eq ∧ (t.kind ≠ .ident ∨ more = []) := by
  cases rest with
  | nil => exact .inl ⟨none, t, [], .plain fun next hnext => by cases hnext⟩
  | cons eq more =>
    by_cases he : eq.kind = .eq
    · by_cases ht : t.kind = .ident
      · cases more with
        | nil => exact .inr ⟨eq, [], rfl, he, .inr rfl⟩
        | cons k call => exact .inl ⟨some t.name, k, call, .assigned ht he⟩
      · exact .inr ⟨eq, more, rfl, he, .inl ht⟩
    · exact .inl ⟨none, t, eq :: more, .plain fun next hnext => Option.some.inj hnext ▸ he⟩

theorem unrecognised_or_begins (t : Token) (rest : List Token) :
    Unrecognised (t :: rest) ∨
      ∃ result k call schema binding, Begins (t :: rest) result k call schema binding := by
  rcases exists_headed_or t rest with ⟨result, k, call, h⟩ | ⟨eq, more, rfl, he, ht | rfl⟩
  · by_cases hk : k.kind = .ident
    · cases hl : Schema.lookup? k.text with
      | none => exact .inl (.unknown h (Schema.lookup?_eq_none.1 hl))
      | some schema =>
        obtain ⟨hmem, hletters⟩ := Schema.lookup?_eq_some.1 hl
        cases hu : schema.usage with
        | statement binding =>
          exact .inr ⟨result, k, call, schema, binding, h, hk, hmem, hletters, hu⟩
        | header =>
          obtain rfl := (Schema.usage_eq_header schema hmem).1 hu
          exact .inl (.header h hletters)
    · exact .inl (.notWord h hk)
  · exact .inl (.target he ht)
  · exact .inl (.nothing he)

theorem Unrecognised.not_begins (h : Unrecognised ts) :
    ¬ Begins ts result k call schema binding := by
  rintro ⟨hh, hident, hknown, hletters, hu⟩
  cases h with
  | target he ht =>
    cases hh with
    | plain h => exact h _ rfl he
    | assigned hr => exact ht hr
  | nothing he =>
    cases hh with
    | plain h => exact h _ rfl he
  | notWord h hk =>
    obtain ⟨-, rfl, -⟩ := h.unique hh
    exact hk hident
  | unknown h hk =>
    obtain ⟨-, rfl, -⟩ := h.unique hh
    exact hk schema hknown hletters
  | header h hk =>
    obtain ⟨-, rfl, -⟩ := h.unique hh
    have hdefine := (Schema.lookup?_eq_some.2 ⟨hknown, hletters⟩).symm.trans
      (Schema.lookup?_eq_some.2 ⟨by decide, hk⟩)
    rw [Option.some.inj hdefine] at hu
    cases hu

/-- The tokens of `result = keyword(arguments)`, in full, and the statement that they are where
these names are in scope. -/
inductive Form (names : List String) : List Token → Statement → Prop
  | mk {ts inner tokens : List Token} {result : Option Name} {k opening close : Token}
    {schema : Schema} {binding : ResultBinding} {args : List Argument}
    (hb : Begins ts result k (opening :: (inner ++ [close])) schema binding)
    (ho : opening.kind = .openParen) (hc : close.kind = .closeParen)
    (hl : Token.Listed tokens inner)
    (hs : schema.signature? tokens.length = some (args.map (·.kind)))
    (ha : List.Forall₂ (Token.ReadsAs names) tokens args)
    (hreq : binding = .required → result ≠ none)
    (hres : ∀ r ∈ result, isReserved r.val = false ∧ r.val ∉ names) :
    Form names ts ⟨k.name, result, args, Token.spanOf ts⟩

theorem Head.readArguments_eq_ok_iff {h : Head} {source : Excerpt} {scope : Scope}
    {args : List Argument} :
    h.readArguments source scope call = .ok args ↔
      ∃ opening inner close tokens, call = opening :: (inner ++ [close]) ∧
        opening.kind = .openParen ∧ close.kind = .closeParen ∧ Token.Listed tokens inner ∧
        h.schema.signature? tokens.length = some (args.map (·.kind)) ∧
        List.Forall₂ (Token.ReadsAs scope.names) tokens args ∧
        (h.binding = .required → h.result ≠ none) ∧
        ∀ r ∈ h.result, isReserved r.val = false ∧ r.val ∉ scope.names := by
  rw [readArguments_eq_ok]
  simp only [Schema.validate_eq_ok, checkResult_eq_ok]
  constructor
  · rintro ⟨list, hread, hreq, ⟨hsig, hg⟩, hres⟩
    obtain ⟨opening, inner, close, rfl, ho, hc, hsplit⟩ := Call.read_eq_ok hread
    obtain ⟨tokens, hl, htokens⟩ :=
      RawArgument.listed_of_split hsplit (RawArgument.Gives.token_ne_none hg)
    rw [htokens, List.length_map] at hsig
    rw [htokens, List.forall₂_map_left_iff] at hg
    exact ⟨opening, inner, close, tokens, rfl, ho, hc, hl, hsig,
      hg.imp fun _ _ => RawArgument.gives_iff.1, not_and.1 hreq, hres⟩
  · rintro ⟨opening, inner, close, tokens, rfl, ho, hc, hl, hsig, ha, hreq, hres⟩
    have hatom : ∀ t ∈ tokens, Lexeme.IsAtom t.kind := by
      intro t ht
      obtain ⟨a, -, hread⟩ := exists_of_mem_forall₂ ha ht
      exact hread.isAtom
    refine ⟨_, Call.read_append ho hc hl hatom, not_and.2 hreq, ⟨?_, ?_⟩, hres⟩
    · rwa [List.length_map]
    · rw [List.forall₂_map_left_iff]
      exact ha.imp fun _ _ => RawArgument.gives_iff.2

theorem form_iff (source : Excerpt) {scope : Scope} {s : Statement} :
    Form scope.names ts s ↔ ∃ h call args, readHead ts = .ok (h, call) ∧
      h.readArguments source scope call = .ok args ∧
      s = ⟨h.keyword, h.result, args, Token.spanOf ts⟩ := by
  constructor
  · rintro ⟨hb, ho, hc, hl, hs, ha, hreq, hres⟩
    exact ⟨_, _, _, hb.readHead, Head.readArguments_eq_ok_iff.2
      ⟨_, _, _, _, rfl, ho, hc, hl, hs, ha, hreq, hres⟩, rfl⟩
  · rintro ⟨h, call, args, hr, ha, rfl⟩
    obtain ⟨k, hb, hname⟩ := readHead_eq_ok_iff.1 hr
    obtain ⟨opening, inner, close, tokens, rfl, ho, hc, hl, hs, ha, hreq, hres⟩ :=
      Head.readArguments_eq_ok_iff.1 ha
    rw [hname]
    exact .mk hb ho hc hl hs ha hreq hres

theorem parsed_iff (source : Excerpt) {scope : Scope} {s : Statement} :
    (parse source scope ts).1 = .parsed s ↔ Form scope.names ts s := by
  constructor
  · intro h
    have hread := parse_read source scope ts
    generalize parse source scope ts = r at h hread
    cases hread with
    | failed | incomplete => cases h
    | parsed hr ha => exact (form_iff source).2 ⟨_, _, _, hr, ha, (Outcome.parsed.inj h).symm⟩
  · intro hf
    obtain ⟨h, call, args, hr, ha, rfl⟩ := (form_iff source).1 hf
    obtain ⟨list, -, -, -, hcheck⟩ := Head.readArguments_eq_ok.1 ha
    obtain ⟨scope', hbind⟩ := Head.exists_bind hcheck
    rw [parse, hr]
    simp only [ha, hbind]

theorem failed_iff (source : Excerpt) {scope : Scope} {t : Token} {rest : List Token} :
    (∃ fault, (parse source scope (t :: rest)).1 = .failed fault) ↔ Unrecognised (t :: rest) := by
  have hread := parse_read source scope (t :: rest)
  generalize parse source scope (t :: rest) = r at hread
  cases hread with
  | failed hr =>
    refine ⟨fun _ => ?_, fun _ => ⟨_, rfl⟩⟩
    rcases unrecognised_or_begins t rest with h | ⟨result, k, call, schema, binding, hb⟩
    · exact h
    · rw [hb.readHead] at hr
      cases hr
  | incomplete hr | parsed hr =>
    obtain ⟨k, hb, -⟩ := readHead_eq_ok_iff.1 hr
    constructor
    · rintro ⟨fault, h⟩
      cases h
    · exact fun hu => absurd hb hu.not_begins

theorem incomplete_iff (source : Excerpt) {scope : Scope} {s : Statement} :
    (∃ fault, (parse source scope ts).1 = .incomplete s fault) ↔
      (∃ result k call schema binding, Begins ts result k call schema binding ∧
        s = ⟨k.name, result, [], Token.spanOf ts⟩) ∧
      ¬ ∃ s', Form scope.names ts s' := by
  simp only [← parsed_iff source]
  have hread := parse_read source scope ts
  generalize parse source scope ts = r at hread
  cases hread with
  | failed hr =>
    constructor
    · rintro ⟨fault, h⟩
      cases h
    · rintro ⟨⟨result, k, call, schema, binding, hb, -⟩, -⟩
      rw [hb.readHead] at hr
      cases hr
  | incomplete hr hf =>
    obtain ⟨k, hb, hname⟩ := readHead_eq_ok_iff.1 hr
    constructor
    · rintro ⟨fault, h⟩
      obtain ⟨rfl, -⟩ := Outcome.incomplete.inj h
      rw [hname]
      exact ⟨⟨_, _, _, _, _, hb, rfl⟩, fun ⟨s', hs⟩ => by cases hs⟩
    · rintro ⟨⟨result, k', call, schema, binding, hb', rfl⟩, -⟩
      obtain ⟨rfl, rfl, -⟩ := hb.headed.unique hb'.headed
      rw [hname]
      exact ⟨_, rfl⟩
  | parsed =>
    constructor
    · rintro ⟨fault, h⟩
      cases h
    · exact fun h => absurd ⟨_, rfl⟩ h.2

/-- Tokens are a statement in full, or start as one, of which then only the start is left, or no
keyword of a statement is found in them. -/
theorem outcome_classified (source : Excerpt) (scope : Scope) (first : Token) (rest : List Token) :
    (∀ s, (parse source scope (first :: rest)).1 = .parsed s ↔
      Form scope.names (first :: rest) s) ∧
    ((∃ fault, (parse source scope (first :: rest)).1 = .failed fault) ↔
      Unrecognised (first :: rest)) ∧
    (∀ s, (∃ fault, (parse source scope (first :: rest)).1 = .incomplete s fault) ↔
      (∃ result k call schema binding, Begins (first :: rest) result k call schema binding ∧
        s = ⟨k.name, result, [], Token.spanOf (first :: rest)⟩) ∧
      ¬ ∃ s', Form scope.names (first :: rest) s') ∧
    (Unrecognised (first :: rest) ↔
      ¬ ∃ result k call schema binding, Begins (first :: rest) result k call schema binding) := by
  refine ⟨fun _ => parsed_iff source, failed_iff source, fun _ => incomplete_iff source, ?_,
    fun h => ?_⟩
  · rintro h ⟨result, k, call, schema, binding, hb⟩
    exact h.not_begins hb
  · exact (unrecognised_or_begins first rest).resolve_right h

end Statement

end ShapeAssembly
