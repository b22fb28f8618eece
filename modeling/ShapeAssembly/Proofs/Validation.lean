import Mathlib.Data.List.Forall2
import ShapeAssembly.Proofs.ArgumentList

namespace ShapeAssembly

def Kind.token : Kind → TokenKind
  | .float => .number
  | _ => .ident

theorem Kind.isAtom_token (k : Kind) : Lexeme.IsAtom k.token := by
  cases k <;> first | exact .inr rfl | exact .inl rfl

def Argument.word (a : Argument) : Word := ⟨a.kind.token, a.raw.val⟩

namespace RawArgument

theorem value?_congr {a b : RawArgument} (ht : a.text.val = b.text.val) (hk : a.token = b.token)
    (kind : Kind) : a.value? kind = b.value? kind := by
  cases kind <;> simp only [value?, usable?, ident?, ht, hk]

theorem token_of_ident? {a : RawArgument} {text : String} (h : a.ident? = some text) :
    a.token = some .ident ∧ a.text.val = text := by
  rw [ident?] at h
  split at h
  · exact ⟨‹_›, Option.some.inj h⟩
  · cases h

theorem token_of_value? {a : RawArgument} {kind : Kind} {v : Value}
    (h : a.value? kind = some v) : a.token = some kind.token := by
  cases kind with
  | float =>
    rw [value?] at h
    split at h
    · assumption
    · cases h
  | bool | axis | face =>
    simp only [value?, Option.map_eq_some_iff, Option.bind_eq_some_iff] at h
    obtain ⟨-, ⟨text, ht, -⟩, -⟩ := h
    exact (token_of_ident? ht).1
  | newVariable | existingVariable | identifier =>
    simp only [value?, usable?, Option.map_eq_some_iff, Option.filter_eq_some_iff] at h
    obtain ⟨text, ⟨ht, -⟩, -⟩ := h
    exact (token_of_ident? ht).1

end RawArgument

namespace Argument

theorem IsRead.value? {a : Argument} (h : a.IsRead) :
    (RawArgument.mk a.raw (some a.kind.token)).value? a.kind = some a.value := by
  obtain ⟨kind, -, -, hv⟩ := h
  rwa [← RawArgument.token_of_value? hv]

theorem IsRead.isSpelled {a : Argument} (h : a.IsRead) : a.word.IsSpelled := by
  obtain ⟨kind, -, hs, hv⟩ := h
  obtain rfl := Option.some.inj (RawArgument.token_of_value? hv)
  exact hs

/-- A name is its own value. -/
theorem IsRead.value_name {a : Argument} (h : a.IsRead)
    (hk : a.kind = .identifier ∨ a.kind = .newVariable ∨ a.kind = .existingVariable) :
    a.value = .name a.raw.val ∧ isReserved a.raw.val = false := by
  have hv := h.value?
  rcases hk with hk | hk | hk <;>
  · rw [hk] at hv
    simp only [RawArgument.value?, RawArgument.usable?, RawArgument.ident?, Kind.token, if_true,
      Option.map_eq_some_iff, Option.filter_eq_some_iff] at hv
    obtain ⟨text, ⟨ht, hr⟩, hval⟩ := hv
    obtain rfl := Option.some.inj ht
    exact ⟨hval.symm, by simpa using hr⟩

end Argument

namespace RawArgument

/-- What reading an argument at a position establishes. -/
structure Gives (scope : Scope) (a : RawArgument) (y : Argument) : Prop where
  raw : y.raw = a.text
  value : a.value? y.kind = some y.value
  cause : scopeCause? scope a.text.val y.kind = none

theorem coerce_eq_ok {keyword : String} {position : Nat} {kind : Kind} {scope : Scope}
    {a : RawArgument} {y : Argument} :
    a.coerce keyword position kind scope = .ok y ↔ y.kind = kind ∧ Gives scope a y := by
  constructor
  · intro h
    rw [coerce] at h
    split at h
    · cases h
    · split at h
      · cases h
      · obtain rfl := Except.ok.inj h
        exact ⟨rfl, rfl, ‹_›, ‹_›⟩
  · rintro ⟨rfl, hr, hv, hc⟩
    rw [coerce, hv]
    simp only [hc]
    rw [← hr]

theorem coerceFrom_cons {keyword : String} {position : Nat} {scope : Scope} {a : RawArgument}
    {as : List RawArgument} {kind : Kind} {kinds : Signature} {ys : List Argument} :
    coerceFrom keyword position scope (a :: as) (kind :: kinds) = .ok ys ↔
      ∃ y rest, a.coerce keyword position kind scope = .ok y ∧
        coerceFrom keyword (position + 1) scope as kinds = .ok rest ∧ ys = y :: rest := by
  rw [coerceFrom, bind_eq_ok]
  simp only [bind_eq_ok, pure, Except.pure, Except.ok.injEq]
  constructor
  · rintro ⟨y, hy, rest, hrest, rfl⟩
    exact ⟨y, rest, hy, hrest, rfl⟩
  · rintro ⟨y, rest, hy, hrest, rfl⟩
    exact ⟨y, hy, rest, hrest, rfl⟩

theorem coerceFrom_eq_ok {keyword : String} {position : Nat} {scope : Scope}
    {as : List RawArgument} {kinds : Signature} (hlen : as.length = kinds.length)
    {ys : List Argument} :
    coerceFrom keyword position scope as kinds = .ok ys ↔
      ys.map (·.kind) = kinds ∧ List.Forall₂ (Gives scope) as ys := by
  induction as generalizing position kinds ys with
  | nil =>
    obtain rfl : kinds = [] := List.length_eq_zero_iff.1 hlen.symm
    simp only [coerceFrom, Except.ok.injEq, List.forall₂_nil_left_iff, List.map_eq_nil_iff]
    constructor
    · rintro rfl
      exact ⟨rfl, rfl⟩
    · exact fun h => h.1.symm
  | cons a as ih =>
    match kinds with
    | [] => simp at hlen
    | kind :: kinds =>
      simp only [coerceFrom_cons, coerce_eq_ok, ih (Nat.succ.inj hlen)]
      constructor
      · rintro ⟨y, rest, ⟨rfl, hy⟩, ⟨rfl, hrest⟩, rfl⟩
        exact ⟨rfl, .cons hy hrest⟩
      · rintro ⟨hk, hall⟩
        cases hall with
        | cons hy hrest =>
          rw [List.map_cons, List.cons.injEq] at hk
          exact ⟨_, _, ⟨hk.1, hy⟩, ⟨hk.2, hrest⟩, rfl⟩

theorem scopeCause?_eq_none {scope : Scope} {name : String} {kind : Kind} :
    scopeCause? scope name kind = none ↔
      (kind = .existingVariable → name ∈ scope.names) ∧
        (kind = .newVariable → name ∉ scope.names) := by
  cases kind <;> simp [scopeCause?, Scope.contains]

/-- The tokens of read arguments spell them. -/
theorem Gives.words {scope : Scope} {ts : List Token} {ys : List Argument}
    (h : List.Forall₂ (Gives scope) (ts.map Token.argument) ys) :
    ys.map Argument.word = ts.map Token.word := by
  induction ts generalizing ys with
  | nil =>
    cases h
    rfl
  | cons t ts ih =>
    rw [List.map_cons] at h
    cases h with
    | cons hy hrest =>
      have ht : t.kind = _ := Option.some.inj (token_of_value? hy.value)
      rw [List.map_cons, List.map_cons, ih hrest, Argument.word, ← ht, hy.raw]
      rfl

theorem Gives.token_ne_none {scope : Scope} {as : List RawArgument} {ys : List Argument}
    (h : List.Forall₂ (Gives scope) as ys) : ∀ a ∈ as, a.token ≠ none := by
  induction h with
  | nil => simp
  | cons hy _ ih =>
    intro a ha
    rcases List.mem_cons.1 ha with rfl | ha
    · rw [token_of_value? hy.value]
      exact Option.some_ne_none _
    · exact ih a ha

theorem Gives.isRead {scope : Scope} {t : Token} {y : Argument}
    (h : Gives scope t.argument y) (ht : t.IsLexed) : y.IsRead := by
  have hk : t.kind = y.kind.token := Option.some.inj (token_of_value? h.value)
  have hatom : Lexeme.IsAtom t.kind := by
    rw [hk]
    exact y.kind.isAtom_token
  refine ⟨t.kind, hatom, ?_, ?_⟩
  · rw [h.raw]
    exact ht (.inl hatom)
  · rw [h.raw]
    exact h.value

theorem Gives.all {scope : Scope} {ts : List Token} {ys : List Argument}
    (h : List.Forall₂ (Gives scope) (ts.map Token.argument) ys) (hl : ∀ t ∈ ts, t.IsLexed) :
    ∀ y ∈ ys, y.IsRead ∧ scopeCause? scope y.raw.val y.kind = none := by
  induction ts generalizing ys with
  | nil =>
    cases h
    simp
  | cons t ts ih =>
    rw [List.map_cons] at h
    cases h with
    | cons hy hrest =>
      intro y hmem
      rcases List.mem_cons.1 hmem with rfl | hmem
      · refine ⟨hy.isRead (hl t List.mem_cons_self), ?_⟩
        rw [hy.raw]
        exact hy.cause
      · exact ih hrest (fun u hu => hl u (List.mem_cons_of_mem _ hu)) y hmem

/-- Arguments that are read are read again from tokens that spell them. -/
theorem exists_gives {scope : Scope} {xs : List Argument} {ts : List Token}
    (hw : ts.map Token.word = xs.map Argument.word) (hr : ∀ a ∈ xs, a.IsRead)
    (hs : ∀ a ∈ xs, scopeCause? scope a.raw.val a.kind = none) :
    ∃ ys, List.Forall₂ (Gives scope) (ts.map Token.argument) ys ∧
      ys.map (·.kind) = xs.map (·.kind) ∧ ys.map Argument.erase = xs.map Argument.erase := by
  induction xs generalizing ts with
  | nil =>
    obtain rfl : ts = [] := by simpa using hw
    exact ⟨[], .nil, rfl, rfl⟩
  | cons a xs ih =>
    match ts with
    | [] => simp at hw
    | t :: ts =>
      rw [List.map_cons, List.map_cons, List.cons.injEq] at hw
      obtain ⟨ys, hg, hk, he⟩ := ih hw.2 (fun b hb => hr b (List.mem_cons_of_mem _ hb))
        fun b hb => hs b (List.mem_cons_of_mem _ hb)
      have htext : t.text = a.raw.val := congrArg Word.text hw.1
      have hkind : t.kind = a.kind.token := congrArg Word.kind hw.1
      refine ⟨⟨t.name, a.kind, a.value⟩ :: ys, .cons ⟨rfl, ?_, ?_⟩ hg, ?_, ?_⟩
      · rw [← (hr a List.mem_cons_self).value?]
        exact value?_congr htext (congrArg some hkind) a.kind
      · rw [← hs a List.mem_cons_self, ← htext]
        rfl
      · rw [List.map_cons, hk, List.map_cons]
      · rw [List.map_cons, he, List.map_cons, Argument.erase, Argument.erase, Located.erase,
          Located.erase, ← htext]
        rfl

end RawArgument

namespace Schema

theorem mem_registry {keyword : String} {schema : Schema} (h : lookup? keyword = some schema) :
    schema ∈ registry :=
  List.mem_of_find?_eq_some h

theorem toLower_of_lookup {keyword : String} {schema : Schema}
    (h : lookup? keyword = some schema) :
    schema.name.toList.map Char.toLower = keyword.toList.map Char.toLower := by
  rw [lookup?] at h
  have hfound := List.find?_some h
  exact of_decide_eq_true hfound

/-- No two signatures of a keyword have the same length. -/
theorem signature?_length : ∀ schema ∈ registry, ∀ kinds ∈ schema.signatures,
    schema.signature? kinds.length = some kinds := by
  decide

/-- Statements have arguments, and none of them declares a name. -/
theorem signature_of_lookup {keyword : String} {schema : Schema} {binding : ResultBinding}
    {kinds : Signature} (hk : lookup? keyword = some schema) (hb : schema.binding? = some binding)
    (hs : kinds ∈ schema.signatures) : kinds ≠ [] ∧ .newVariable ∉ kinds := by
  have hall : ∀ schema ∈ registry, schema.binding? ≠ none →
      ∀ kinds ∈ schema.signatures, kinds ≠ [] ∧ .newVariable ∉ kinds := by
    decide
  apply hall schema (mem_registry hk) _ kinds hs
  rw [hb]
  exact Option.some_ne_none binding

theorem validate_eq_ok {schema : Schema} {args : List RawArgument} {list : Span} {scope : Scope}
    {ys : List Argument} :
    schema.validate args list scope = .ok ys ↔
      schema.signature? args.length = some (ys.map (·.kind)) ∧
        List.Forall₂ (RawArgument.Gives scope) args ys := by
  rw [validate]
  split
  · rename_i kinds hs
    have hlen : args.length = kinds.length := by
      have h := List.find?_some hs
      simpa using (of_decide_eq_true h).symm
    rw [RawArgument.coerceFrom_eq_ok hlen, hs, Option.some.injEq, eq_comm]
  · rename_i hs
    rw [hs]
    constructor
    · intro h
      cases h
    · rintro ⟨h, -⟩
      cases h

end Schema

namespace Call

/-- A list that is read as arguments is spelled by them. -/
theorem words_of_validate {source : Excerpt} {head : Span} {ts : List Token} {call : Call}
    {schema : Schema} {scope : Scope} {ys : List Argument} (hl : ∀ t ∈ ts, t.IsLexed)
    (hr : read source head ts = .ok call)
    (hv : schema.validate call.arguments call.span scope = .ok ys) :
    ts.map Token.word = Word.list (ys.map Argument.word) ∧
      ys.map (·.kind) ∈ schema.signatures ∧
      ∀ y ∈ ys, y.IsRead ∧ RawArgument.scopeCause? scope y.raw.val y.kind = none := by
  obtain ⟨opening, inner, close, rfl, ho, hc, hsplit⟩ := read_eq_ok hr
  obtain ⟨hsig, hg⟩ := Schema.validate_eq_ok.1 hv
  obtain ⟨args, hlist, hargs⟩ :=
    RawArgument.listed_of_split hsplit (RawArgument.Gives.token_ne_none hg)
  rw [hargs] at hg
  have hinner : ∀ t ∈ inner, t.IsLexed := fun t ht => hl t (by simp [ht])
  have hopen : opening.word = .openParen := by
    have h := (hl opening (by simp)).word_eq (c := '(') (by rw [ho]; rfl)
    rw [h, ho]
    rfl
  have hclose : close.word = .closeParen := by
    have h := (hl close (by simp)).word_eq (c := ')') (by rw [hc]; rfl)
    rw [h, hc]
    rfl
  have hcomma : ∀ t ∈ inner, t.kind = .comma → t.word = .comma := by
    intro t ht hk
    rw [(hinner t ht).word_eq (c := ',') (by rw [hk]; rfl), hk]
    rfl
  refine ⟨?_, List.mem_of_find?_eq_some hsig,
    RawArgument.Gives.all hg fun t ht => hinner t (hlist.sublist.subset ht)⟩
  rw [List.map_cons, List.map_append, hlist.words hcomma, RawArgument.Gives.words hg, Word.list,
    hopen, List.map_singleton, hclose]

/-- Tokens that spell arguments are read as these. -/
theorem exists_validate (source : Excerpt) (head : Span) (scope : Scope) {ts : List Token}
    {schema : Schema} {xs : List Argument} (hschema : schema ∈ Schema.registry)
    (hw : ts.map Token.word = Word.list (xs.map Argument.word))
    (hsig : xs.map (·.kind) ∈ schema.signatures) (hr : ∀ a ∈ xs, a.IsRead)
    (hs : ∀ a ∈ xs, RawArgument.scopeCause? scope a.raw.val a.kind = none) :
    ∃ call ys, read source head ts = .ok call ∧
      schema.validate call.arguments call.span scope = .ok ys ∧
      ys.map Argument.erase = xs.map Argument.erase := by
  obtain ⟨opening, rest, rfl, ho, hrest⟩ := List.map_eq_cons_iff.1 hw
  obtain ⟨inner, last, rfl, hinner, hlast⟩ := List.map_eq_append_iff.1 hrest
  obtain ⟨close, rfl, hc⟩ := List.map_eq_singleton_iff.1 hlast
  obtain ⟨args, hlist, hargs⟩ := Token.exists_listed hinner
  have hatom : ∀ t ∈ args, Lexeme.IsAtom t.kind := by
    intro t ht
    have hmem : t.word ∈ xs.map Argument.word := by
      rw [← hargs]
      exact List.mem_map_of_mem ht
    obtain ⟨a, -, ha⟩ := List.mem_map.1 hmem
    rw [show t.kind = a.kind.token from (congrArg Word.kind ha).symm]
    exact a.kind.isAtom_token
  obtain ⟨ys, hg, hk, he⟩ := RawArgument.exists_gives hargs hr hs
  refine ⟨_, ys, read_append (congrArg Word.kind ho) (congrArg Word.kind hc) hlist hatom,
    Schema.validate_eq_ok.2 ⟨?_, hg⟩, he⟩
  -- the signature is looked up by its length alone
  have hlen : (args.map Token.argument).length = (xs.map (·.kind)).length := by
    rw [List.length_map, List.length_map, ← List.length_map (f := Token.word), hargs,
      List.length_map]
  rw [hlen, hk]
  exact Schema.signature?_length schema hschema _ hsig

end Call

end ShapeAssembly
