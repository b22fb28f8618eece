import ShapeAssembly.Header
import ShapeAssembly.Proofs.Validation

namespace ShapeAssembly

namespace Word

/-- A header is `def` in any case, followed by a name or by a list. -/
def isHeader : List Word → Bool
  | w :: next :: _ =>
    w.kind = .ident && sameLetters w.text "def" && (next.kind = .ident || next.kind = .openParen)
  | _ => false

def withColon (ws : List Word) : List Word :=
  if ws.getLast? = some colon then ws else ws ++ [colon]

/-- The words of a line as it is printed: a header starts with `def` and ends with a colon. -/
def canonical (ws : List Word) : List Word :=
  if isHeader ws then ident "def" :: withColon ws.tail else ws

theorem withColon_append (ws : List Word) : withColon (ws ++ [colon]) = ws ++ [colon] :=
  if_pos List.getLast?_concat

theorem withColon_list (us ws : List Word) :
    withColon (us ++ list ws) = us ++ (list ws ++ [colon]) := by
  have hlast : ¬ (us ++ list ws).getLast? = some colon := by
    rw [List.getLast?_append, getLast?_list, Option.some_or, Option.some.injEq]
    decide
  rw [withColon, if_neg hlast, List.append_assoc]

theorem withColon_eq {ws vs : List Word} (h : withColon ws = vs ++ [colon]) :
    ws = vs ∨ ws = vs ++ [colon] := by
  rw [withColon] at h
  split at h
  · exact .inr h
  · exact .inl (List.append_cancel_right h)

theorem withColon_cons {w : Word} (hw : w ≠ colon) (ws : List Word) :
    withColon (w :: ws) = w :: withColon ws := by
  cases ws with
  | nil => simp [withColon, hw]
  | cons v ws =>
    rw [withColon, withColon, List.getLast?_cons_cons]
    split <;> rfl

theorem canonical_of_isHeader {ws : List Word} (h : isHeader ws) :
    canonical ws = ident "def" :: withColon ws.tail := if_pos h

theorem canonical_of_not_isHeader {ws : List Word} (h : isHeader ws = false) :
    canonical ws = ws := if_neg (by simp [h])

theorem exists_of_isHeader {ws : List Word} (h : isHeader ws) :
    ∃ define rest, ws = ident define :: rest ∧ sameLetters define "def" := by
  cases ws with
  | nil => cases h
  | cons w rest =>
    cases rest with
    | nil => cases h
    | cons next rest =>
      simp only [isHeader, Bool.and_eq_true, decide_eq_true_eq] at h
      exact ⟨w.text, next :: rest, by rw [ident, ← h.1.1], h.1.2⟩

theorem isHeader_canonical (ws : List Word) : isHeader (canonical ws) = isHeader ws := by
  cases hw : isHeader ws with
  | false => rw [canonical_of_not_isHeader hw, hw]
  | true =>
    rw [canonical_of_isHeader hw]
    match ws with
    | w :: next :: rest =>
      have hkind : next.kind = .ident ∨ next.kind = .openParen := by
        simp only [isHeader, Bool.and_eq_true, Bool.or_eq_true, decide_eq_true_eq] at hw
        exact hw.2
      have hne : next ≠ colon := by
        rintro rfl
        rcases hkind with h | h <;> cases h
      have hdef : sameLetters "def" "def" := by decide
      rw [List.tail_cons, withColon_cons hne]
      simp [isHeader, ident, hdef, hkind]

end Word

def Definition.headerWords (d : Definition) : List Word :=
  .ident "def" :: (d.nameText.toList.map .ident ++
    (Word.list (d.parameters.map (.ident ·.val)) ++ [.colon]))

theorem Definition.isHeader_headerWords (d : Definition) : Word.isHeader d.headerWords := by
  rw [headerWords]
  cases d.nameText <;> rfl

theorem Definition.canonical_headerWords (d : Definition) :
    Word.canonical d.headerWords = d.headerWords := by
  rw [Word.canonical_of_isHeader d.isHeader_headerWords, headerWords, List.tail_cons,
    ← List.append_assoc, Word.withColon_append]

namespace Header

theorem isHeader_words (ts : List Token) :
    Word.isHeader (ts.map Token.word) = (ofTokens? ts).isSome := by
  match ts with
  | [] | [t] => rfl
  | t :: next :: rest =>
    by_cases hd : t.kind = .ident ∧ sameLetters t.text "def"
    · cases hk : next.kind <;> simp [Word.isHeader, ofTokens?, Token.word, hd, hk]
    · simp only [ofTokens?, if_neg hd, Option.isSome_none]
      simp only [Word.isHeader, List.map_cons, Token.word, Bool.and_eq_false_iff,
        decide_eq_false_iff_not]
      by_cases ht : t.kind = .ident
      · exact .inl (.inr (by simpa using fun h => hd ⟨ht, h⟩))
      · exact .inl (.inl ht)

theorem mem_of_mem_dropColon {ts : List Token} {t : Token} (h : t ∈ dropColon ts) : t ∈ ts := by
  unfold dropColon at h
  split at h
  · split at h
    · exact List.dropLast_subset ts h
    · exact h
  · exact h

/-- The words of a list without its colon. -/
theorem words_dropColon {ts : List Token} {ws : List Word}
    (h : ts.map Token.word = ws ∨ ts.map Token.word = ws ++ [.colon])
    (hw : ∀ w ∈ ws.getLast?, w.kind ≠ .colon) : (dropColon ts).map Token.word = ws := by
  rcases h with h | h
  · have hlast : ∀ t ∈ ts.getLast?, t.kind ≠ .colon := by
      intro t ht
      apply hw t.word
      rw [← h, List.getLast?_map, Option.mem_def.1 ht]
      rfl
    rw [dropColon]
    split
    · rename_i t ht
      rw [if_neg (hlast t ht), h]
    · exact h
  · obtain ⟨us, vs, rfl, hus, hvs⟩ := List.map_eq_append_iff.1 h
    obtain ⟨t, rfl, ht⟩ := List.map_eq_singleton_iff.1 hvs
    have hk : t.kind = .colon := congrArg Word.kind ht
    rw [dropColon, List.getLast?_concat]
    simp only [hk, if_true, List.dropLast_concat, hus]

theorem withColon_words {ts : List Token} (hl : ∀ t ∈ ts, t.IsLexed) :
    Word.withColon (ts.map Token.word) = (dropColon ts).map Token.word ++ [.colon] := by
  rcases List.eq_nil_or_concat ts with rfl | ⟨init, t, rfl⟩
  · rfl
  · rw [List.concat_eq_append] at hl ⊢
    rw [dropColon, List.getLast?_concat, List.map_append, List.map_singleton]
    by_cases hk : t.kind = .colon
    · have ht : t.word = .colon := by
        rw [(hl t (by simp)).word_eq (c := ':') (by rw [hk]; rfl), hk]
        rfl
      simp only [hk, if_true, List.dropLast_concat, ht]
      exact Word.withColon_append _
    · have ht : ¬ (init.map Token.word ++ [t.word]).getLast? = some .colon := by
        rw [List.getLast?_concat, Option.some.injEq]
        exact fun h => hk (congrArg Word.kind h)
      simp only [hk, if_false]
      rw [Word.withColon, if_neg ht, List.map_append, List.map_singleton]

/-- What a header says about the words of its line. -/
theorem words_of_ofTokens? {ts : List Token} {h : Header} (hl : ∀ t ∈ ts, t.IsLexed)
    (hh : ofTokens? ts = some h) :
    Word.canonical (ts.map Token.word) =
        .ident "def" :: ((h.name.map (·.val)).toList.map .ident ++
          (h.list.map Token.word ++ [.colon])) ∧
      (∀ n ∈ h.name, IsIdentifier n.val) ∧ ∀ t ∈ h.list, t.IsLexed := by
  have hhead : Word.isHeader (ts.map Token.word) := by
    rw [isHeader_words, hh]
    rfl
  rw [Word.canonical_of_isHeader hhead]
  match ts with
  | [] | [t] => cases hh
  | t :: next :: rest =>
    have hrest : ∀ u ∈ rest, u.IsLexed := fun u hu => hl u (by simp [hu])
    have hnext : ∀ u ∈ next :: rest, u.IsLexed := fun u hu => hl u (List.mem_cons_of_mem _ hu)
    rw [ofTokens?] at hh
    split at hh
    · split at hh
      · rename_i hk
        obtain rfl := Option.some.inj hh
        have hw : next.word = .ident next.text := by
          rw [Token.word, hk]
          rfl
        have hne : Word.ident next.text ≠ .colon := fun he => by cases congrArg Word.kind he
        refine ⟨?_, ?_, fun u hu => hrest u (mem_of_mem_dropColon hu)⟩
        · rw [List.map_cons, List.tail_cons, List.map_cons, hw, Word.withColon_cons hne,
            withColon_words hrest]
          rfl
        · intro n hn
          obtain rfl := Option.some.inj hn
          have hsp := hnext next List.mem_cons_self (.inl (.inl hk))
          rwa [hw] at hsp
      · rename_i hk
        obtain rfl := Option.some.inj hh
        refine ⟨?_, by simp, fun u hu => hnext u (mem_of_mem_dropColon hu)⟩
        rw [List.map_cons, List.tail_cons, withColon_words hnext]
        rfl
      · cases hh
    · cases hh

/-- Tokens that spell a header up to its colon are read as one. -/
theorem exists_ofTokens? {ts : List Token} {d : Definition}
    (hw : Word.canonical (ts.map Token.word) = d.headerWords) :
    ∃ h, ofTokens? ts = some h ∧ h.name.map (·.val) = d.nameText ∧
      h.list.map Token.word = Word.list (d.parameters.map (.ident ·.val)) := by
  have hhead : Word.isHeader (ts.map Token.word) := by
    by_contra hno
    rw [Word.canonical_of_not_isHeader (by simpa using hno)] at hw
    rw [hw] at hno
    exact hno d.isHeader_headerWords
  have hsome := hhead
  rw [isHeader_words, Option.isSome_iff_exists] at hsome
  obtain ⟨h, hh⟩ := hsome
  refine ⟨h, hh, ?_⟩
  rw [Word.canonical_of_isHeader hhead, Definition.headerWords, List.cons.injEq,
    ← List.append_assoc] at hw
  have hcolon := Word.withColon_eq hw.2
  have hlast : ∀ w ∈ (Word.list (d.parameters.map (.ident ·.val))).getLast?, w.kind ≠ .colon := by
    intro w hmem
    rw [Word.getLast?_list, Option.mem_some_iff] at hmem
    rw [← hmem]
    decide
  match ts with
  | [] | [t] => cases hh
  | t :: next :: rest =>
    rw [List.map_cons, List.tail_cons] at hcolon
    rw [ofTokens?] at hh
    split at hh
    · cases hn : d.nameText with
      | none =>
        rw [hn] at hcolon
        have hk : next.kind = .openParen := by
          rcases hcolon with h | h <;> exact congrArg Word.kind (List.cons.inj h).1
        simp only [hk, Option.some.injEq] at hh
        rw [← hh]
        exact ⟨rfl, words_dropColon hcolon hlast⟩
      | some n =>
        rw [hn] at hcolon
        have hnext : next.word = .ident n := by
          rcases hcolon with h | h <;> exact (List.cons.inj h).1
        have hrest := hcolon.imp (fun h => (List.cons.inj h).2) fun h => (List.cons.inj h).2
        have hk : next.kind = .ident := congrArg Word.kind hnext
        simp only [hk, Option.some.injEq] at hh
        rw [← hh]
        exact ⟨congrArg some (congrArg Word.text hnext), words_dropColon hrest hlast⟩
    · cases hh

def parameterArgument (n : Name) : Argument := ⟨n, .identifier, .name n.val⟩

theorem isRead_parameterArgument {n : Name} : (parameterArgument n).IsRead ↔ IsUsable n.val := by
  constructor
  · intro h
    exact ⟨h.isSpelled, (h.value_name (.inl rfl)).2⟩
  · intro h
    refine ⟨.ident, .inl rfl, h.1, ?_⟩
    simp [parameterArgument, RawArgument.value?, RawArgument.usable?, RawArgument.ident?, h.2]

theorem eq_parameterArgument {a : Argument} (hr : a.IsRead) (hk : a.kind = .identifier) :
    a = parameterArgument a.raw := by
  have hval := (hr.value_name (.inl hk)).1
  obtain ⟨raw, kind, value⟩ := a
  obtain rfl : kind = .identifier := hk
  exact congrArg _ hval

theorem define_signatures : Schema.define.signatures =
    [[], [.identifier, .identifier, .identifier, .identifier]] := rfl

theorem signature_of_parameters {names : List Name} :
    names.map (fun _ => Kind.identifier) ∈ Schema.define.signatures ↔
      names = [] ∨ names.length = 4 := by
  rw [define_signatures]
  constructor
  · intro h
    rw [List.mem_pair] at h
    apply h.imp List.map_eq_nil_iff.1
    intro h4
    have hlen := congrArg List.length h4
    simpa using hlen
  · rintro (rfl | h)
    · simp
    · match names with
      | [a, b, c, d] => simp

/-- The parameters that a list is read as are the names in it. -/
theorem words_of_readParameters {source : Excerpt} {h : Header} {names : List Name}
    (hl : ∀ t ∈ h.list, t.IsLexed) (hr : h.readParameters source = .ok names) :
    h.list.map Token.word = Word.list (names.map (.ident ·.val)) ∧
      (names = [] ∨ names.length = 4) ∧ ∀ n ∈ names, IsUsable n.val := by
  simp only [readParameters, bind_eq_ok] at hr
  obtain ⟨call, hcall, ys, hval, hnames⟩ := hr
  cases hnames
  obtain ⟨hw, hsig, hys⟩ := Call.words_of_validate hl hcall hval
  -- both signatures of a header ask for identifiers only
  have hkind : ∀ y ∈ ys, y.kind = .identifier := by
    intro y hy
    have hmem := List.mem_map_of_mem (f := (·.kind)) hy
    rw [define_signatures, List.mem_pair] at hsig
    rcases hsig with hsig | hsig
    · rw [hsig] at hmem
      cases hmem
    · rw [hsig] at hmem
      simpa using hmem
  have heq : ∀ y ∈ ys, y = parameterArgument y.raw := fun y hy =>
    eq_parameterArgument (hys y hy).1 (hkind y hy)
  refine ⟨?_, signature_of_parameters.1 ?_, ?_⟩
  · rw [hw, List.map_map]
    apply congrArg Word.list
    apply List.map_congr_left
    intro y hy
    rw [heq y hy]
    rfl
  · rw [List.map_map]
    rwa [List.map_congr_left hkind] at hsig
  · intro n hn
    obtain ⟨y, hy, rfl⟩ := List.mem_map.1 hn
    rw [← isRead_parameterArgument, ← heq y hy]
    exact (hys y hy).1

/-- A list that spells parameters is read as these. -/
theorem exists_readParameters (source : Excerpt) {h : Header} {names : List Name}
    (hw : h.list.map Token.word = Word.list (names.map (.ident ·.val)))
    (hlen : names = [] ∨ names.length = 4) (hu : ∀ n ∈ names, IsUsable n.val) :
    ∃ names', h.readParameters source = .ok names' ∧
      names'.map Located.erase = names.map Located.erase := by
  have hlist : h.list.map Token.word =
      Word.list ((names.map parameterArgument).map Argument.word) := by
    rw [hw, List.map_map]
    rfl
  have hsig : (names.map parameterArgument).map (·.kind) ∈ Schema.define.signatures := by
    rw [List.map_map]
    exact signature_of_parameters.2 hlen
  obtain ⟨call, ys, hcall, hval, he⟩ := Call.exists_validate source
    ((h.name.map (·.span)).getD h.define) .empty
    (show Schema.define ∈ Schema.registry by decide) hlist hsig
    (List.forall_mem_map.2 fun n hn => isRead_parameterArgument.2 (hu n hn))
    (List.forall_mem_map.2 fun n _ => rfl)
  refine ⟨ys.map (·.raw), ?_, ?_⟩
  · rw [readParameters]
    simp only [bind_eq_ok]
    exact ⟨call, hcall, ys, hval, rfl⟩
  · have h := congrArg (List.map (·.raw)) he
    simp only [List.map_map] at h ⊢
    exact h

end Header

end ShapeAssembly
