import ShapeAssembly.Proofs.MaximalMunch

namespace ShapeAssembly

namespace Lexeme

open Pattern

/-- What leaves no token: a run of blanks, or a comment that goes on to the next newline or to the
end of the text. -/
inductive IsGap (rest : List Char) : List Char → Prop
  | blanks {cs : List Char} (h : cs ∈ blanks) : IsGap rest cs
  | comment {cs : List Char} (h : cs ∈ comment) (hend : ∀ c ∈ rest.head?, c = '\n') :
    IsGap rest cs

theorem isGap_of_munch {c : Char} {cs rest : List Char}
    (h : munch c (cs ++ rest) = (none, cs.length)) : IsGap rest (c :: cs) := by
  have hmem := mem_pattern_munch c (cs ++ rest)
  rw [h, List.take_left] at hmem
  rcases hmem with (hmem | hmem) | ⟨herror, -⟩
  · exact .blanks hmem
  · refine .comment hmem ?_
    obtain ⟨_, rfl, _, -, hcons⟩ := mem_one_mul.1 hmem
    obtain ⟨rfl, -⟩ := List.cons.inj hcons
    have hrun : run (· ≠ '\n') (cs ++ rest) = cs.length := congrArg Prod.snd h
    have hrest : rest = (cs ++ rest).dropWhile (· ≠ '\n') := by
      rw [← drop_run, hrun, List.drop_left]
    intro d hd
    rw [hrest] at hd
    simpa using head?_dropWhile _ _ d hd
  · cases herror

theorem IsFirst.byteSize_pos {kind : Option TokenKind} {cs rest : List Char}
    (h : IsFirst rest kind cs) : 0 < byteSize cs := by
  obtain ⟨c, more, rfl, -⟩ := h.exists_munch
  exact Nat.pos_of_ne_zero fun h => List.cons_ne_nil c more (byteSize_eq_zero.1 h)

end Lexeme

namespace Excerpt

/-- Tokens at the start of an excerpt, and what is left of it after them. Nothing but blanks and
comments stands between them, and each is the longest that can be read where it starts. -/
inductive Reads : Excerpt → List Token → Excerpt → Prop
  | nil (e : Excerpt) : Reads e [] e
  | gap {start : Nat} {cs rest : List Char} {ts : List Token} {left : Excerpt}
    (hg : Lexeme.IsGap rest cs) (h : Reads ⟨start + byteSize cs, rest⟩ ts left) :
    Reads ⟨start, cs ++ rest⟩ ts left
  | token {start : Nat} {kind : TokenKind} {cs rest : List Char} {ts : List Token} {left : Excerpt}
    (hf : Lexeme.IsFirst rest (some kind) cs) (hk : kind ≠ .unterminatedString)
    (h : Reads ⟨start + byteSize cs, rest⟩ ts left) :
    Reads ⟨start, cs ++ rest⟩ (⟨kind, String.ofList cs, ⟨start, start + byteSize cs⟩⟩ :: ts) left

variable {e left : Excerpt} {ts : List Token} {start : Nat} {cs rest : List Char}

theorem tokens_of_munch {kind : Option TokenKind} {c : Char}
    (h : Lexeme.munch c (cs ++ rest) = (kind, cs.length)) (start : Nat) :
    tokens ⟨start, c :: cs ++ rest⟩ =
      Token.place start (⟨kind, c :: cs⟩ :: Lexeme.scan rest) := by
  rw [tokens, List.cons_append, Lexeme.scan_cons, h, List.take_left, List.drop_left]

/-- The first blanks leave nothing but their place. -/
theorem tokens_blanks (start : Nat) (cs : List Char) :
    tokens ⟨start, cs⟩ = tokens ⟨start + byteSize (cs.takeWhile Lexeme.isBlank),
      cs.dropWhile Lexeme.isBlank⟩ := by
  cases cs with
  | nil => rfl
  | cons c cs =>
    cases hc : Lexeme.isBlank c with
    | false =>
      have hno : ¬ Lexeme.isBlank c = true := by rw [hc]; exact Bool.false_ne_true
      rw [List.takeWhile_cons_of_neg hno, List.dropWhile_cons_of_neg hno]
      rfl
    | true =>
      have hrest := Lexeme.drop_run Lexeme.isBlank cs
      have htaken := Lexeme.take_run Lexeme.isBlank cs
      rw [List.takeWhile_cons_of_pos hc, List.dropWhile_cons_of_pos hc, tokens, Lexeme.scan_cons,
        Lexeme.munch_blank hc, hrest, htaken]
      rfl

theorem tokens_gap (hg : Lexeme.IsGap rest cs) (start : Nat) :
    tokens ⟨start, cs ++ rest⟩ = tokens ⟨start + byteSize cs, rest⟩ := by
  cases hg with
  | blanks h =>
    have hblank : ∀ c ∈ cs, Lexeme.isBlank c = true := fun c hc =>
      Pattern.mem_blank.1 ((Pattern.mem_many_one.1 h).2 c hc)
    rw [tokens_blanks start, tokens_blanks (start + byteSize cs),
      List.takeWhile_append_of_pos hblank, List.dropWhile_append_of_pos hblank, byteSize_append,
      Nat.add_assoc]
  | comment h hend =>
    obtain ⟨_, rfl, more, hmore, rfl⟩ := Pattern.mem_one_mul.1 h
    have hrun : Lexeme.run (· ≠ '\n') (more ++ rest) = more.length :=
      Lexeme.run_append_eq (fun c hc => decide_eq_true (Pattern.mem_star_one.1 hmore c hc))
        fun c hc => by simpa using hend c hc
    have hm : Lexeme.munch '#' (more ++ rest) = (none, more.length) := by
      rw [Lexeme.munch_comment, hrun]
    rw [tokens_of_munch hm]
    rfl

theorem tokens_of_isFirst {kind : TokenKind} (hf : Lexeme.IsFirst rest (some kind) cs)
    (start : Nat) :
    tokens ⟨start, cs ++ rest⟩ = Token.place start (⟨some kind, cs⟩ :: Lexeme.scan rest) := by
  obtain ⟨c, more, rfl, hm⟩ := hf.exists_munch
  exact tokens_of_munch hm start

theorem Reads.tokens_eq (h : Reads e ts left) : e.tokens = (ts ++ ·) <$> left.tokens := by
  induction h with
  | nil e => cases e.tokens <;> rfl
  | gap hg h ih => rw [tokens_gap hg, ih]
  | @token start kind cs rest ts left hf hk h ih =>
    have hrest : Token.place (start + byteSize cs) (Lexeme.scan rest) =
        (ts ++ ·) <$> left.tokens := ih
    rw [tokens_of_isFirst hf, Token.place_cons hk, hrest]
    cases left.tokens <;> rfl

theorem Reads.tokens_of_end {stop : Nat} (h : Reads e ts ⟨stop, []⟩) : e.tokens = .ok ts := by
  rw [h.tokens_eq]
  show Except.ok (ts ++ []) = _
  rw [List.append_nil]

theorem Reads.tokens_of_open {stop : Nat} {opened : List Char}
    (h : Reads e ts ⟨stop, opened ++ rest⟩)
    (hf : Lexeme.IsFirst rest (some .unterminatedString) opened) :
    e.tokens = .error ⟨⟨stop, stop + byteSize opened⟩⟩ := by
  rw [h.tokens_eq, tokens_of_isFirst hf]
  rfl

/-- Tokens can be read off any text, up to its end or to a string that is left open. -/
theorem exists_reads (e : Excerpt) : ∃ ts stop cs, Reads e ts ⟨stop, cs⟩ ∧
    (cs = [] ∨ ∃ opened rest, cs = opened ++ rest ∧
      Lexeme.IsFirst rest (some .unterminatedString) opened) := by
  obtain ⟨start, cs⟩ := e
  induction hn : cs.length using Nat.strong_induction_on generalizing start cs with
  | _ n ih =>
    cases cs with
    | nil => exact ⟨[], start, [], .nil _, .inl rfl⟩
    | cons c cs =>
      -- one lexeme is taken, and the rest is shorter
      obtain ⟨kind, taken, rest, rfl, hm⟩ : ∃ kind taken rest, cs = taken ++ rest ∧
          Lexeme.munch c (taken ++ rest) = (kind, taken.length) := by
        refine ⟨(Lexeme.munch c cs).1, cs.take (Lexeme.munch c cs).2,
          cs.drop (Lexeme.munch c cs).2, (List.take_append_drop _ _).symm, ?_⟩
        rw [List.take_append_drop, List.length_take, Nat.min_eq_left (Lexeme.munch_le c cs)]
      have hlt : rest.length < n := by
        rw [← hn, List.length_cons, List.length_append]
        omega
      obtain ⟨ts, stop, left, hreads, hleft⟩ :=
        ih _ hlt (start + byteSize (c :: taken)) rest rfl
      match kind with
      | none => exact ⟨ts, stop, left, .gap (Lexeme.isGap_of_munch hm) hreads, hleft⟩
      | some kind =>
        have hf := Lexeme.isFirst_of_munch hm
        by_cases hk : kind = .unterminatedString
        · subst hk
          exact ⟨[], start, c :: taken ++ rest, .nil _, .inr ⟨_, rest, rfl, hf⟩⟩
        · exact ⟨_, stop, left, .token hf hk hreads, hleft⟩

theorem isPart_after (start : Nat) (cs rest : List Char) :
    IsPart ⟨start + byteSize cs, rest⟩ ⟨start, cs ++ rest⟩ :=
  ⟨cs, [], by simp, rfl⟩

theorem Reads.start_le (h : Reads e ts left) : e.start ≤ left.start := by
  induction h with
  | nil => exact Nat.le_refl _
  | gap _ _ ih | token _ _ _ ih => exact (Nat.le_add_right _ _).trans ih

/-- Tokens that are read follow one another, between where reading starts and where it ends. -/
theorem Reads.inTurn (h : Reads e ts left) :
    Span.InTurn (ts.map (·.span)) ⟨e.start, left.start⟩ := by
  have hlow : ∀ {start size : Nat} {parts : List Span} {left : Excerpt},
      Span.InTurn parts ⟨start + size, left.start⟩ → Span.InTurn parts ⟨start, left.start⟩ :=
    fun h => h.mono fun s hs =>
      have hw := h.within s hs
      ⟨(Nat.le_add_right _ _).trans hw.start, hw.ordered, hw.stop⟩
  induction h with
  | nil => exact .nil _
  | gap _ _ ih => exact hlow ih
  | token hf _ h ih =>
    exact ⟨List.forall_mem_cons.2
        ⟨⟨Nat.le_refl _, Nat.le_add_right _ _, h.start_le⟩, (hlow ih).within⟩,
      List.forall_mem_cons.2 ⟨Nat.lt_add_of_pos_right hf.byteSize_pos, ih.nonempty⟩,
      .cons (fun s hs => (ih.within s hs).start) ih.ordered⟩

/-- Tokens that are read are whole characters of the text, those that stand at their places. -/
theorem Reads.shows (h : Reads e ts left) : ∀ t ∈ ts, e.Holds t.span ∧ e.Shows t.name := by
  have hbelow : ∀ {start : Nat} {cs rest : List Char} {t : Token},
      Holds ⟨start + byteSize cs, rest⟩ t.span ∧ Shows ⟨start + byteSize cs, rest⟩ t.name →
        Holds ⟨start, cs ++ rest⟩ t.span ∧ Shows ⟨start, cs ++ rest⟩ t.name :=
    fun h => ⟨h.1.of_isPart (isPart_after _ _ _), slice?_of_isPart (isPart_after _ _ _) h.2⟩
  induction h with
  | nil => exact fun t ht => absurd ht List.not_mem_nil
  | gap _ _ ih => exact fun t ht => hbelow (ih t ht)
  | @token start kind cs rest ts left hf _ h ih =>
    refine List.forall_mem_cons.2 ⟨⟨⟨⟨[], cs ++ rest, rfl, rfl⟩, ⟨cs, rest, rfl, rfl⟩,
      Nat.lt_add_of_pos_right hf.byteSize_pos⟩, ?_⟩, fun t ht => hbelow (ih t ht)⟩
    rw [Shows, slice?_eq_some]
    show IsPart ⟨start, (String.ofList cs).toList⟩ _ ∧
      _ = start + byteSize (String.ofList cs).toList
    rw [String.toList_ofList]
    exact ⟨⟨[], rest, rfl, rfl⟩, rfl⟩

/-- A text is cut into its longest tokens in exactly one way, and nothing else of it is lost but
blanks and comments; a string that is left open is the only thing that stops it, where it stands. -/
theorem tokens_maximalMunch (e : Excerpt) :
    (∀ ts, e.tokens = .ok ts ↔ ∃ stop, Reads e ts ⟨stop, []⟩) ∧
    (∀ string, e.tokens = .error string ↔
      ∃ ts opened rest, Reads e ts ⟨string.span.start, opened ++ rest⟩ ∧
        Lexeme.IsFirst rest (some .unterminatedString) opened ∧
        string.span.stop = string.span.start + byteSize opened) ∧
    ∀ ts left, Reads e ts left → Span.InTurn (ts.map (·.span)) ⟨e.start, left.start⟩ ∧
      ∀ t ∈ ts, e.Holds t.span ∧ e.Shows t.name := by
  obtain ⟨ts, stop, cs, hreads, hleft⟩ := e.exists_reads
  refine ⟨fun ts' => ⟨fun h => ?_, fun ⟨_, h⟩ => h.tokens_of_end⟩, fun string => ⟨fun h => ?_, ?_⟩,
    fun ts left h => ⟨h.inTurn, h.shows⟩⟩
  · rcases hleft with rfl | ⟨opened, rest, rfl, hf⟩
    · rw [hreads.tokens_of_end] at h
      exact ⟨stop, Except.ok.inj h ▸ hreads⟩
    · rw [hreads.tokens_of_open hf] at h
      cases h
  · rcases hleft with rfl | ⟨opened, rest, rfl, hf⟩
    · rw [hreads.tokens_of_end] at h
      cases h
    · rw [hreads.tokens_of_open hf] at h
      exact Except.error.inj h ▸ ⟨ts, opened, rest, hreads, hf, rfl⟩
  · rintro ⟨ts', opened, rest, h, hf, hstop⟩
    rw [h.tokens_of_open hf, ← hstop]

/-- An exponent without digits is not part of a number, and a point alone is none. -/
example : (whole "1e+ -.").tokens = .ok [⟨.number, "1", ⟨0, 1⟩⟩, ⟨.ident, "e", ⟨1, 2⟩⟩,
    ⟨.error, "+", ⟨2, 3⟩⟩, ⟨.error, "-", ⟨4, 5⟩⟩, ⟨.error, ".", ⟨5, 6⟩⟩] := by
  decide

end Excerpt

end ShapeAssembly
