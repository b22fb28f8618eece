import ShapeAssembly.Proofs.Patterns
import ShapeAssembly.Proofs.TokenPlaces

open Computability

namespace ShapeAssembly

namespace Lexeme

open Pattern

theorem stringTail_plain {c : Char} (hq : c ≠ '"') (hb : c ≠ '\\') (hn : c ≠ '\n')
    (cs : List Char) : stringTail (c :: cs) = ((stringTail cs).1, (stringTail cs).2 + 1) := by
  rw [stringTail] <;> simp [hq, hb, hn]

theorem stringTail_escape {c : Char} (hn : c ≠ '\n') (cs : List Char) :
    stringTail ('\\' :: c :: cs) = ((stringTail cs).1, (stringTail cs).2 + 2) := by
  rw [stringTail, if_neg hn]

/-- Neither the last character nor one with another after it is a backslash. -/
theorem ne_backslash {c : Char} {cs : List Char} (hlast : c = '\\' → cs = [] → False)
    (hnext : ∀ d ds, c = '\\' → cs = d :: ds → False) : c ≠ '\\' := by
  rintro rfl
  cases cs with
  | nil => exact hlast rfl rfl
  | cons d ds => exact hnext d ds rfl rfl

theorem mem_stringBody_cons {part cs : List Char}
    (hp : part ∈ one {'"', '\\', '\n'}ᶜ + one {'\\'} * one {'\n'}ᶜ) (hc : cs ∈ stringBody) :
    part ++ cs ∈ stringBody := by
  obtain ⟨parts, rfl, hparts⟩ := Language.mem_kstar.1 hc
  exact Language.join_mem_kstar (L := part :: parts) (List.forall_mem_cons.2 ⟨hp, hparts⟩)

/-- A string goes on to the end of its body and then as what follows does. -/
theorem stringTail_append {body : List Char} (h : body ∈ stringBody) (rest : List Char) :
    stringTail (body ++ rest) = ((stringTail rest).1, (stringTail rest).2 + body.length) := by
  obtain ⟨parts, rfl, hparts⟩ := Language.mem_kstar.1 h
  clear h
  induction parts with
  | nil => rfl
  | cons part parts ih =>
    obtain ⟨hpart, hrest⟩ := List.forall_mem_cons.1 hparts
    rw [List.flatten_cons, List.append_assoc]
    rcases (Language.mem_add _ _ _).1 hpart with ⟨c, hc, rfl⟩ | hpart
    · simp only [Set.mem_compl_iff, Set.mem_insert_iff, Set.mem_singleton_iff, not_or] at hc
      rw [List.singleton_append, stringTail_plain hc.1 hc.2.1 hc.2.2, ih hrest]
      simp only [List.length_append, List.length_singleton]
      congr 1
      omega
    · obtain ⟨_, rfl, _, ⟨c, hc, rfl⟩, rfl⟩ := mem_one_mul.1 hpart
      rw [List.cons_append, List.singleton_append, stringTail_escape hc, ih hrest]
      simp only [List.length_append, List.length_cons, List.length_nil]
      congr 1
      omega

/-- A string takes a body and, if it is closed, the quote after it. -/
theorem take_stringTail (cs : List Char) :
    cs.take (stringTail cs).2 ∈
      if (stringTail cs).1 then stringBody * one {'"'} else stringBody := by
  have hcons : ∀ {part rest : List Char} {closed : Bool},
      part ∈ one {'"', '\\', '\n'}ᶜ + one {'\\'} * one {'\n'}ᶜ →
      rest ∈ (if closed then stringBody * one {'"'} else stringBody) →
        part ++ rest ∈ if closed then stringBody * one {'"'} else stringBody := by
    intro part rest closed hp hr
    cases closed with
    | false => exact mem_stringBody_cons hp hr
    | true =>
      obtain ⟨body, hbody, quote, hquote, rfl⟩ := Language.mem_mul.1 hr
      rw [← List.append_assoc]
      exact Language.append_mem_mul (mem_stringBody_cons hp hbody) hquote
  fun_induction stringTail cs with
  | case1 | case3 | case4 | case5 => exact Language.nil_mem_kstar _
  | case2 => exact Language.append_mem_mul (Language.nil_mem_kstar _) (mem_one.2 ⟨'"', rfl, rfl⟩)
  | case6 c cs hc closed n ht ih =>
    rw [ht] at ih
    exact hcons (.inr (mem_one_mul.2 ⟨'\\', rfl, [c], mem_one.2 ⟨c, hc, rfl⟩, rfl⟩)) ih
  | case7 c cs hq hn hb hb' closed n ht ih =>
    have hplain : c ∉ ({'"', '\\', '\n'} : Set Char) := fun h =>
      h.elim hq fun h => h.elim (ne_backslash hb hb') hn
    rw [ht] at ih
    exact hcons (.inl (mem_one.2 ⟨c, hplain, rfl⟩)) ih

theorem munch_comment (cs : List Char) : munch '#' cs = (none, run (· ≠ '\n') cs) := rfl

theorem munch_quote (cs : List Char) : munch '"' cs =
    (some (if (stringTail cs).1 then .string else .unterminatedString), (stringTail cs).2) := rfl

theorem mem_ascii_of_isBlank {c : Char} (h : isBlank c) : c ∈ ascii := by
  simp only [isBlank, Bool.or_eq_true, decide_eq_true_eq] at h
  rcases h with ((rfl | rfl) | rfl) | rfl <;> exact ⟨by decide, by decide⟩

theorem mem_ascii_of_isDigit {c : Char} (h : c.isDigit) : c ∈ ascii := by
  obtain ⟨hlow, hhigh⟩ := mem_digit.2 h
  exact ⟨le_trans (by decide) hlow, hhigh.trans (by decide)⟩

theorem mem_ascii_of_isIdentStart {c : Char} (h : isIdentStart c) : c ∈ ascii := by
  rcases mem_letter.2 h with (⟨hlow, hhigh⟩ | ⟨hlow, hhigh⟩) | rfl
  · exact ⟨le_trans (by decide) hlow, hhigh.trans (by decide)⟩
  · exact ⟨le_trans (by decide) hlow, hhigh.trans (by decide)⟩
  · exact ⟨by decide, by decide⟩

/-- Every other class of lexemes starts with a character of ASCII. -/
theorem munch_of_notMem_ascii {c : Char} (h : c ∉ ascii) (cs : List Char) :
    munch c cs = (some .error, 0) := by
  have hm := munched c cs
  generalize munch c cs = r at hm
  cases hm with
  | blank hc => exact absurd (mem_ascii_of_isBlank hc) h
  | ident hc => exact absurd (mem_ascii_of_isIdentStart hc) h
  | comment hc | string hc =>
    subst hc
    exact absurd ⟨by decide, by decide⟩ h
  | punctuation hp =>
    rcases punctuation_cases hp with ⟨rfl, -⟩ | ⟨rfl, -⟩ | ⟨rfl, -⟩ | ⟨rfl, -⟩ | ⟨rfl, -⟩ <;>
      exact absurd ⟨by decide, by decide⟩ h
  | number hn =>
    rcases head_of_numberLength (by rw [hn]; exact Nat.succ_ne_zero _) with hc | rfl | rfl
    · exact absurd (mem_ascii_of_isDigit hc) h
    · exact absurd ⟨by decide, by decide⟩ h
    · exact absurd ⟨by decide, by decide⟩ h
  | error => rfl

theorem pattern_of_punctuation {c : Char} {kind : TokenKind} (h : punctuation? c = some kind) :
    pattern (some kind) = one {c} := by
  rcases punctuation_cases h with ⟨rfl, rfl⟩ | ⟨rfl, rfl⟩ | ⟨rfl, rfl⟩ | ⟨rfl, rfl⟩ | ⟨rfl, rfl⟩ <;>
    rfl

/-- What is taken has the pattern of its kind, but for a stray character of ASCII. -/
theorem mem_pattern_munch (c : Char) (cs : List Char) :
    c :: cs.take (munch c cs).2 ∈ pattern (munch c cs).1 ∨
      munch c cs = (some .error, 0) ∧ c ∈ ascii := by
  have hm := munched c cs
  generalize munch c cs = r at hm
  cases hm with
  | blank hc =>
    refine .inl (.inl (mem_many_one.2
      ⟨List.cons_ne_nil _ _, List.forall_mem_cons.2 ⟨mem_blank.2 hc, ?_⟩⟩))
    rw [take_run]
    exact fun d hd => mem_blank.2 (List.mem_takeWhile_imp hd)
  | comment hc =>
    refine .inl (.inr (mem_one_mul.2 ⟨c, hc, _, mem_star_one.2 ?_, rfl⟩))
    rw [take_run]
    exact fun d hd => by simpa using List.mem_takeWhile_imp hd
  | ident hc =>
    refine .inl (mem_one_mul.2 ⟨c, mem_letter.2 hc, _, mem_star_one.2 ?_, rfl⟩)
    rw [take_run]
    exact fun d hd => mem_word.2 (List.mem_takeWhile_imp hd)
  | string hc =>
    have ht := take_stringTail cs
    left
    cases hclosed : (stringTail cs).1 with
    | true =>
      rw [hclosed] at ht
      exact mem_one_mul.2 ⟨c, hc, _, ht, rfl⟩
    | false =>
      rw [hclosed] at ht
      exact mem_one_mul.2 ⟨c, hc, _, ht, rfl⟩
  | punctuation hp =>
    left
    rw [pattern_of_punctuation hp]
    exact mem_one.2 ⟨c, rfl, rfl⟩
  | number hn =>
    have hpos : numberLength (c :: cs) ≠ 0 := by
      rw [hn]
      exact Nat.succ_ne_zero _
    have ht := take_numberLength hpos
    rw [hn, List.take_succ_cons] at ht
    exact .inl ht
  | error =>
    by_cases hc : c ∈ ascii
    · exact .inr ⟨rfl, hc⟩
    · exact .inl (mem_one.2 ⟨c, hc, rfl⟩)

/-- What is taken is at least as long as a match, and of its kind if it is no longer. -/
structure Reaches (c : Char) (cs : List Char) (kind : Option TokenKind) (taken : List Char) :
    Prop where
  length : taken.length ≤ (munch c cs).2 + 1
  kind : taken.length = (munch c cs).2 + 1 → (munch c cs).1 = kind

namespace Reaches

variable {c d : Char} {cs taken rest : List Char} {kind : Option TokenKind}

theorem of_munch {n : Nat} (h : munch c cs = (kind, n)) (hn : taken.length ≤ n + 1) :
    Reaches c cs kind taken := by
  constructor <;> rw [h]
  · exact hn
  · exact fun _ => rfl

theorem of_run {p : Char → Bool} (h : munch d (taken ++ rest) = (kind, run p (taken ++ rest)))
    (ht : ∀ b ∈ taken, p b) : Reaches d (taken ++ rest) kind (d :: taken) :=
  of_munch h (Nat.succ_le_succ (length_le_run ht rest))

theorem of_string {body : List Char} (h : body ∈ stringBody) (rest : List Char) :
    Reaches '"' (body ++ ['"'] ++ rest) (some .string) ('"' :: (body ++ ['"'])) := by
  have ht : stringTail (body ++ ['"'] ++ rest) = (true, 1 + body.length) := by
    rw [List.append_assoc]
    exact stringTail_append h ('"' :: rest)
  refine of_munch (n := 1 + body.length) (by rw [munch_quote, ht]; rfl) ?_
  rw [List.length_cons, List.length_append, List.length_singleton]
  omega

/-- A body whose string is closed later is not all that is taken. -/
theorem of_open {body : List Char} (h : body ∈ stringBody) (rest : List Char) :
    Reaches '"' (body ++ rest) (some .unterminatedString) ('"' :: body) := by
  have hclosed : (stringTail rest).1 = true → (stringTail rest).2 ≠ 0 := by
    fun_cases stringTail rest <;> simp_all
  constructor <;> rw [munch_quote, stringTail_append h, List.length_cons]
  · exact Nat.succ_le_succ (Nat.le_add_left _ _)
  · intro hlen
    have hzero : (stringTail rest).2 = 0 := by simp only at hlen; omega
    rw [if_neg fun ht => hclosed ht hzero]

theorem of_number (h : taken ∈ number) (ht : taken ++ rest = c :: cs) :
    Reaches c cs (some .number) taken := by
  obtain ⟨hne, hle⟩ := le_numberLength h rest
  have hpos := List.length_pos_of_ne_nil hne
  have hnumber : numberLength (c :: cs) ≠ 0 := by
    rw [← ht]
    omega
  obtain ⟨n, hn⟩ := Nat.exists_eq_succ_of_ne_zero hnumber
  rw [ht, hn] at hle
  exact of_munch (munch_number hn) hle

/-- No pattern matches more than is taken, and only its own matches all of it. -/
theorem of_mem (hm : taken ∈ pattern kind) (h : taken ++ rest = c :: cs) :
    Reaches c cs kind taken := by
  have hmark : ∀ {d : Char} {k : TokenKind}, punctuation? d = some k → taken ∈ one {d} →
      Reaches c cs (some k) taken := by
    rintro d k hd ⟨_, rfl, rfl⟩
    obtain ⟨rfl, rfl⟩ := List.cons.inj h
    exact of_munch (munch_punctuation hd _) (Nat.le_refl _)
  match kind with
  | none =>
    rcases hm with hm | hm
    · obtain ⟨d, hd, bs, hbs, rfl⟩ := mem_one_mul.1 hm
      obtain ⟨rfl, rfl⟩ := List.cons.inj h
      exact of_run (munch_blank (mem_blank.1 hd) _) fun b hb =>
        mem_blank.1 (mem_star_one.1 hbs b hb)
    · obtain ⟨_, rfl, bs, hbs, rfl⟩ := mem_one_mul.1 hm
      obtain ⟨rfl, rfl⟩ := List.cons.inj h
      exact of_run (munch_comment _) fun b hb => decide_eq_true (mem_star_one.1 hbs b hb)
  | some .openParen => exact hmark (d := '(') rfl hm
  | some .closeParen => exact hmark (d := ')') rfl hm
  | some .comma => exact hmark (d := ',') rfl hm
  | some .eq => exact hmark (d := '=') rfl hm
  | some .colon => exact hmark (d := ':') rfl hm
  | some .number => exact of_number hm h
  | some .string =>
    obtain ⟨_, rfl, tail, htail, rfl⟩ := mem_one_mul.1 hm
    obtain ⟨body, hbody, _, ⟨_, rfl, rfl⟩, rfl⟩ := Language.mem_mul.1 htail
    obtain ⟨rfl, rfl⟩ := List.cons.inj h
    exact of_string hbody rest
  | some .unterminatedString =>
    obtain ⟨_, rfl, body, hbody, rfl⟩ := mem_one_mul.1 hm
    obtain ⟨rfl, rfl⟩ := List.cons.inj h
    exact of_open hbody rest
  | some .ident =>
    obtain ⟨d, hd, bs, hbs, rfl⟩ := mem_one_mul.1 hm
    obtain ⟨rfl, rfl⟩ := List.cons.inj h
    exact of_run (munch_ident (mem_letter.1 hd) _) fun b hb =>
      mem_word.1 (mem_star_one.1 hbs b hb)
  | some .error =>
    obtain ⟨d, hd, rfl⟩ := mem_one.1 hm
    obtain ⟨rfl, rfl⟩ := List.cons.inj h
    exact of_munch (munch_of_notMem_ascii hd _) (Nat.le_refl _)

end Reaches

theorem ne_nil_of_mem_pattern {kind : Option TokenKind} {cs : List Char} (h : cs ∈ pattern kind) :
    cs ≠ [] := by
  have hcons : ∀ {s : Set Char} {l : Language Char}, cs ∈ one s * l → cs ≠ [] := by
    intro s l h
    obtain ⟨c, -, rest, -, rfl⟩ := mem_one_mul.1 h
    exact List.cons_ne_nil c rest
  have hone : ∀ {s : Set Char}, cs ∈ one s → cs ≠ [] := by
    rintro s ⟨c, -, rfl⟩
    exact List.cons_ne_nil c []
  match kind with
  | none => exact h.elim hcons hcons
  | some .number => exact (le_numberLength h []).1
  | some .string | some .unterminatedString | some .ident => exact hcons h
  | some .openParen | some .closeParen | some .comma | some .eq | some .colon | some .error =>
    exact hone h

/-- What stands at the start of a text before `rest`: the longest match of all patterns, or a single
character where none matches. -/
inductive IsFirst (rest : List Char) : Option TokenKind → List Char → Prop
  | longest {kind : Option TokenKind} {cs : List Char} (hm : cs ∈ pattern kind)
    (hl : ∀ kind' taken, taken ∈ pattern kind' → taken <+: cs ++ rest →
      taken <+: cs ∧ (taken = cs → kind' = kind)) : IsFirst rest kind cs
  | stray {c : Char} (h : ∀ kind taken, taken ∈ pattern kind → ¬ taken <+: c :: rest) :
    IsFirst rest (some .error) [c]

theorem isFirst_of_munch {kind : Option TokenKind} {c : Char} {cs rest : List Char}
    (h : munch c (cs ++ rest) = (kind, cs.length)) : IsFirst rest kind (c :: cs) := by
  have hmem := mem_pattern_munch c (cs ++ rest)
  have hreach : ∀ kind' taken, taken ∈ pattern kind' → taken <+: c :: (cs ++ rest) →
      taken.length ≤ cs.length + 1 ∧ (taken.length = cs.length + 1 → kind' = kind) := by
    rintro kind' taken hm ⟨after, ha⟩
    have hr := Reaches.of_mem hm ha
    have hlen := hr.length
    have hkind := hr.kind
    rw [h] at hlen hkind
    exact ⟨hlen, fun he => (hkind he).symm⟩
  rw [h, List.take_left] at hmem
  rcases hmem with hmem | ⟨herror, hc⟩
  · refine .longest hmem fun kind' taken hm hp => ?_
    obtain ⟨hlen, hkind⟩ := hreach kind' taken hm hp
    exact ⟨List.prefix_of_prefix_length_le hp (List.prefix_append _ rest) hlen,
      fun he => hkind (by rw [he]; rfl)⟩
  · obtain ⟨rfl, hlen⟩ := Prod.mk.inj herror
    obtain rfl := List.length_eq_zero_iff.1 hlen
    refine .stray fun kind' taken hm hp => ?_
    -- a match would be the character alone, and be an error only if it is not of ASCII
    obtain ⟨hle, hkind⟩ := hreach kind' taken hm hp
    have hpos := List.length_pos_of_ne_nil (ne_nil_of_mem_pattern hm)
    obtain rfl := hkind (Nat.le_antisymm hle hpos)
    obtain ⟨d, hd, rfl⟩ := mem_one.1 hm
    obtain ⟨rfl, -⟩ := List.cons_prefix_cons.1 hp
    exact hd hc

theorem IsFirst.exists_munch {kind : Option TokenKind} {cs rest : List Char}
    (h : IsFirst rest kind cs) :
    ∃ c more, cs = c :: more ∧ munch c (more ++ rest) = (kind, more.length) := by
  cases h with
  | stray h =>
    refine ⟨_, [], rfl, ?_⟩
    rcases mem_pattern_munch _ rest with hmem | ⟨hm, -⟩
    · exact absurd (List.cons_prefix_cons.2 ⟨rfl, List.take_prefix _ _⟩) (h _ _ hmem)
    · exact hm
  | longest hm hl =>
    obtain ⟨c, more, rfl⟩ := List.exists_cons_of_ne_nil (ne_nil_of_mem_pattern hm)
    have hcons : c :: more ++ rest = c :: (more ++ rest) := rfl
    have hreach := Reaches.of_mem hm hcons
    have hle := munch_le c (more ++ rest)
    refine ⟨c, more, rfl, ?_⟩
    -- neither of the two matches is longer than the other
    have hlen : (munch c (more ++ rest)).2 ≤ more.length := by
      rcases mem_pattern_munch c (more ++ rest) with hmem | ⟨hmunch, -⟩
      · have hp := (hl _ _ hmem (List.cons_prefix_cons.2 ⟨rfl, List.take_prefix _ _⟩)).1.length_le
        rw [List.length_cons, List.length_take, Nat.min_eq_left hle, List.length_cons] at hp
        exact Nat.le_of_succ_le_succ hp
      · rw [hmunch]
        exact Nat.zero_le _
    have heq := Nat.le_antisymm hlen (Nat.le_of_succ_le_succ hreach.length)
    exact Prod.ext (hreach.kind (by rw [heq]; rfl)) heq

end Lexeme

/-- A token has the pattern of its kind, if it is not a stray character. -/
theorem Excerpt.mem_pattern_of_mem {e : Excerpt} {ts : List Token} {t : Token}
    (h : e.tokens = .ok ts) (ht : t ∈ ts) (hk : t.kind ≠ .error) :
    t.text.toList ∈ Lexeme.pattern (some t.kind) := by
  obtain ⟨c, rest, hl⟩ := Lexeme.exists_munch_of_mem (Token.mem_of_place h ht)
  obtain ⟨hkind, hchars⟩ := Lexeme.mk.inj hl
  rw [hkind, hchars]
  refine (Lexeme.mem_pattern_munch c rest).resolve_right fun ⟨hstray, _⟩ => hk ?_
  rw [hstray] at hkind
  exact Option.some.inj hkind

end ShapeAssembly
