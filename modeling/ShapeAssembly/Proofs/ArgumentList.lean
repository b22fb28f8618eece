import Mathlib.Data.List.Forall2
import ShapeAssembly.Call
import ShapeAssembly.Proofs.WellFormed

namespace ShapeAssembly

theorem bind_eq_ok {ε α β : Type} {x : Except ε α} {f : α → Except ε β} {b : β} :
    x >>= f = .ok b ↔ ∃ a, x = .ok a ∧ f a = .ok b := by
  cases x with
  | error e =>
    constructor
    · intro h
      cases h
    · rintro ⟨a, h, -⟩
      cases h
  | ok a =>
    constructor
    · intro h
      exact ⟨a, rfl, h⟩
    · rintro ⟨a', h, hf⟩
      cases h
      exact hf

theorem bind_eq_error {ε α β : Type} {x : Except ε α} {f : α → Except ε β} {e : ε} :
    x >>= f = .error e ↔ x = .error e ∨ ∃ a, x = .ok a ∧ f a = .error e := by
  cases x with
  | error e' =>
    constructor
    · exact fun h => .inl (congrArg _ (Except.error.inj h))
    · rintro (h | ⟨a, h, -⟩)
      · exact congrArg _ (Except.error.inj h)
      · cases h
  | ok a =>
    constructor
    · exact fun h => .inr ⟨a, rfl, h⟩
    · rintro (h | ⟨a', h, hf⟩)
      · cases h
      · cases h
        exact hf

theorem map_eq_ok {ε α β : Type} {x : Except ε α} {f : α → β} {b : β} :
    f <$> x = .ok b ↔ ∃ a, x = .ok a ∧ f a = b := by
  have h : f <$> x = x >>= fun a => .ok (f a) := by cases x <;> rfl
  rw [h, bind_eq_ok]
  simp only [Except.ok.injEq]

theorem map_eq_error {ε α β : Type} {x : Except ε α} {f : α → β} {e : ε} :
    f <$> x = .error e ↔ x = .error e := by
  have h : f <$> x = x >>= fun a => .ok (f a) := by cases x <;> rfl
  rw [h, bind_eq_error]
  simp only [reduceCtorEq, and_false, exists_false, or_false]

section

variable {ε α β : Type} {f : α → Except ε β} {as : List α}

theorem mapM_eq_ok {bs : List β} :
    as.mapM f = .ok bs ↔ List.Forall₂ (fun a b => f a = .ok b) as bs := by
  induction as generalizing bs with
  | nil =>
    rw [List.mapM_nil, List.forall₂_nil_left_iff]
    exact ⟨fun h => (Except.ok.inj h).symm, fun h => congrArg _ h.symm⟩
  | cons a as ih =>
    rw [List.mapM_cons, List.forall₂_cons_left_iff, bind_eq_ok]
    constructor
    · rintro ⟨b, hb, h⟩
      obtain ⟨bs, hbs, h⟩ := bind_eq_ok.1 h
      exact ⟨b, bs, hb, ih.1 hbs, (Except.ok.inj h).symm⟩
    · rintro ⟨b, bs, hb, hbs, rfl⟩
      exact ⟨b, hb, bind_eq_ok.2 ⟨bs, ih.2 hbs, rfl⟩⟩

/-- The first failure ends the whole. -/
theorem mapM_eq_error {e : ε} :
    as.mapM f = .error e ↔ ∃ before a after, as = before ++ a :: after ∧
      (∀ b ∈ before, ∃ y, f b = .ok y) ∧ f a = .error e := by
  induction as with
  | nil =>
    constructor
    · intro h
      cases h
    · rintro ⟨before, a, after, h, -⟩
      cases before <;> cases h
  | cons a as ih =>
    have hcons : (a :: as).mapM f = .error e ↔
        f a = .error e ∨ ∃ b, f a = .ok b ∧ as.mapM f = .error e := by
      rw [List.mapM_cons, bind_eq_error]
      simp only [bind_eq_error, pure, Except.pure, reduceCtorEq, and_false, exists_false, or_false]
    rw [hcons]
    constructor
    · rintro (ha | ⟨b, ha, has⟩)
      · exact ⟨[], a, as, rfl, fun b hb => absurd hb List.not_mem_nil, ha⟩
      · obtain ⟨before, c, after, rfl, hbefore, hc⟩ := ih.1 has
        exact ⟨a :: before, c, after, rfl, List.forall_mem_cons.2 ⟨⟨b, ha⟩, hbefore⟩, hc⟩
    · rintro ⟨before, c, after, h, hbefore, hc⟩
      cases before with
      | nil =>
        obtain ⟨rfl, rfl⟩ := List.cons.inj h
        exact .inl hc
      | cons b before =>
        obtain ⟨rfl, rfl⟩ := List.cons.inj h
        obtain ⟨⟨y, hy⟩, hbefore⟩ := List.forall_mem_cons.1 hbefore
        exact .inr ⟨y, hy, ih.2 ⟨before, c, after, rfl, hbefore, hc⟩⟩

end

theorem exists_of_mem_forall₂ {α β : Type} {R : α → β → Prop} {as : List α} {bs : List β}
    (h : List.Forall₂ R as bs) {a : α} (ha : a ∈ as) : ∃ b ∈ bs, R a b := by
  induction h with
  | nil => cases ha
  | cons hr _ ih =>
    rcases List.mem_cons.1 ha with rfl | ha
    · exact ⟨_, List.mem_cons_self, hr⟩
    · obtain ⟨b, hb, hab⟩ := ih ha
      exact ⟨b, List.mem_cons_of_mem _ hb, hab⟩

namespace Token

/-- Tokens with a comma between each two. -/
inductive Listed : List Token → List Token → Prop
  | nil : Listed [] []
  | single (t : Token) : Listed [t] [t]
  | cons {t comma u : Token} {args ts : List Token} (hc : comma.kind = .comma)
      (h : Listed (u :: args) ts) : Listed (t :: u :: args) (t :: comma :: ts)

theorem exists_listed {ws : List Word} {ts : List Token}
    (h : ts.map word = ws.intersperse .comma) : ∃ args, Listed args ts ∧ args.map word = ws := by
  match ws with
  | [] =>
    obtain rfl : ts = [] := by simpa using h
    exact ⟨[], .nil, rfl⟩
  | [w] =>
    obtain ⟨t, rfl, ht⟩ : ∃ t, ts = [t] ∧ t.word = w := by simpa using h
    exact ⟨[t], .single t, by rw [← ht]; rfl⟩
  | w :: v :: ws =>
    rw [List.intersperse_cons_cons] at h
    match ts with
    | [] => simp at h
    | [t] => simp at h
    | t :: c :: ts =>
      simp only [List.map_cons, List.cons.injEq] at h
      obtain ⟨ht, hc, hts⟩ := h
      obtain ⟨args, hl, ha⟩ := exists_listed hts
      match args with
      | [] => simp at ha
      | u :: args =>
        refine ⟨t :: u :: args, .cons (congrArg Word.kind hc) hl, ?_⟩
        rw [List.map_cons, ht, ha]

theorem Listed.eq_nil {ts : List Token} (h : Listed [] ts) : ts = [] := by
  cases h
  rfl

theorem Listed.words {args ts : List Token} (h : Listed args ts)
    (hs : ∀ t ∈ ts, t.kind = .comma → t.word = .comma) :
    ts.map word = (args.map word).intersperse .comma := by
  induction h with
  | nil | single => rfl
  | @cons t c u args ts hc h ih =>
    rw [List.map_cons, List.map_cons, List.map_cons, List.map_cons, List.intersperse_cons_cons,
      hs c (by simp) hc, ih fun t ht => hs t (by simp [ht]), List.map_cons]

theorem Listed.mem {args ts : List Token} (h : Listed args ts) {t : Token} (ht : t ∈ ts) :
    t ∈ args ∨ t.kind = .comma := by
  induction h with
  | nil => simp at ht
  | single u => exact .inl ht
  | cons hc h ih =>
    rcases List.mem_cons.1 ht with rfl | ht
    · exact .inl List.mem_cons_self
    rcases List.mem_cons.1 ht with rfl | ht
    · exact .inr hc
    · exact (ih ht).imp_left (List.mem_cons_of_mem _)

def depthAfter (depth : Nat) (t : Token) : Nat :=
  match t.kind with
  | .openParen => depth + 1
  | .closeParen => depth - 1
  | _ => depth

theorem depthAfter_eq {depth : Nat} {t : Token} (ho : t.kind ≠ .openParen)
    (hc : t.kind ≠ .closeParen) : t.depthAfter depth = depth := by
  unfold depthAfter
  split
  · exact absurd ‹_› ho
  · exact absurd ‹_› hc
  · rfl

theorem Listed.sublist {args ts : List Token} (h : Listed args ts) : args.Sublist ts := by
  induction h with
  | nil => exact .slnil
  | single t => exact .refl _
  | cons hc h ih => exact (ih.cons _).cons_cons _

theorem splitAtCommas_cons (depth : Nat) (t : Token) (ts : List Token) :
    splitAtCommas depth (t :: ts) =
      if t.kind = .comma ∧ depth = 0 then
        ([], (t, (splitAtCommas depth ts).1) :: (splitAtCommas depth ts).2)
      else (t :: (splitAtCommas (t.depthAfter depth) ts).1,
        (splitAtCommas (t.depthAfter depth) ts).2) := rfl

theorem splitAtClose?_cons (depth : Nat) (t : Token) (ts : List Token) :
    splitAtClose? depth (t :: ts) =
      if t.kind = .closeParen ∧ depth = 0 then some ([], t, ts)
      else (splitAtClose? (t.depthAfter depth) ts).map
        fun (inner, close, rest) => (t :: inner, close, rest) := rfl

theorem splitAtCommas_lossless (depth : Nat) (ts : List Token) :
    (splitAtCommas depth ts).1 ++ (splitAtCommas depth ts).2.flatMap (fun p => p.1 :: p.2) = ts ∧
      ∀ p ∈ (splitAtCommas depth ts).2, p.1.kind = .comma := by
  induction ts generalizing depth with
  | nil => exact ⟨rfl, by simp [splitAtCommas]⟩
  | cons t ts ih =>
    rw [splitAtCommas_cons]
    split
    · rename_i h
      refine ⟨by simp [ih depth], ?_⟩
      intro p hp
      rcases List.mem_cons.1 hp with rfl | hp
      · exact h.1
      · exact (ih depth).2 p hp
    · exact ⟨by simp [ih], (ih _).2⟩

theorem splitAtClose?_eq_some {depth : Nat} {ts inner rest : List Token} {close : Token}
    (h : splitAtClose? depth ts = some (inner, close, rest)) :
    ts = inner ++ close :: rest ∧ close.kind = .closeParen := by
  induction ts generalizing depth inner with
  | nil => simp [splitAtClose?] at h
  | cons t ts ih =>
    rw [splitAtClose?_cons] at h
    split at h
    · rename_i hc
      simp only [Option.some.injEq, Prod.mk.injEq] at h
      obtain ⟨rfl, rfl, rfl⟩ := h
      exact ⟨rfl, hc.1⟩
    · simp only [Option.map_eq_some_iff, Prod.mk.injEq] at h
      obtain ⟨⟨inner', close', rest'⟩, hs, rfl, rfl, rfl⟩ := h
      obtain ⟨hts, hk⟩ := ih hs
      exact ⟨by rw [hts]; rfl, hk⟩

theorem splitAtClose?_append {inner : List Token} {close : Token} (rest : List Token)
    (hi : ∀ t ∈ inner, t.kind ≠ .openParen ∧ t.kind ≠ .closeParen)
    (hc : close.kind = .closeParen) :
    splitAtClose? 0 (inner ++ close :: rest) = some (inner, close, rest) := by
  induction inner with
  | nil => simp [splitAtClose?, hc]
  | cons t ts ih =>
    have ht := hi t List.mem_cons_self
    rw [List.cons_append, splitAtClose?_cons, if_neg (by simp [ht.2]),
      depthAfter_eq ht.1 ht.2, ih fun u hu => hi u (List.mem_cons_of_mem _ hu)]
    rfl

def argument (t : Token) : RawArgument := ⟨t.name, some t.kind⟩

end Token

namespace RawArgument

theorem token_ofTokens_cons (source : Excerpt) (t u : Token) (ts : List Token) :
    (ofTokens source t (u :: ts)).token = none := rfl

theorem ofSegments_cons (source : Excerpt) (t : Token) (ts : List Token) (comma : Token)
    (next : List Token) (more : List (Token × List Token)) (h : ¬ (next = [] ∧ more = [])) :
    ofSegments source (t :: ts) ((comma, next) :: more) =
      (ofTokens source t ts :: ·) <$> ofSegments source next more := by
  rw [ofSegments]
  simp only [List.isEmpty_iff]
  rw [if_neg h]

/-- Single tokens between commas are the arguments. -/
theorem split_of_listed {args ts : List Token} (source : Excerpt) (h : Token.Listed args ts)
    (ha : ∀ t ∈ args, Lexeme.IsAtom t.kind) :
    split source ts = .ok (args.map Token.argument) := by
  -- the induction also needs that no segment but the only one is empty
  have hs : ofSegments source (Token.splitAtCommas 0 ts).1 (Token.splitAtCommas 0 ts).2 =
      .ok (args.map Token.argument) ∧ (args ≠ [] → (Token.splitAtCommas 0 ts).1 ≠ []) := by
    have hk : ∀ t : Token, Lexeme.IsAtom t.kind →
        t.kind ≠ .comma ∧ t.kind ≠ .openParen ∧ t.kind ≠ .closeParen := by
      intro t ht
      rcases ht with ht | ht <;> rw [ht] <;> decide
    induction h with
    | nil => exact ⟨rfl, fun h => absurd rfl h⟩
    | single t =>
      obtain ⟨h1, h2, h3⟩ := hk t (ha t List.mem_cons_self)
      rw [Token.splitAtCommas_cons, if_neg (by simp [h1]), Token.splitAtCommas]
      exact ⟨rfl, by simp⟩
    | @cons t c u args ts hc h ih =>
      obtain ⟨h1, h2, h3⟩ := hk t (ha t List.mem_cons_self)
      obtain ⟨hseg, hne⟩ := ih fun v hv => ha v (List.mem_cons_of_mem _ hv)
      rw [Token.splitAtCommas_cons, if_neg (by simp [h1]), Token.depthAfter_eq h2 h3,
        Token.splitAtCommas_cons, if_pos ⟨hc, rfl⟩]
      refine ⟨?_, by simp⟩
      rw [ofSegments_cons _ _ _ _ _ _ fun hn => hne (by simp) hn.1, hseg]
      rfl
  exact hs.1

/-- Arguments of one token each stand between commas. -/
theorem listed_of_ofSegments {source : Excerpt} {segment : List Token}
    {more : List (Token × List Token)} {as : List RawArgument}
    (h : ofSegments source segment more = .ok as) (hc : ∀ p ∈ more, p.1.kind = .comma)
    (ha : ∀ a ∈ as, a.token ≠ none) :
    ∃ args, Token.Listed args (segment ++ more.flatMap fun p => p.1 :: p.2) ∧
      as = args.map Token.argument := by
  have hsingle : ∀ t ts, (ofTokens source t ts).token ≠ none → ts = [] := by
    intro t ts ht
    cases ts with
    | nil => rfl
    | cons u ts => exact absurd (token_ofTokens_cons source t u ts) ht
  induction more generalizing segment as with
  | nil =>
    match segment with
    | [] =>
      obtain rfl := Except.ok.inj h
      exact ⟨[], .nil, rfl⟩
    | t :: ts =>
      obtain rfl := Except.ok.inj h
      obtain rfl := hsingle t ts (ha _ List.mem_cons_self)
      exact ⟨[t], .single t, rfl⟩
  | cons p more ih =>
    obtain ⟨comma, next⟩ := p
    match segment with
    | [] => simp [ofSegments] at h
    | t :: ts =>
      by_cases hn : next = [] ∧ more = []
      · rw [hn.1, hn.2] at h
        simp [ofSegments] at h
      · rw [ofSegments_cons _ _ _ _ _ _ hn, map_eq_ok] at h
        obtain ⟨rest, hrest, rfl⟩ := h
        obtain rfl := hsingle t ts (ha _ List.mem_cons_self)
        obtain ⟨args, hl, rfl⟩ := ih hrest (fun p hp => hc p (List.mem_cons_of_mem _ hp))
          fun a h => ha a (List.mem_cons_of_mem _ h)
        match args with
        | [] =>
          -- a comma before nothing is the fault that `hn` excludes
          obtain ⟨h1, h2⟩ := List.append_eq_nil_iff.1 hl.eq_nil
          cases more with
          | nil => exact absurd ⟨h1, rfl⟩ hn
          | cons q more => simp at h2
        | u :: args =>
          exact ⟨t :: u :: args, .cons (hc (comma, next) List.mem_cons_self) hl, rfl⟩

theorem listed_of_split {source : Excerpt} {ts : List Token} {as : List RawArgument}
    (h : split source ts = .ok as) (ha : ∀ a ∈ as, a.token ≠ none) :
    ∃ args, Token.Listed args ts ∧ as = args.map Token.argument := by
  have hl := Token.splitAtCommas_lossless 0 ts
  have hs := listed_of_ofSegments h hl.2 ha
  rwa [hl.1] at hs

end RawArgument

namespace Call

theorem read_append {source : Excerpt} {head : Span} {args inner : List Token}
    {opening close : Token} (ho : opening.kind = .openParen) (hc : close.kind = .closeParen)
    (hl : Token.Listed args inner) (ha : ∀ t ∈ args, Lexeme.IsAtom t.kind) :
    read source head (opening :: (inner ++ [close])) =
      .ok ⟨args.map Token.argument, opening.span.merge close.span⟩ := by
  have hk : ∀ t ∈ inner, t.kind = .ident ∨ t.kind = .number ∨ t.kind = .comma := by
    intro t ht
    rcases hl.mem ht with h | h
    · exact (ha t h).imp_right .inl
    · exact .inr (.inr h)
  -- so the first closing parenthesis is the last token
  have hp : ∀ t ∈ inner, t.kind ≠ .openParen ∧ t.kind ≠ .closeParen := by
    intro t ht
    rcases hk t ht with h | h | h <;> rw [h] <;> decide
  have he : inner.find? (·.kind = .error) = none := by
    rw [List.find?_eq_none]
    intro t ht
    rcases hk t ht with h | h | h <;> rw [h] <;> decide
  rw [read, if_neg (by simp [ho]), Token.splitAtClose?_append [] hp hc]
  simp only [he, RawArgument.split_of_listed source hl ha]
  rfl

/-- A list that is read is one pair of parentheses around arguments. -/
theorem read_eq_ok {source : Excerpt} {head : Span} {ts : List Token} {call : Call}
    (h : read source head ts = .ok call) :
    ∃ opening inner close, ts = opening :: (inner ++ [close]) ∧ opening.kind = .openParen ∧
      close.kind = .closeParen ∧ RawArgument.split source inner = .ok call.arguments := by
  match ts with
  | [] => cases h
  | t :: ts =>
    rw [read] at h
    split at h
    · cases h
    · rename_i ho
      split at h
      · cases h
      · rename_i inner close rest hs
        obtain ⟨rfl, hc⟩ := Token.splitAtClose?_eq_some hs
        split at h
        · cases h
        · cases h
        · rw [map_eq_ok] at h
          obtain ⟨args, hargs, rfl⟩ := h
          exact ⟨t, inner, close, rfl, by simpa using ho, hc, hargs⟩

end Call

end ShapeAssembly
