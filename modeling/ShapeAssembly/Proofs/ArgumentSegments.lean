import ShapeAssembly.Proofs.BalancedLists
import ShapeAssembly.Proofs.CheckedStatements

namespace ShapeAssembly

namespace Token

variable {depth : Nat} {t : Token} {ts first : List Token} {more : List (Token × List Token)}

def joined (first : List Token) (more : List (Token × List Token)) : List Token :=
  first ++ more.flatMap fun p => p.1 :: p.2

theorem joined_cons (first : List Token) (p : Token × List Token)
    (more : List (Token × List Token)) :
    joined first (p :: more) = first ++ p.1 :: joined p.2 more :=
  rfl

theorem joined_nil (first : List Token) : joined first [] = first := List.append_nil first

theorem Cut.joined_eq (h : Cut depth ts first more) : joined first more = ts := by
  have hlossless := (splitAtCommas_lossless depth ts).1
  rwa [cut_iff.1 h] at hlossless

theorem depthFrom_append (depth : Nat) (ts us : List Token) :
    depthFrom depth (ts ++ us) = depthFrom (depthFrom depth ts) us :=
  List.foldl_append

theorem depthFrom_comma (h : t.kind = .comma) (depth : Nat) (ts : List Token) :
    depthFrom depth (t :: ts) = depthFrom depth ts := by
  have hdepth : t.depthAfter depth = depth := depthAfter_eq (by simp [h]) (by simp [h])
  rw [depthFrom, List.foldl_cons, hdepth, ← depthFrom]

/-- The commas of a cut are those that no parenthesis is open at. -/
theorem Cut.comma_iff (h : Cut depth ts first more) {before after : List Token} {c : Token} :
    (ts = before ++ c :: after ∧ c.kind = .comma ∧ depthFrom depth before = 0) ↔
      ∃ front s back, more = front ++ (c, s) :: back ∧ before = joined first front ∧
        after = joined s back := by
  induction h generalizing before with
  | whole h =>
    constructor
    · rintro ⟨hts, hc, hd⟩
      exact absurd hd (h before c after hts hc)
    · rintro ⟨front, s, back, hmore, -⟩
      exact absurd hmore.symm (by simp)
  | @comma depth s ts next comma more h hd hc hs ih =>
    constructor
    · rintro ⟨hts, hk, hdepth⟩
      have hfirst : s = before → ∃ front s' back, (comma, next) :: more = front ++ (c, s') :: back ∧
          before = joined s front ∧ after = joined s' back := by
        rintro rfl
        obtain ⟨rfl, rfl⟩ := List.cons.inj (List.append_cancel_left hts)
        exact ⟨[], next, more, rfl, (joined_nil s).symm, hs.joined_eq.symm⟩
      rcases List.append_eq_append_iff.1 hts with ⟨as, rfl, hrest⟩ | ⟨as, rfl, hrest⟩
      · cases as with
        | nil => exact hfirst (List.append_nil s).symm
        | cons a as =>
          obtain ⟨rfl, hmore⟩ := List.cons.inj hrest
          rw [depthFrom_append, hd, depthFrom_comma hc] at hdepth
          obtain ⟨front, s', back, rfl, rfl, rfl⟩ := ih.1 ⟨hmore, hk, hdepth⟩
          exact ⟨(comma, next) :: front, s', back, rfl, rfl, rfl⟩
      · cases as with
        | nil => exact hfirst (List.append_nil before)
        | cons a as =>
          -- the first segment has no such comma
          obtain ⟨rfl, -⟩ := List.cons.inj hrest
          exact absurd hdepth (h before c as rfl hk)
    · rintro ⟨front, s', back, hmore, rfl, rfl⟩
      cases front with
      | nil =>
        cases hmore
        rw [joined_nil, hs.joined_eq]
        exact ⟨rfl, hc, hd⟩
      | cons p front =>
        obtain ⟨rfl, hrest⟩ := List.cons.inj hmore
        obtain ⟨hts, hk, hdepth⟩ := ih.2 ⟨front, s', back, hrest, rfl, rfl⟩
        rw [joined_cons, depthFrom_append, hd, depthFrom_comma hc]
        refine ⟨?_, hk, hdepth⟩
        rw [List.append_assoc, List.cons_append, ← hts]

/-- The first empty segment, and the comma after it, or before it if it is the last. -/
structure EmptyAt (first : List Token) (more : List (Token × List Token)) (i : Nat)
    (comma : Token) : Prop where
  empty : (first :: more.map (·.2))[i]? = some []
  before : ∀ j < i, (first :: more.map (·.2))[j]? ≠ some []
  comma : (more.map (·.1))[i]? = some comma ∨
    i = more.length ∧ (more.map (·.1)).getLast? = some comma

theorem MissingAt.exists_index {comma : Token} (h : MissingAt first more comma) :
    ∃ i, EmptyAt first more i comma := by
  induction h with
  | before => exact ⟨0, rfl, fun j hj => absurd hj (Nat.not_lt_zero j), .inl rfl⟩
  | @after s comma hne =>
    refine ⟨1, rfl, fun j hj => ?_, .inr ⟨rfl, rfl⟩⟩
    obtain rfl := Nat.lt_one_iff.1 hj
    exact fun hs => hne (Option.some.inj hs)
  | @later s next c comma more hne hs ih =>
    obtain ⟨i, hempty, hbefore, hcomma⟩ := ih
    refine ⟨i + 1, hempty, fun j hj => ?_, hcomma.imp id fun ⟨hlen, hlast⟩ => ⟨?_, ?_⟩⟩
    · cases j with
      | zero => exact fun hs => hne (Option.some.inj hs)
      | succ j => exact hbefore j (Nat.lt_of_succ_lt_succ hj)
    · rw [List.length_cons, hlen]
    · rw [List.map_cons, List.getLast?_cons, hlast]
      rfl

/-- Tokens that follow one another reach from the start of the first to the end of the last. -/
theorem reach_of_inTurn {whole : Span} (h : Span.InTurn ((t :: ts).map (·.span)) whole) :
    t.reach ts = ⟨t.span.start, (ts.getLast?.getD t).span.stop⟩ := by
  have hlast : t.span.start ≤ (ts.getLast?.getD t).span.start ∧
      t.span.stop ≤ (ts.getLast?.getD t).span.stop := by
    cases hl : ts.getLast? with
    | none => exact ⟨le_rfl, le_rfl⟩
    | some last =>
      have hmem := List.mem_of_getLast? hl
      have hle := (List.pairwise_cons.1 (List.pairwise_map.1 h.ordered)).1 last hmem
      have hlt := List.forall_mem_map.1 h.nonempty
      have hfirst := hlt t List.mem_cons_self
      have hsecond := hlt last (List.mem_cons_of_mem t hmem)
      exact ⟨hfirst.le.trans hle, hle.trans hsecond.le⟩
  rw [reach, Span.merge, min_eq_left hlast.1, max_eq_right hlast.2]

end Token

namespace RawArgument

open Token

variable {source line : Excerpt} {all s ts first : List Token} {a : RawArgument}
  {more : List (Token × List Token)}

structure Covers (source : Excerpt) (s : List Token) (a : RawArgument) : Prop where
  start : ∃ t ∈ s.head?, a.span.start = t.span.start
  stop : ∃ t ∈ s.getLast?, a.span.stop = t.span.stop
  text : source.slice? a.span = some a.text.val
  token : ∀ kind, a.token = some kind ↔ s.map (·.kind) = [kind]

theorem kind?_eq_some {kind : TokenKind} :
    Mark.kind? (s.map Token.mark) = some kind ↔ s.map (·.kind) = [kind] := by
  rcases s with - | ⟨t, - | ⟨u, s⟩⟩ <;> simp [Mark.kind?, Token.mark]

theorem covers_of_isOf (hp : line.IsPart source) (hs : ∀ t ∈ s, t.StandsIn line) {whole : Span}
    (hturn : Span.InTurn (s.map (·.span)) whole) (h : IsOf line s a) : Covers source s a := by
  obtain ⟨t, ts, rfl, rfl⟩ := h
  have hmarks := ofMarks?_eq hp hs
  rw [ofMarks?, Mark.spanOf?_eq, Option.bind_eq_bind, Option.bind_some] at hmarks
  obtain ⟨text, htext, heq⟩ := Option.bind_eq_some_iff.1 hmarks
  rw [← Option.some.inj heq]
  have hstart : (t.reach ts).start = t.span.start := by rw [reach_of_inTurn hturn]
  have hstop : (t.reach ts).stop = (ts.getLast?.getD t).span.stop := by
    rw [reach_of_inTurn hturn]
  exact ⟨⟨t, rfl, hstart⟩, ⟨_, List.getLast?_cons, hstop⟩, htext, fun kind => kind?_eq_some⟩

theorem split_of_cut (hcut : Cut 0 ts first more) :
    split source ts = ofSegments source first more := by
  rw [split, cut_iff.1 hcut]

/-- Segments that all have a token are the arguments. -/
theorem exists_split (hcut : Cut 0 ts first more) (hne : ts ≠ [])
    (hall : [] ∉ first :: more.map (·.2)) :
    ∃ as, split source ts = .ok as ∧ List.Forall₂ (IsOf source) (first :: more.map (·.2)) as := by
  rw [split_of_cut hcut]
  cases h : ofSegments source first more with
  | ok as =>
    rcases ofSegments_eq_ok.1 h with ⟨rfl, rfl, -⟩ | hof
    · exact absurd hcut.joined_eq.symm hne
    · exact ⟨as, rfl, hof⟩
  | error fault =>
    obtain ⟨comma, hmissing, -⟩ := ofSegments_eq_error.1 h
    obtain ⟨i, hempty, -⟩ := hmissing.exists_index
    exact absurd (List.mem_of_getElem? hempty) hall

/-- A segment without a token is reported, and of several the first. -/
theorem exists_emptyAt (hcut : Cut 0 ts first more) (hne : ts ≠ [])
    (hempty : [] ∈ first :: more.map (·.2)) :
    ∃ i comma, EmptyAt first more i comma ∧
      split source ts = .error (.ofSyntax .emptyArgument comma.span) := by
  rw [split_of_cut hcut]
  cases h : ofSegments source first more with
  | ok as =>
    rcases ofSegments_eq_ok.1 h with ⟨rfl, rfl, -⟩ | hof
    · exact absurd hcut.joined_eq.symm hne
    · obtain ⟨a, -, ha⟩ := exists_of_mem_forall₂ hof hempty
      exact absurd rfl ha.ne_nil
  | error fault =>
    obtain ⟨comma, hmissing, rfl⟩ := ofSegments_eq_error.1 h
    obtain ⟨i, hi⟩ := hmissing.exists_index
    exact ⟨i, comma, hi, rfl⟩

/-- Tokens of a line, whatever parentheses among them are closed, are cut at the commas outside of
parentheses. Without a token there is no argument. Otherwise every segment has to have a token and
is an argument, or the first empty one is reported, at the comma after it or at the last comma. -/
theorem split_segments (hp : line.IsPart source) (h : line.tokens = .ok all)
    (hts : ts.Sublist all) :
    ∃ first more, (∀ f m, Cut 0 ts f m ↔ f = first ∧ m = more) ∧ joined first more = ts ∧
      (∀ before comma after,
        (ts = before ++ comma :: after ∧ comma.kind = .comma ∧ depthFrom 0 before = 0) ↔
          ∃ front s back, more = front ++ (comma, s) :: back ∧ before = joined first front ∧
            after = joined s back) ∧
      ∃ result, split? source (ts.map Token.mark) = some result ∧ split line ts = result ∧
        (ts = [] → result = .ok []) ∧
        (ts ≠ [] → [] ∉ first :: more.map (·.2) →
          ∃ as, result = .ok as ∧ List.Forall₂ (Covers source) (first :: more.map (·.2)) as) ∧
        (ts ≠ [] → [] ∈ first :: more.map (·.2) → ∃ i comma fault, EmptyAt first more i comma ∧
          result = .error fault ∧ fault = .ofSyntax .emptyArgument comma.span ∧
            fault.message = "empty argument") := by
  obtain ⟨first, more, hcut⟩ : ∃ first more, Cut 0 ts first more := ⟨_, _, cut_iff.2 rfl⟩
  have hunique : ∀ f m, Cut 0 ts f m ↔ f = first ∧ m = more := fun f m => by
    rw [cut_iff, cut_iff.1 hcut, Prod.mk.injEq]
    exact and_congr eq_comm eq_comm
  have hstands : ∀ t ∈ ts, t.StandsIn line := fun t ht =>
    Excerpt.standsIn_of_tokens h t (hts.subset ht)
  refine ⟨first, more, hunique, hcut.joined_eq, fun before comma after => hcut.comma_iff, _,
    split?_eq hp hstands, rfl, ?_, fun hne hall => ?_, fun hne hempty => ?_⟩
  · rintro rfl
    rfl
  · obtain ⟨as, has, hof⟩ := exists_split hcut hne hall
    refine ⟨as, has, List.forall₂_iff_get.2 ⟨hof.length_eq, fun i hi hlt => ?_⟩⟩
    have hsublist := hcut.sublist _ (List.get_mem _ ⟨i, hi⟩)
    exact covers_of_isOf hp (fun t ht => hstands t (hsublist.subset ht))
      ((Excerpt.inTurn_tokens h).sublist ((hsublist.trans hts).map _)) (hof.get hi hlt)
  · obtain ⟨i, comma, hi, hsplit⟩ := exists_emptyAt hcut hne hempty
    exact ⟨i, comma, _, hi, hsplit, rfl, rfl⟩

/-- The first parenthesis closes nothing, and the second comma is after one that is still open. -/
theorem split_segments_unclosed :
    let line := Excerpt.whole "a),(b,"
    let before : List Token := [⟨.ident, "a", ⟨0, 1⟩⟩, ⟨.closeParen, ")", ⟨1, 2⟩⟩]
    let comma : Token := ⟨.comma, ",", ⟨2, 3⟩⟩
    let after : List Token :=
      [⟨.openParen, "(", ⟨3, 4⟩⟩, ⟨.ident, "b", ⟨4, 5⟩⟩, ⟨.comma, ",", ⟨5, 6⟩⟩]
    line.tokens = .ok (before ++ comma :: after) ∧
      ∃ as, split line (before ++ comma :: after) = .ok as ∧
        List.Forall₂ (Covers line) [before, after] as := by
  intro line before comma after
  have h : line.tokens = .ok (before ++ comma :: after) := by decide
  obtain ⟨first, more, hcut, -, -, result, -, hsplit, -, hok, -⟩ :=
    split_segments (.refl line) h (.refl _)
  obtain ⟨rfl, rfl⟩ := (hcut before [(comma, after)]).1 (cut_iff.2 (by decide))
  obtain ⟨as, has, hall⟩ := hok (by decide) (by decide)
  exact ⟨h, as, hsplit.trans has, hall⟩

end RawArgument

end ShapeAssembly
