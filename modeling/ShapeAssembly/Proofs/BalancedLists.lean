import ShapeAssembly.Proofs.ArgumentList

namespace ShapeAssembly

namespace Token

def opens (ts : List Token) : Nat := ts.countP (·.kind = .openParen)

def closes (ts : List Token) : Nat := ts.countP (·.kind = .closeParen)

/-- No part from the start on closes more parentheses than it opens, and the whole closes as many as
it opens. -/
structure Balanced (ts : List Token) : Prop where
  sane : ∀ before, before <+: ts → closes before ≤ opens before
  settled : closes ts = opens ts

/-- How deep in parentheses the text after some tokens is that start at a depth. A closing
parenthesis without an opening one does not count. -/
def depthFrom (depth : Nat) (ts : List Token) : Nat :=
  ts.foldl (fun depth t => t.depthAfter depth) depth

theorem opens_cons (t : Token) (ts : List Token) : opens (t :: ts) = opens [t] + opens ts :=
  @List.countP_append _ _ [t] ts

theorem closes_cons (t : Token) (ts : List Token) : closes (t :: ts) = closes [t] + closes ts :=
  @List.countP_append _ _ [t] ts

variable {depth : Nat} {t close : Token} {ts inner rest : List Token}

theorem closes_le_iff :
    closes [t] ≤ depth + opens [t] ↔ ¬ (t.kind = .closeParen ∧ depth = 0) := by
  by_cases hc : t.kind = .closeParen
  · simp [opens, closes, hc, Nat.one_le_iff_ne_zero]
  · simp [opens, closes, hc]

theorem depthAfter_add (h : closes [t] ≤ depth + opens [t]) :
    t.depthAfter depth + closes [t] = depth + opens [t] := by
  by_cases ho : t.kind = .openParen
  · simp [depthAfter, opens, closes, ho]
  · by_cases hc : t.kind = .closeParen
    · have hpos : depth ≠ 0 := fun h0 => closes_le_iff.1 h ⟨hc, h0⟩
      simp only [depthAfter, opens, closes, hc, List.countP_singleton]
      simp
      omega
    · simp [depthAfter_eq ho hc, opens, closes, ho, hc]

theorem sane_cons :
    (∀ before, before <+: t :: ts → closes before ≤ depth + opens before) ↔
      closes [t] ≤ depth + opens [t] ∧
        ∀ before, before <+: ts → closes before ≤ t.depthAfter depth + opens before := by
  constructor
  · intro h
    have ht := h [t] (List.prefix_append [t] ts)
    have hadd := depthAfter_add ht
    refine ⟨ht, fun before hb => ?_⟩
    have hmore := h (t :: before) ((List.prefix_cons_inj t).2 hb)
    rw [opens_cons, closes_cons] at hmore
    omega
  · rintro ⟨ht, h⟩ before hb
    have hadd := depthAfter_add ht
    rcases List.prefix_cons_iff.1 hb with rfl | ⟨more, rfl, hmore⟩
    · exact Nat.zero_le _
    · have hle := h more hmore
      rw [opens_cons, closes_cons]
      omega

/-- Where nothing is closed that is not open, the depth is what is still open. -/
theorem depthFrom_add (h : ∀ before, before <+: ts → closes before ≤ depth + opens before) :
    depthFrom depth ts + closes ts = depth + opens ts := by
  induction ts generalizing depth with
  | nil => rfl
  | cons t ts ih =>
    obtain ⟨ht, hts⟩ := sane_cons.1 h
    have hadd := depthAfter_add ht
    have hrest := ih hts
    rw [depthFrom, List.foldl_cons, ← depthFrom, opens_cons, closes_cons]
    omega

theorem sane_of_splitAtClose? (h : splitAtClose? depth ts = some (inner, close, rest)) :
    (∀ before, before <+: inner → closes before ≤ depth + opens before) ∧
      closes inner = depth + opens inner := by
  induction ts generalizing depth inner with
  | nil => cases h
  | cons t ts ih =>
    rw [splitAtClose?_cons] at h
    split at h
    · rename_i hk
      cases h
      rw [hk.2]
      exact ⟨fun before hb => by rw [List.prefix_nil.1 hb]; rfl, rfl⟩
    · rename_i hk
      obtain ⟨⟨inner, close, rest⟩, hs, hp⟩ := Option.map_eq_some_iff.1 h
      cases hp
      obtain ⟨hsane, hsettled⟩ := ih hs
      have ht := closes_le_iff.2 hk
      have hadd := depthAfter_add ht
      refine ⟨sane_cons.2 ⟨ht, hsane⟩, ?_⟩
      rw [opens_cons, closes_cons]
      omega

theorem splitAtClose?_of_sane (rest : List Token) (hc : close.kind = .closeParen)
    (hs : ∀ before, before <+: inner → closes before ≤ depth + opens before)
    (hw : closes inner = depth + opens inner) :
    splitAtClose? depth (inner ++ close :: rest) = some (inner, close, rest) := by
  induction inner generalizing depth with
  | nil =>
    have h0 : depth = 0 := (Nat.add_zero depth).symm.trans hw.symm
    rw [List.nil_append, splitAtClose?_cons, if_pos ⟨hc, h0⟩]
  | cons t inner ih =>
    obtain ⟨ht, hinner⟩ := sane_cons.1 hs
    have hadd := depthAfter_add ht
    rw [opens_cons, closes_cons] at hw
    rw [List.cons_append, splitAtClose?_cons, if_neg (closes_le_iff.1 ht), ih hinner (by omega)]
    rfl

/-- The parenthesis that closes an open one has balanced tokens before it, and is the only one that
has. -/
theorem splitAtClose?_eq_some_iff :
    splitAtClose? 0 ts = some (inner, close, rest) ↔
      ts = inner ++ close :: rest ∧ close.kind = .closeParen ∧ Balanced inner := by
  constructor
  · intro h
    obtain ⟨hts, hc⟩ := splitAtClose?_eq_some h
    obtain ⟨hsane, hsettled⟩ := sane_of_splitAtClose? h
    simp only [Nat.zero_add] at hsane hsettled
    exact ⟨hts, hc, hsane, hsettled⟩
  · rintro ⟨rfl, hc, hsane, hsettled⟩
    apply splitAtClose?_of_sane rest hc <;> simpa only [Nat.zero_add]

theorem Balanced.depthFrom_add {before : List Token} (h : Balanced ts) (hb : before <+: ts) :
    depthFrom 0 before + closes before = opens before := by
  rw [Token.depthFrom_add, Nat.zero_add]
  intro p hp
  rw [Nat.zero_add]
  exact h.sane p (hp.trans hb)

/-- In balanced tokens a parenthesis that closes is within one that is open. -/
theorem Balanced.depth_pos {before after : List Token} (h : Balanced (before ++ close :: after))
    (hc : close.kind = .closeParen) : 0 < depthFrom 0 before := by
  have hd := h.depthFrom_add (List.prefix_append before (close :: after))
  have hle := h.sane (before ++ [close]) ⟨after, by simp⟩
  have hopen : opens [close] = 0 := by simp [opens, hc]
  have hclose : closes [close] = 1 := by simp [closes, hc]
  have happend : opens (before ++ [close]) = opens before + opens [close] ∧
      closes (before ++ [close]) = closes before + closes [close] :=
    ⟨List.countP_append, List.countP_append⟩
  omega

def Unbroken (depth : Nat) (ts : List Token) : Prop :=
  ∀ before comma after, ts = before ++ comma :: after → comma.kind = .comma →
    depthFrom depth before ≠ 0

/-- Tokens that start at a depth, cut at the commas outside of parentheses: the first segment, and
each of these commas with the segment after it. -/
inductive Cut : Nat → List Token → List Token → List (Token × List Token) → Prop
  | whole {depth : Nat} {s : List Token} (h : Unbroken depth s) : Cut depth s s []
  | comma {depth : Nat} {s ts next : List Token} {comma : Token} {more : List (Token × List Token)}
    (h : Unbroken depth s) (hd : depthFrom depth s = 0) (hc : comma.kind = .comma)
    (hs : Cut 0 ts next more) : Cut depth (s ++ comma :: ts) s ((comma, next) :: more)

variable {first : List Token} {more : List (Token × List Token)}

theorem unbroken_nil (depth : Nat) : Unbroken depth [] := by
  intro before comma after h
  cases before <;> cases h

theorem unbroken_cons :
    Unbroken depth (t :: ts) ↔
      ¬ (t.kind = .comma ∧ depth = 0) ∧ Unbroken (t.depthAfter depth) ts := by
  constructor
  · intro h
    refine ⟨fun ⟨hk, h0⟩ => h [] t ts rfl hk h0, fun before comma after hts hk => ?_⟩
    exact h (t :: before) comma after (congrArg (List.cons t) hts) hk
  · rintro ⟨ht, h⟩ before comma after hts hk
    cases before with
    | nil =>
      cases hts
      exact fun h0 => ht ⟨hk, h0⟩
    | cons u before =>
      cases hts
      exact h before comma after rfl hk

theorem splitAtCommas_append (h : Unbroken depth first) (ts : List Token) :
    splitAtCommas depth (first ++ ts) =
      (first ++ (splitAtCommas (depthFrom depth first) ts).1,
        (splitAtCommas (depthFrom depth first) ts).2) := by
  induction first generalizing depth with
  | nil => rfl
  | cons t first ih =>
    obtain ⟨ht, hrest⟩ := unbroken_cons.1 h
    rw [List.cons_append, splitAtCommas_cons, if_neg ht, ih hrest]
    rfl

theorem Cut.cons (ht : ¬ (t.kind = .comma ∧ depth = 0))
    (h : Cut (t.depthAfter depth) ts first more) : Cut depth (t :: ts) (t :: first) more := by
  cases h with
  | whole h => exact .whole (unbroken_cons.2 ⟨ht, h⟩)
  | comma h hd hc hs => exact .comma (unbroken_cons.2 ⟨ht, h⟩) hd hc hs

/-- Tokens are cut in one way. -/
theorem cut_iff : Cut depth ts first more ↔ splitAtCommas depth ts = (first, more) := by
  constructor
  · intro h
    induction h with
    | @whole depth s h =>
      have happend := splitAtCommas_append h []
      rwa [List.append_nil, splitAtCommas, List.append_nil] at happend
    | comma h hd hc hs ih =>
      rw [splitAtCommas_append h, hd, splitAtCommas_cons, if_pos ⟨hc, rfl⟩, ih, List.append_nil]
  · intro h
    induction ts generalizing depth first more with
    | nil =>
      cases h
      exact .whole (unbroken_nil depth)
    | cons t ts ih =>
      rw [splitAtCommas_cons] at h
      split at h
      · rename_i hk
        cases h
        rw [hk.2]
        exact .comma (unbroken_nil 0) rfl hk.1 (ih rfl)
      · rename_i hk
        cases h
        exact .cons hk (ih rfl)

theorem Cut.sublist (h : Cut depth ts first more) :
    ∀ s ∈ first :: more.map (·.2), s.Sublist ts := by
  induction h with
  | whole => exact fun s hs => (List.mem_singleton.1 hs).symm ▸ List.Sublist.refl _
  | @comma depth s ts next comma more h hd hc hs ih =>
    refine List.forall_mem_cons.2 ⟨List.sublist_append_left _ _, fun u hu => ?_⟩
    exact ((ih u hu).cons comma).trans (List.sublist_append_right _ _)

/-- The comma at which an argument is missing: the first one with no token since the comma before
it, or the last one if there is no token after it. -/
inductive MissingAt : List Token → List (Token × List Token) → Token → Prop
  | before {comma : Token} {next : List Token} {more : List (Token × List Token)} :
    MissingAt [] ((comma, next) :: more) comma
  | after {s : List Token} {comma : Token} (h : s ≠ []) : MissingAt s [(comma, [])] comma
  | later {s next : List Token} {c comma : Token} {more : List (Token × List Token)} (h : s ≠ [])
    (hs : MissingAt next more comma) : MissingAt s ((c, next) :: more) comma

/-- The tokens of each argument: there is none without a token, and otherwise every segment is one
and has a token. -/
inductive Arguments : List Token → List (List Token) → Prop
  | none : Arguments [] []
  | segments {ts first : List Token} {more : List (Token × List Token)} (h : Cut 0 ts first more)
    (hne : ∀ s ∈ first :: more.map (·.2), s ≠ []) : Arguments ts (first :: more.map (·.2))

end Token

namespace RawArgument

open Token

variable {source : Excerpt} {t : Token} {ts first next : List Token} {comma : Token}
  {more : List (Token × List Token)} {a : RawArgument} {as : List RawArgument} {fault : Fault}

def IsOf (source : Excerpt) (s : List Token) (a : RawArgument) : Prop :=
  ∃ t ts, s = t :: ts ∧ a = ofTokens source t ts

theorem isOf_cons : IsOf source (t :: ts) a ↔ a = ofTokens source t ts := by
  constructor
  · rintro ⟨u, us, h, rfl⟩
    cases h
    rfl
  · exact fun h => ⟨t, ts, rfl, h⟩

theorem IsOf.ne_nil (h : IsOf source ts a) : ts ≠ [] := by
  obtain ⟨t, ts, rfl, -⟩ := h
  exact List.cons_ne_nil t ts

theorem ofSegments_eq_ok :
    ofSegments source first more = .ok as ↔
      first = [] ∧ more = [] ∧ as = [] ∨
        List.Forall₂ (IsOf source) (first :: more.map (·.2)) as := by
  induction more generalizing first as with
  | nil =>
    rw [List.map_nil, List.forall₂_cons_left_iff]
    cases first with
    | nil =>
      constructor
      · intro h
        exact .inl ⟨rfl, rfl, (Except.ok.inj h).symm⟩
      · rintro (⟨-, -, rfl⟩ | ⟨a, as, ha, -⟩)
        · rfl
        · exact absurd rfl ha.ne_nil
    | cons t ts =>
      constructor
      · intro h
        exact .inr ⟨_, [], isOf_cons.2 rfl, .nil, (Except.ok.inj h).symm⟩
      · rintro (⟨h, -⟩ | ⟨a, as, ha, hrest, rfl⟩)
        · cases h
        · cases hrest
          rw [isOf_cons.1 ha]
          rfl
  | cons p more ih =>
    obtain ⟨comma, next⟩ := p
    rw [List.map_cons, List.forall₂_cons_left_iff]
    cases first with
    | nil =>
      constructor
      · intro h
        cases h
      · rintro (⟨-, h, -⟩ | ⟨a, as, ha, -⟩)
        · cases h
        · exact absurd rfl ha.ne_nil
    | cons t ts =>
      by_cases hn : next = [] ∧ more = []
      · obtain ⟨rfl, rfl⟩ := hn
        constructor
        · intro h
          cases h
        · rintro (⟨h, -⟩ | ⟨a, as, -, hrest, -⟩)
          · cases h
          · cases hrest with
            | cons hb => exact absurd rfl hb.ne_nil
      · rw [ofSegments_cons _ _ _ _ _ _ hn, map_eq_ok]
        constructor
        · rintro ⟨rest, hrest, rfl⟩
          have hall := (ih.1 hrest).resolve_left fun h => hn ⟨h.1, h.2.1⟩
          exact .inr ⟨_, rest, isOf_cons.2 rfl, hall, rfl⟩
        · rintro (⟨h, -⟩ | ⟨a, rest, ha, hrest, rfl⟩)
          · cases h
          · exact ⟨rest, ih.2 (.inr hrest), by rw [isOf_cons.1 ha]⟩

theorem missingAt_cons (hn : ¬ (next = [] ∧ more = [])) {c : Token} :
    MissingAt (t :: ts) ((c, next) :: more) comma ↔ MissingAt next more comma := by
  constructor
  · intro h
    cases h with
    | after => exact absurd ⟨rfl, rfl⟩ hn
    | later _ hs => exact hs
  · exact .later (List.cons_ne_nil t ts)

theorem ofSegments_eq_error :
    ofSegments source first more = .error fault ↔
      ∃ comma, MissingAt first more comma ∧ fault = .ofSyntax .emptyArgument comma.span := by
  induction more generalizing first with
  | nil =>
    constructor
    · intro h
      cases first <;> cases h
    · rintro ⟨comma, h, -⟩
      cases h
  | cons p more ih =>
    obtain ⟨c, next⟩ := p
    cases first with
    | nil =>
      constructor
      · intro h
        exact ⟨c, .before, (Except.error.inj h).symm⟩
      · rintro ⟨comma, h, rfl⟩
        cases h with
        | before => rfl
        | after h | later h => exact absurd rfl h
    | cons t ts =>
      by_cases hn : next = [] ∧ more = []
      · obtain ⟨rfl, rfl⟩ := hn
        constructor
        · intro h
          exact ⟨c, .after (List.cons_ne_nil t ts), (Except.error.inj h).symm⟩
        · rintro ⟨comma, h, rfl⟩
          cases h with
          | after => rfl
          | later _ hs => cases hs
      · rw [ofSegments_cons _ _ _ _ _ _ hn, map_eq_error, ih]
        simp only [missingAt_cons hn]

theorem split_eq_ok :
    split source ts = .ok as ↔
      ∃ segments, Arguments ts segments ∧ List.Forall₂ (IsOf source) segments as := by
  have hcut := cut_iff.2 (rfl : splitAtCommas 0 ts = (_, _))
  rw [split, ofSegments_eq_ok]
  constructor
  · rintro (⟨hfirst, hmore, rfl⟩ | hall)
    · rw [hfirst, hmore] at hcut
      cases hcut
      exact ⟨[], .none, .nil⟩
    · refine ⟨_, .segments hcut fun s hs => ?_, hall⟩
      obtain ⟨a, -, ha⟩ := exists_of_mem_forall₂ hall hs
      exact ha.ne_nil
  · rintro ⟨segments, hsegments, hall⟩
    cases hsegments with
    | none =>
      cases hall
      exact .inl ⟨rfl, rfl, rfl⟩
    | segments h =>
      rw [cut_iff.1 h]
      exact .inr hall

theorem split_eq_error :
    split source ts = .error fault ↔
      ∃ first more comma, Cut 0 ts first more ∧ MissingAt first more comma ∧
        fault = .ofSyntax .emptyArgument comma.span := by
  have hcut := cut_iff.2 (rfl : splitAtCommas 0 ts = (_, _))
  rw [split, ofSegments_eq_error]
  constructor
  · rintro ⟨comma, hm, rfl⟩
    exact ⟨_, _, comma, hcut, hm, rfl⟩
  · rintro ⟨first, more, comma, h, hm, rfl⟩
    rw [cut_iff.1 h]
    exact ⟨comma, hm, rfl⟩

/-- An argument that is one token is a token of the list. -/
theorem mem_of_split (h : split source ts = .ok as) (ha : a ∈ as) {kind : TokenKind}
    (hk : a.token = some kind) : ∃ t ∈ ts, a = t.argument := by
  obtain ⟨segments, hsegments, hall⟩ := split_eq_ok.1 h
  obtain ⟨s, hs, t, rest, rfl, rfl⟩ := exists_of_mem_forall₂ hall.flip ha
  cases rest with
  | cons u rest => cases hk
  | nil =>
    cases hsegments with
    | none => cases hs
    | segments hcut => exact ⟨t, (hcut.sublist _ hs).subset List.mem_cons_self, rfl⟩

end RawArgument

namespace Call

open Token

structure IsList (ts : List Token) (opening : Token) (inner : List Token) (close : Token) :
    Prop where
  tokens : ts = opening :: (inner ++ [close])
  opening : opening.kind = .openParen
  close : close.kind = .closeParen
  balanced : Balanced inner
  recognised : ∀ t ∈ inner, t.kind ≠ .error

/-- What is wrong with tokens after a head that are not one list. Of several things it is the
first. -/
inductive Refused (head : Span) : List Token → Fault → Prop
  | nothing : Refused head [] (.ofSyntax .openParenMissing head)
  | unopened {t : Token} {ts : List Token} (ht : t.kind ≠ .openParen) :
    Refused head (t :: ts) (.ofSyntax (.openParenExpected t.kind) t.span)
  | unclosed {t : Token} {ts : List Token} (ht : t.kind = .openParen)
    (h : ∀ inner close rest, ts = inner ++ close :: rest → close.kind = .closeParen →
      ¬ Balanced inner) :
    Refused head (t :: ts) (.ofSyntax .unclosedParen (t.reach ts))
  | error {t close bad : Token} {inner rest before after : List Token} (ht : t.kind = .openParen)
    (hc : close.kind = .closeParen) (hb : Balanced inner) (hi : inner = before ++ bad :: after)
    (hbad : bad.kind = .error) (hbefore : ∀ u ∈ before, u.kind ≠ .error) :
    Refused head (t :: (inner ++ close :: rest)) (.ofSyntax (.unexpected .error) bad.span)
  | trailing {t close r : Token} {inner rest : List Token} (ht : t.kind = .openParen)
    (hc : close.kind = .closeParen) (hb : Balanced inner) (hi : ∀ u ∈ inner, u.kind ≠ .error) :
    Refused head (t :: (inner ++ close :: r :: rest))
      (.ofSyntax (.afterCloseParen r.kind) (r.reach rest))
  | empty {ts inner first : List Token} {opening close comma : Token}
    {more : List (Token × List Token)} (hl : IsList ts opening inner close)
    (hcut : Cut 0 inner first more) (hm : MissingAt first more comma) :
    Refused head ts (.ofSyntax .emptyArgument comma.span)

variable {source : Excerpt} {head : Span} {t close : Token} {ts inner rest : List Token}
  {call : Call} {fault : Fault}

theorem find?_error_eq_none :
    inner.find? (fun t => t.kind = .error) = none ↔ ∀ t ∈ inner, t.kind ≠ .error := by
  simp only [List.find?_eq_none, decide_eq_true_eq]

theorem IsList.read_eq {opening : Token} (h : IsList ts opening inner close) :
    read source head ts =
      (fun args => ⟨args, opening.span.merge close.span⟩) <$> RawArgument.split source inner := by
  obtain ⟨rfl, ho, hc, hb, hi⟩ := h
  rw [read, if_neg (not_not.2 ho), splitAtClose?_eq_some_iff.2 ⟨rfl, hc, hb⟩]
  simp only [find?_error_eq_none.2 hi]

theorem Refused.code (h : Refused head ts fault) : fault.code = .syntactic := by
  cases h <;> rfl

theorem Refused.read_eq (h : Refused head ts fault) : read source head ts = .error fault := by
  cases h with
  | nothing => rfl
  | unopened ht => rw [read, if_pos ht]
  | @unclosed t ts ht h =>
    have hnone : splitAtClose? 0 ts = none := by
      rw [Option.eq_none_iff_forall_ne_some]
      rintro ⟨inner, close, rest⟩ hs
      obtain ⟨hts, hc, hb⟩ := splitAtClose?_eq_some_iff.1 hs
      exact h inner close rest hts hc hb
    rw [read, if_neg (not_not.2 ht), hnone]
  | @error t close bad inner rest before after ht hc hb hi hbad hbefore =>
    have hfind : inner.find? (fun t => t.kind = .error) = some bad := by
      rw [List.find?_eq_some_iff_append]
      exact ⟨decide_eq_true hbad, before, after, hi, fun u hu => by simpa using hbefore u hu⟩
    rw [read, if_neg (not_not.2 ht), splitAtClose?_eq_some_iff.2 ⟨rfl, hc, hb⟩]
    simp only [hfind, hbad]
  | trailing ht hc hb hi =>
    rw [read, if_neg (not_not.2 ht), splitAtClose?_eq_some_iff.2 ⟨rfl, hc, hb⟩]
    simp only [find?_error_eq_none.2 hi]
  | empty hl hcut hm =>
    rw [hl.read_eq, map_eq_error, RawArgument.split_eq_error]
    exact ⟨_, _, _, hcut, hm, rfl⟩

/-- Tokens are one list or are refused. -/
theorem isList_or_refused (source : Excerpt) (head : Span) (ts : List Token) :
    (∃ opening inner close as, IsList ts opening inner close ∧
      RawArgument.split source inner = .ok as) ∨ ∃ fault, Refused head ts fault := by
  cases ts with
  | nil => exact .inr ⟨_, .nothing⟩
  | cons t ts =>
    by_cases ht : t.kind = .openParen
    · cases hs : splitAtClose? 0 ts with
      | none =>
        refine .inr ⟨_, .unclosed ht fun inner close rest hts hc hb => ?_⟩
        rw [splitAtClose?_eq_some_iff.2 ⟨hts, hc, hb⟩] at hs
        cases hs
      | some p =>
        obtain ⟨inner, close, rest⟩ := p
        obtain ⟨rfl, hc, hb⟩ := splitAtClose?_eq_some_iff.1 hs
        cases hfind : inner.find? (fun t => t.kind = .error) with
        | some bad =>
          obtain ⟨hbad, before, after, hi, hbefore⟩ := List.find?_eq_some_iff_append.1 hfind
          exact .inr ⟨_, .error ht hc hb hi (of_decide_eq_true hbad) fun u hu => by
            simpa using hbefore u hu⟩
        | none =>
          have hi := find?_error_eq_none.1 hfind
          cases rest with
          | cons r rest => exact .inr ⟨_, .trailing ht hc hb hi⟩
          | nil =>
            have hl : IsList (t :: (inner ++ [close])) t inner close := ⟨rfl, ht, hc, hb, hi⟩
            cases has : RawArgument.split source inner with
            | ok as => exact .inl ⟨t, inner, close, as, hl, has⟩
            | error fault =>
              obtain ⟨first, more, comma, hcut, hm, -⟩ := RawArgument.split_eq_error.1 has
              exact .inr ⟨_, .empty hl hcut hm⟩
    · exact .inr ⟨_, .unopened ht⟩

theorem mem_of_read (h : read source head ts = .ok call) {a : RawArgument}
    (ha : a ∈ call.arguments) {kind : TokenKind} (hk : a.token = some kind) :
    ∃ t ∈ ts, a = t.argument := by
  obtain ⟨opening, inner, close, rfl, -, -, hsplit⟩ := read_eq_ok h
  obtain ⟨t, ht, rfl⟩ := RawArgument.mem_of_split hsplit ha hk
  exact ⟨t, List.mem_cons_of_mem opening (List.mem_append_left _ ht), rfl⟩

theorem read_eq_error : read source head ts = .error fault ↔ Refused head ts fault := by
  refine ⟨fun h => ?_, Refused.read_eq⟩
  rcases isList_or_refused source head ts with ⟨opening, inner, close, as, hl, has⟩ | ⟨f, hf⟩
  · rw [hl.read_eq, has] at h
    cases h
  · rw [hf.read_eq] at h
    rwa [← Except.error.inj h]

/-- Tokens after a head are read if they are one balanced list in which no argument is empty, as the
arguments between its commas. Otherwise the first thing that is wrong with them is reported. Inside
the list no parenthesis is closed that is not open, so the depth by which it is cut at its commas is
the number of parentheses that are open. -/
theorem read_classified (source : Excerpt) (head : Span) (ts : List Token) :
    (∀ call, read source head ts = .ok call ↔
      ∃ opening inner close segments, IsList ts opening inner close ∧ Arguments inner segments ∧
        List.Forall₂ (RawArgument.IsOf source) segments call.arguments ∧
        call.span = opening.span.merge close.span) ∧
    (∀ fault, read source head ts = .error fault ↔ Refused head ts fault) ∧
    ∀ inner close rest, splitAtClose? 0 ts.tail = some (inner, close, rest) →
      Cut 0 inner (splitAtCommas 0 inner).1 (splitAtCommas 0 inner).2 ∧
      ∀ before after, inner = before ++ after →
        depthFrom 0 before + closes before = opens before ∧
        ∀ t ∈ after.head?, t.kind = .closeParen → 0 < depthFrom 0 before := by
  refine ⟨fun call => ⟨fun h => ?_, ?_⟩, fun fault => read_eq_error, ?_⟩
  · rcases isList_or_refused source head ts with ⟨opening, inner, close, as, hl, has⟩ | ⟨f, hf⟩
    · rw [hl.read_eq, has] at h
      cases h
      obtain ⟨segments, hsegments, hall⟩ := RawArgument.split_eq_ok.1 has
      exact ⟨opening, inner, close, segments, hl, hsegments, hall, rfl⟩
    · rw [hf.read_eq] at h
      cases h
  · rintro ⟨opening, inner, close, segments, hl, hsegments, hall, hspan⟩
    rw [hl.read_eq, RawArgument.split_eq_ok.2 ⟨segments, hsegments, hall⟩, ← hspan]
    rfl
  · intro inner close rest hs
    refine ⟨cut_iff.2 rfl, fun before after hi => ?_⟩
    obtain ⟨-, -, hb⟩ := splitAtClose?_eq_some_iff.1 hs
    refine ⟨hb.depthFrom_add ⟨after, hi.symm⟩, fun t ht hc => ?_⟩
    obtain ⟨more, rfl⟩ := List.head?_eq_some_iff.1 ht
    exact Balanced.depth_pos (hi ▸ hb) hc

end Call

end ShapeAssembly
