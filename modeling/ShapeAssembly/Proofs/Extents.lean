import ShapeAssembly.Proofs.Layout

namespace ShapeAssembly

structure Statement.AllSpans (P : Span → Prop) (s : Statement) : Prop where
  keyword : P s.keyword.span
  result : ∀ r ∈ s.result, P r.span
  arguments : ∀ a ∈ s.arguments, P a.raw.span
  span : P s.span

structure Definition.AllSpans (P : Span → Prop) (d : Definition) : Prop where
  name : ∀ n ∈ d.name, P n.span
  parameters : ∀ p ∈ d.parameters, P p.span
  statements : ∀ s ∈ d.statements, s.AllSpans P
  span : P d.span

section

variable {P P' : Span → Prop}

theorem Span.Within.trans {a b c : Span} (hab : a.Within b) (hbc : b.Within c) : a.Within c :=
  ⟨hbc.start.trans hab.start, hab.ordered, hab.stop.trans hbc.stop⟩

theorem Statement.AllSpans.mono (hP : ∀ s, P s → P' s) {s : Statement} (h : s.AllSpans P) :
    s.AllSpans P' :=
  ⟨hP _ h.keyword, fun r hr => hP _ (h.result r hr), fun a ha => hP _ (h.arguments a ha),
    hP _ h.span⟩

theorem Definition.AllSpans.mono (hP : ∀ s, P s → P' s) {d : Definition} (h : d.AllSpans P) :
    d.AllSpans P' :=
  ⟨fun n hn => hP _ (h.name n hn), fun p hp => hP _ (h.parameters p hp),
    fun s hs => (h.statements s hs).mono hP, hP _ h.span⟩

/-- The places in a statement are made of those of its tokens. -/
theorem Statement.allSpans_of_parse (hP : Span.Merges P) {source : Excerpt} {scope : Scope}
    {ts : List Token} (h : ∀ t ∈ ts, P t.span) (hne : ts ≠ []) {s : Statement}
    (hs : (parse source scope ts).1.statement? = some s) : s.AllSpans P := by
  have hspan : P (Token.spanOf ts) := by
    cases ts with
    | nil => exact absurd rfl hne
    | cons t ts =>
      obtain ⟨ht, hts⟩ := List.forall_mem_cons.1 h
      exact Token.reach_of_forall hP ht hts
  have hhead : Ends (readHead ts) _ (Fault.Fits P fun _ => True) := ends_readHead h hne
  have hread := parse_read source scope ts
  generalize parse source scope ts = r at hread hs
  cases hread with
  | failed => cases hs
  | incomplete hr =>
    cases hs
    obtain ⟨hk, hresult, -⟩ := hhead.value hr
    exact ⟨hk, hresult, fun a ha => absurd ha List.not_mem_nil, hspan⟩
  | @parsed head call args _ hr ha =>
    cases hs
    obtain ⟨hk, hresult, hcall⟩ := hhead.value hr
    have hargs : Ends (head.readArguments source scope call) _ _ :=
      head.ends_readArguments hP hk hresult hcall
    exact ⟨hk, hresult, hargs.value ha, hspan⟩

theorem Header.span_of_ofTokens? (hP : Span.Merges P) {ts : List Token} {h : Header}
    (hts : ∀ t ∈ ts, P t.span) (hh : ofTokens? ts = some h) : P h.span := by
  match ts with
  | [] | [t] => cases hh
  | t :: next :: rest =>
    obtain ⟨ht, hnext⟩ := List.forall_mem_cons.1 hts
    have hreach := Token.reach_of_forall hP ht hnext
    rw [ofTokens?] at hh
    split at hh
    · split at hh
      · cases hh
        exact hreach
      · cases hh
        exact hreach
      · cases hh
    · cases hh

end

def Line.IsIn (whole : Span) (line : Line) : Prop :=
  ∃ e : Excerpt, e.span.Within whole ∧ Line.ofExcerpt e = line

section

variable {whole : Span}

theorem Excerpt.placed_within {e : Excerpt} (he : e.span.Within whole) :
    Token.Placed (·.Within whole) e.tokens :=
  e.placed_tokens.mono fun _ hs => hs.trans he

theorem BodyLine.allSpans_read {b : BodyLine} (hb : Line.IsIn whole (.body b)) (scope : Scope)
    {s : Statement} (hs : (b.read scope).1.statement? = some s) :
    s.AllSpans (·.Within whole) := by
  obtain ⟨e, he, hline⟩ := hb
  have hc := e.classified_ofExcerpt
  rw [hline] at hc
  cases hc with
  | body hl =>
    have hplaced := Excerpt.placed_within he
    cases ht : e.tokens with
    | error string => rw [Excerpt.bodyLine_of_error ht] at hs; cases hs
    | ok ts =>
      rw [ht] at hplaced
      cases ts with
      | nil => rw [Excerpt.bodyLine_of_nil ht] at hs; cases hs
      | cons t ts =>
        rw [Excerpt.bodyLine_of_cons ht] at hs
        exact Statement.allSpans_of_parse (Span.merges_within whole) hplaced
          (List.cons_ne_nil t ts) hs

theorem Opening.allSpans_read {o : Opening} (ho : Line.IsIn whole (.opening o)) (isEntry : Bool)
    (earlier : List String) :
    (o.read isEntry earlier).definition.AllSpans (·.Within whole) := by
  obtain ⟨e, he, hline⟩ := ho
  have hc := e.classified_ofExcerpt
  rw [hline] at hc
  have hnone : ∀ s ∈ ([] : List Statement), s.AllSpans (·.Within whole) :=
    fun s hs => absurd hs List.not_mem_nil
  cases hc with
  | unreadable =>
    exact ⟨fun n hn => (by cases hn), fun p hp => absurd hp List.not_mem_nil, hnone, he⟩
  | @readable h hl hh =>
    obtain ⟨ts, ht, hts⟩ := Excerpt.exists_tokens_of_header? hh
    have hplaced := Excerpt.placed_within he
    rw [ht] at hplaced
    obtain ⟨hd, hname, hlist⟩ := Header.forall_of_ofTokens? (P := (·.Within whole)) hplaced hts
    have hread : Ends (h.readParameters e) _ _ :=
      Header.ends_readParameters (Span.merges_within whole) hd hname hlist
    refine ⟨hname, fun p hp => ?_, hnone, Header.span_of_ofTokens? (Span.merges_within whole)
      hplaced hts⟩
    rw [Opening.read_readable] at hp
    dsimp only at hp
    rw [Header.parameters] at hp
    split at hp
    · rename_i hr
      exact hread.value hr p hp
    · cases hp

theorem Definition.span_withStatements {P : Span → Prop} (hP : Span.Merges P) {d : Definition}
    (hd : P d.span) {ss : List Statement} (hs : ∀ s ∈ ss, P s.span) :
    P (d.withStatements ss).span := by
  rw [withStatements]
  generalize d.span = span at hd
  induction ss generalizing span with
  | nil => exact hd
  | cons s ss ih =>
    obtain ⟨hfirst, hrest⟩ := List.forall_mem_cons.1 hs
    exact ih hrest _ (hP _ _ hd hfirst)

theorem Definition.allSpans_withStatements {P : Span → Prop} (hP : Span.Merges P) {d : Definition}
    (hd : d.AllSpans P) {ss : List Statement} (hs : ∀ s ∈ ss, s.AllSpans P) :
    (d.withStatements ss).AllSpans P :=
  ⟨hd.name, hd.parameters, hs, span_withStatements hP hd.span fun s hmem => (hs s hmem).span⟩

theorem BodyLine.allSpans_readAll {lines : List BodyLine}
    (h : ∀ l ∈ lines, Line.IsIn whole (.body l)) (scope : Scope) :
    ∀ s ∈ (readAll scope lines).filterMap (·.statement?), s.AllSpans (·.Within whole) := by
  intro s hs
  obtain ⟨r, hr, hs⟩ := List.mem_filterMap.1 hs
  obtain ⟨before, line, rest, rfl, rfl⟩ := exists_of_mem_readAll hr
  exact allSpans_read (h line (List.mem_append_right _ List.mem_cons_self)) _ hs

theorem Block.allSpans_definition? {b : Block} (ho : Line.IsIn whole (.opening b.opening))
    (hb : ∀ l ∈ b.body, Line.IsIn whole (.body l)) {isEntry : Bool} {earlier : List String}
    {d : Definition} (hd : b.definition? isEntry earlier = some d) :
    d.AllSpans (·.Within whole) := by
  rw [definition?] at hd
  split at hd
  · cases hd
    exact Definition.allSpans_withStatements (Span.merges_within whole)
      (Opening.allSpans_read ho isEntry earlier) (BodyLine.allSpans_readAll hb _)
  · cases hd

/-- All places in the definitions of some lines lie among the lines. -/
theorem Program.allSpans_blockDefinitions {lines : List Excerpt}
    (h : ∀ l ∈ lines, l.span.Within whole) {d : Definition} (hd : some d ∈ blockDefinitions lines) :
    d.AllSpans (·.Within whole) := by
  have hlines : ∀ l ∈ lines.map Line.ofExcerpt, Line.IsIn whole l :=
    List.forall_mem_map.2 fun e he => ⟨e, h e he, rfl⟩
  have hblocks := (Block.forall_group hlines).2
  rw [blockDefinitions] at hd
  generalize (Block.group (lines.map Line.ofExcerpt)).2 = blocks at hblocks hd
  generalize true = isEntry, ([] : List String) = earlier at hd
  induction blocks generalizing isEntry earlier with
  | nil => cases hd
  | cons b rest ih =>
    obtain ⟨⟨ho, hb⟩, hrest⟩ := List.forall_mem_cons.1 hblocks
    rcases List.mem_cons.1 hd with hd | hd
    · exact Block.allSpans_definition? ho hb hd.symm
    · exact ih hrest _ _ hd

end

theorem map_eq_self {α : Type} {f : α → α} {as : List α} (h : ∀ a ∈ as, f a = a) :
    as.map f = as :=
  (List.map_congr_left h).trans (List.map_id as)

theorem map_eq_self_option {α : Type} {f : α → α} {o : Option α} (h : ∀ a ∈ o, f a = a) :
    o.map f = o := by
  cases o with
  | none => rfl
  | some a => exact congrArg some (h a rfl)

section

variable {f g h : Nat → Nat}

theorem Span.relocate_eq_self {s whole : Span} (hs : s.Within whole)
    (hf : ∀ offset ≤ whole.stop, f offset = offset) : s.relocate f = s := by
  rw [relocate, hf _ hs.stop, hf _ (hs.ordered.trans hs.stop)]

theorem Located.relocate_eq_self {α : Type} {l : Located α} (h : l.span.relocate f = l.span) :
    l.relocate f = l :=
  congrArg (Located.mk l.val) h

theorem Argument.relocate_eq_self {a : Argument} (h : a.raw.span.relocate f = a.raw.span) :
    a.relocate f = a :=
  congrArg (fun raw => { a with raw }) (Located.relocate_eq_self h)

theorem Statement.relocate_eq_self {s : Statement} (hs : s.AllSpans fun x => x.relocate f = x) :
    s.relocate f = s := by
  rw [relocate, Located.relocate_eq_self hs.keyword,
    map_eq_self_option fun r hr => Located.relocate_eq_self (hs.result r hr),
    map_eq_self fun a ha => Argument.relocate_eq_self (hs.arguments a ha), hs.span]

theorem Definition.relocate_eq_self {d : Definition} (hd : d.AllSpans fun x => x.relocate f = x) :
    d.relocate f = d := by
  rw [relocate, map_eq_self_option fun n hn => Located.relocate_eq_self (hd.name n hn),
    map_eq_self fun p hp => Located.relocate_eq_self (hd.parameters p hp),
    map_eq_self fun s hs => Statement.relocate_eq_self (hd.statements s hs), hd.span]

theorem Statement.relocate_eq_self_of_within {s : Statement} {whole : Span}
    (hs : s.AllSpans (·.Within whole)) (hf : ∀ offset ≤ whole.stop, f offset = offset) :
    s.relocate f = s :=
  relocate_eq_self (hs.mono fun _ h => Span.relocate_eq_self h hf)

theorem Definition.relocate_eq_self_of_within {d : Definition} {whole : Span}
    (hd : d.AllSpans (·.Within whole)) (hf : ∀ offset ≤ whole.stop, f offset = offset) :
    d.relocate f = d :=
  relocate_eq_self (hd.mono fun _ hs => Span.relocate_eq_self hs hf)

/-- Definitions stay where they are if their lines do. -/
theorem Program.blockDefinitions_relocate {lines : List Excerpt} {whole : Span}
    (h : ∀ l ∈ lines, l.span.Within whole) (hf : ∀ offset ≤ whole.stop, f offset = offset) :
    (blockDefinitions lines).map (Option.map (·.relocate f)) = blockDefinitions lines := by
  refine map_eq_self fun o ho => map_eq_self_option fun d hd => ?_
  rw [Option.mem_def.1 hd] at ho
  exact Definition.relocate_eq_self_of_within (allSpans_blockDefinitions h ho) hf

theorem Span.relocate_relocate (hfg : ∀ x, g (f x) = h x) (s : Span) :
    (s.relocate f).relocate g = s.relocate h := by
  rw [relocate, relocate, relocate, hfg, hfg]

theorem Located.relocate_relocate {α : Type} (hfg : ∀ x, g (f x) = h x) (l : Located α) :
    (l.relocate f).relocate g = l.relocate h :=
  congrArg (Located.mk l.val) (l.span.relocate_relocate hfg)

theorem Argument.relocate_relocate (hfg : ∀ x, g (f x) = h x) (a : Argument) :
    (a.relocate f).relocate g = a.relocate h :=
  congrArg (fun r => { a with raw := r }) (a.raw.relocate_relocate hfg)

theorem Statement.relocate_relocate (hfg : ∀ x, g (f x) = h x) (s : Statement) :
    (s.relocate f).relocate g = s.relocate h := by
  simp only [relocate, List.map_map, Option.map_map, Function.comp_def,
    Located.relocate_relocate hfg, Argument.relocate_relocate hfg, Span.relocate_relocate hfg]

theorem Definition.relocate_relocate (hfg : ∀ x, g (f x) = h x) (d : Definition) :
    (d.relocate f).relocate g = d.relocate h := by
  simp only [relocate, List.map_map, Option.map_map, Function.comp_def,
    Located.relocate_relocate hfg, Statement.relocate_relocate hfg, Span.relocate_relocate hfg]

end

/-- Blocks that move are read alike before and after. -/
theorem Block.definitions?_shift {n m : Nat} {g : Nat → Nat}
    (hg : ∀ offset, g (shift n offset) = shift m offset) (isEntry : Bool) (earlier : List String)
    (blocks : List Block) :
    definitions? isEntry earlier (blocks.map (·.relocate (shift m))) =
      (definitions? isEntry earlier (blocks.map (·.relocate (shift n)))).map
        (Option.map (·.relocate g)) := by
  simp only [definitions?_relocate, List.map_map, Option.map_map, Function.comp_def,
    Definition.relocate_relocate hg]

end ShapeAssembly
