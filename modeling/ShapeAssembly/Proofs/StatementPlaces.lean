import ShapeAssembly.Proofs.BodyStatements
import ShapeAssembly.Proofs.TokenPlaces

namespace ShapeAssembly

theorem RawArgument.Gives.names {scope : Scope} {ts : List Token} {ys : List Argument}
    (h : List.Forall₂ (Gives scope) (ts.map Token.argument) ys) :
    ys.map (·.raw) = ts.map Token.name := by
  induction ts generalizing ys with
  | nil =>
    cases h
    rfl
  | cons t ts ih =>
    cases h with
    | cons hy hrest => rw [List.map_cons, List.map_cons, ih hrest, hy.raw]; rfl

/-- Arguments that are accepted are tokens of the list. -/
theorem Call.sublist_of_validate {source : Excerpt} {head : Span} {ts : List Token} {call : Call}
    {schema : Schema} {scope : Scope} {ys : List Argument} (hr : read source head ts = .ok call)
    (hv : schema.validate call.arguments call.span scope = .ok ys) :
    (ys.map (·.raw)).Sublist (ts.map Token.name) := by
  obtain ⟨opening, inner, close, rfl, -, -, hsplit⟩ := read_eq_ok hr
  obtain ⟨-, hg⟩ := Schema.validate_eq_ok.1 hv
  obtain ⟨args, hlist, hargs⟩ :=
    RawArgument.listed_of_split hsplit (RawArgument.Gives.token_ne_none hg)
  rw [hargs] at hg
  rw [RawArgument.Gives.names hg]
  exact ((hlist.sublist.trans (List.sublist_append_left inner [close])).cons opening).map _

namespace Statement

def names (s : Statement) : List Name :=
  s.result.toList ++ s.keyword :: s.arguments.map (·.raw)

theorem sublist_of_readHead {ts call : List Token} {h : Head} (hr : readHead ts = .ok (h, call)) :
    (h.result.toList ++ h.keyword :: call.map Token.name).Sublist (ts.map Token.name) := by
  obtain ⟨k, hs, -, hname⟩ := readHead_eq_ok.1 hr
  rw [hname]
  rcases splitResult_eq_ok hs with ⟨hnone, rfl⟩ | ⟨t, eq, rfl, -, -, hsome⟩
  · rw [hnone]
    exact .refl _
  · rw [hsome]
    exact ((List.Sublist.refl _).cons _).cons_cons _

theorem sublist_names {source : Excerpt} {scope : Scope} {ts : List Token} {s : Statement}
    (hs : (parse source scope ts).1.statement? = some s) :
    s.names.Sublist (ts.map Token.name) := by
  have h := parse_read source scope ts
  generalize parse source scope ts = r at h hs
  cases h with
  | failed => cases hs
  | incomplete hr =>
    cases hs
    exact (((List.nil_sublist _).cons_cons _).append_left _).trans (sublist_of_readHead hr)
  | parsed hr ha =>
    cases hs
    obtain ⟨call, hcall, -, hval, -⟩ := Head.readArguments_eq_ok.1 ha
    exact (((Call.sublist_of_validate hcall hval).cons_cons _).append_left _).trans
      (sublist_of_readHead hr)

end Statement

namespace Header

theorem dropColon_sublist (ts : List Token) : (dropColon ts).Sublist ts := by
  rw [dropColon]
  split
  · split
    · exact List.dropLast_sublist ts
    · exact .refl ts
  · exact .refl ts

theorem sublist_of_ofTokens? {ts : List Token} {h : Header} (hh : ofTokens? ts = some h) :
    (h.name.toList ++ h.list.map Token.name).Sublist (ts.map Token.name) ∧
      h.span = Token.spanOf ts := by
  match ts with
  | [] | [t] => cases hh
  | t :: next :: rest =>
    rw [ofTokens?] at hh
    split at hh
    · split at hh
      · cases hh
        exact ⟨((((dropColon_sublist rest).map _).cons_cons _).cons _), rfl⟩
      · cases hh
        exact ⟨((dropColon_sublist (next :: rest)).map _).cons _, rfl⟩
      · cases hh
    · cases hh

theorem sublist_parameters (source : Excerpt) (h : Header) :
    (h.parameters source).1.Sublist (h.list.map Token.name) := by
  rw [parameters]
  split
  · rename_i names hr
    obtain ⟨call, hcall, hr⟩ := bind_eq_ok.1 hr
    obtain ⟨ys, hval, hr⟩ := bind_eq_ok.1 hr
    cases hr
    exact Call.sublist_of_validate hcall hval
  · exact List.nil_sublist _

end Header

def Statement.StandsIn (s : Statement) (line : Excerpt) : Prop :=
  ∃ t ts, line.tokens = .ok (t :: ts) ∧ s.names.Sublist ((t :: ts).map Token.name) ∧
    s.span = t.reach ts

/-- Names that are the text at their places and follow one another in a span. -/
structure Excerpt.ShowsInTurn (e : Excerpt) (names : List Name) (whole : Span) : Prop where
  shows : ∀ n ∈ names, e.Shows n
  inTurn : Span.InTurn (names.map (·.span)) whole

theorem Excerpt.ShowsInTurn.of_isPart {part e : Excerpt} (h : part.IsPart e) {names : List Name}
    {whole : Span} (hs : part.ShowsInTurn names whole) : e.ShowsInTurn names whole :=
  ⟨fun n hn => slice?_of_isPart h (hs.shows n hn), hs.inTurn⟩

/-- Some of the tokens of a line, as names. -/
theorem Excerpt.showsInTurn_of_sublist {line : Excerpt} {t : Token} {ts : List Token}
    (h : line.tokens = .ok (t :: ts)) {names : List Name}
    (hs : names.Sublist ((t :: ts).map Token.name)) :
    line.ShowsInTurn names (t.reach ts) ∧ line.Holds (t.reach ts) := by
  have hinTurn := Excerpt.inTurn_tokens h
  have hreach : Span.InTurn ((t :: ts).map (·.span)) (t.reach ts) :=
    hinTurn.mono (List.forall_mem_map.2 (Token.within_reach hinTurn))
  refine ⟨⟨fun n hn => ?_, hreach.sublist ?_⟩, ?_⟩
  · obtain ⟨u, hu, rfl⟩ := List.mem_map.1 (hs.subset hn)
    exact shows_of_mem h hu
  · have hspans := hs.map (·.span)
    rwa [List.map_map] at hspans
  · exact Token.reach_of_forall line.merges_holds (holds_of_mem h List.mem_cons_self)
      fun u hu => holds_of_mem h (List.mem_cons_of_mem t hu)

/-- Every name in a statement is the text at its place, and the names follow one another in the
place of the statement, which lies in one line. -/
structure Statement.IsFaithful (source : Excerpt) (s : Statement) : Prop where
  names : source.ShowsInTurn s.names s.span
  line : ∃ text, source.slice? s.span = some text ∧ '\n' ∉ text.toList

theorem Statement.StandsIn.isFaithful {s : Statement} {line source : Excerpt}
    (h : s.StandsIn line) (hp : line.IsPart source) (hn : '\n' ∉ line.chars) :
    s.IsFaithful source := by
  obtain ⟨t, ts, ht, hs, hspan⟩ := h
  obtain ⟨hnames, hholds⟩ := Excerpt.showsInTurn_of_sublist ht hs
  obtain ⟨text, htext⟩ := hholds.exists_slice?
  rw [← hspan] at hnames htext
  exact ⟨hnames.of_isPart hp, text, Excerpt.slice?_of_isPart hp htext,
    Excerpt.notMem_of_slice? hn htext⟩

theorem Statement.StandsIn.holds {s : Statement} {line : Excerpt} (h : s.StandsIn line) :
    line.Holds s.span := by
  obtain ⟨t, ts, ht, hs, hspan⟩ := h
  rw [hspan]
  exact (Excerpt.showsInTurn_of_sublist ht hs).2

/-- The content of a line holds characters of it. -/
theorem Excerpt.holds_of_contentSpan? {l : Excerpt} {s : Span}
    (h : l.bodyLine.contentSpan? = some s) : l.Holds s := by
  cases ht : l.tokens with
  | error string => rw [bodyLine_of_error ht] at h; cases h
  | ok ts =>
    cases ts with
    | nil => rw [bodyLine_of_nil ht] at h; cases h
    | cons t ts =>
      rw [bodyLine_of_cons ht] at h
      cases h
      exact (showsInTurn_of_sublist ht (List.nil_sublist _)).2

/-- The statements of a body stand in lines of it, each in one of its own. -/
theorem BodyLine.exists_standsIn (scope : Scope) (lines : List Excerpt) :
    ∃ chosen, chosen.Sublist lines ∧
      List.Forall₂ (fun (l : Excerpt) (s : Statement) => s.StandsIn l) chosen
        (statements scope (lines.map Excerpt.bodyLine)) := by
  induction lines generalizing scope with
  | nil => exact ⟨[], .slnil, .nil⟩
  | cons l lines ih =>
    obtain ⟨chosen, hsub, hall⟩ := ih (l.bodyLine.read scope).2
    rw [List.map_cons, statements_cons]
    cases hs : (l.bodyLine.read scope).1.statement? with
    | none => exact ⟨chosen, hsub.cons l, hall⟩
    | some s =>
      refine ⟨l :: chosen, hsub.cons_cons l, .cons ?_ hall⟩
      cases ht : l.tokens with
      | error string => rw [Excerpt.bodyLine_of_error ht] at hs; cases hs
      | ok ts =>
        cases ts with
        | nil => rw [Excerpt.bodyLine_of_nil ht] at hs; cases hs
        | cons t ts =>
          rw [Excerpt.bodyLine_of_cons ht] at hs
          exact ⟨t, ts, ht, Statement.sublist_names hs, Statement.span_of_parse hs⟩

end ShapeAssembly
