import ShapeAssembly.Proofs.HeaderLists

namespace ShapeAssembly

open Token (idents idents_cons_of_eq idents_cons_of_ne)

def Kind.isLiteral : Kind → Bool
  | .bool | .axis | .face => true
  | _ => false

theorem Kind.isLiteral_iff {k : Kind} : k.isLiteral ↔ k = .bool ∨ k = .axis ∨ k = .face := by
  cases k <;> simp [isLiteral]

def Kind.InStatement (k : Kind) : Prop := k = .float ∨ k = .existingVariable ∨ k.isLiteral

theorem Kind.isLiteral_eq {k : Kind} (h : k.InStatement) :
    k.isLiteral = (!decide (k = .existingVariable) && decide (k ≠ .float)) := by
  rcases h with rfl | rfl | h
  · rfl
  · rfl
  · cases k <;> first | rfl | cases h

theorem Schema.inStatement_of_mem : ∀ schema ∈ registry, schema.usage ≠ .header →
    ∀ kinds ∈ schema.signatures, ∀ k ∈ kinds, k.InStatement := by
  unfold Kind.InStatement
  decide

namespace Statement

def literals (s : Statement) : List Argument := s.arguments.filter (·.kind.isLiteral)

/-- The names in a statement that are no variables. -/
def otherNames (s : Statement) : List Name := s.keyword :: s.literals.map (·.raw)

/-- The words of a statement, which are all names in it but the numbers. -/
def identNames (s : Statement) : List Name :=
  s.result.toList ++ s.keyword :: (s.arguments.filter (·.kind ≠ .float)).map (·.raw)

variable {names : List String} {source : Excerpt} {scope : Scope} {ts call tokens : List Token}
  {s : Statement} {args : List Argument}

theorem idents_of_readsAs (h : List.Forall₂ (Token.ReadsAs names) tokens args) :
    (idents tokens).map Token.name = (args.filter (·.kind ≠ .float)).map (·.raw) := by
  induction h with
  | nil => rfl
  | @cons t a tokens args hr _ ih =>
    have hk := hr.kind_eq
    by_cases ha : a.kind = .float
    · rw [ha] at hk
      rw [idents_cons_of_ne t (by rw [hk]; decide), List.filter_cons_of_neg (by simp [ha]), ih]
    · have hident : a.kind.token = .ident := by
        generalize a.kind = k at ha
        cases k <;> first | rfl | exact absurd rfl ha
      rw [idents_cons_of_eq t (hk.trans hident), List.filter_cons_of_pos (by simp [ha]),
        List.map_cons, List.map_cons, ih, hr.raw]

/-- The identifiers of a statement are its result, its keyword and those of its list. -/
theorem Headed.idents {result : Option Name} {k : Token} (h : Headed ts result k call)
    (hk : k.kind = .ident) :
    (idents ts).map Token.name = result.toList ++ k.name :: (idents call).map Token.name := by
  cases h with
  | plain => rw [idents_cons_of_eq k hk]; rfl
  | assigned hr he =>
    rw [idents_cons_of_eq _ hr, idents_cons_of_ne _ (by rw [he]; decide), idents_cons_of_eq k hk]
    rfl

theorem Form.idents (h : Form names ts s) : (idents ts).map Token.name = s.identNames := by
  cases h with
  | mk hb ho hc hl _ ha =>
    rw [hb.headed.idents hb.ident, Token.idents_list ho hc hl, idents_of_readsAs ha]
    rfl

theorem Form.inStatement (h : Form names ts s) : ∀ a ∈ s.arguments, a.kind.InStatement := by
  cases h with
  | @mk _ _ _ _ _ _ schema _ _ hb _ _ _ hs =>
    have husage : schema.usage ≠ .header := by
      rw [hb.usage]
      exact Usage.noConfusion
    have hsignature := List.mem_of_find?_eq_some hs
    exact fun a ha => Schema.inStatement_of_mem schema hb.known husage _ hsignature a.kind
      (List.mem_map_of_mem ha)

theorem filter_kind_perm (h : ∀ a ∈ args, a.kind.InStatement) :
    (args.filter (·.kind ≠ .float)).Perm
      (args.filter (·.kind = .existingVariable) ++ args.filter (·.kind.isLiteral)) := by
  have hperm := (List.filter_append_perm (fun a : Argument => decide (a.kind = .existingVariable))
    (args.filter (·.kind ≠ .float))).symm
  rw [List.filter_filter, List.filter_filter] at hperm
  have hvariables : args.filter (fun a => decide (a.kind = .existingVariable) &&
      decide (a.kind ≠ .float)) = args.filter (·.kind = .existingVariable) := by
    refine List.filter_congr fun a _ => ?_
    generalize a.kind = k
    cases k <;> rfl
  rwa [hvariables, List.filter_congr fun a ha => (Kind.isLiteral_eq (h a ha)).symm] at hperm

/-- The words of a statement are its variables and the others. -/
theorem identNames_perm (h : ∀ a ∈ s.arguments, a.kind.InStatement) :
    s.identNames.Perm (s.references ++ s.otherNames) := by
  have hargs := (filter_kind_perm h).map (·.raw)
  rw [List.map_append] at hargs
  rw [identNames, references, List.append_assoc]
  exact ((hargs.cons s.keyword).trans List.perm_middle.symm).append_left _

theorem references_sublist_identNames (s : Statement) : s.references.Sublist s.identNames := by
  refine (List.Sublist.cons _ (List.Sublist.map _ ?_)).append_left _
  refine List.monotone_filter_right s.arguments fun a ha => ?_
  rw [of_decide_eq_true ha]
  decide

/-- The variables of a statement are identifiers of its line, in their order. -/
theorem references_sublist (hs : (parse source scope ts).1.statement? = some s) :
    s.references.Sublist ((idents ts).map Token.name) := by
  cases ho : (parse source scope ts).1 with
  | failed fault =>
    rw [ho] at hs
    cases hs
  | parsed s' =>
    rw [ho] at hs
    cases hs
    rw [((parsed_iff source).1 ho).idents]
    exact s.references_sublist_identNames
  | incomplete s' fault =>
    obtain ⟨⟨result, k, call, schema, binding, hb, rfl⟩, -⟩ := (incomplete_iff source).1 ⟨fault, ho⟩
    rw [ho] at hs
    cases hs
    rw [hb.headed.idents hb.ident]
    exact (List.nil_sublist _).append_left _

end Statement

namespace Header

variable {source : Excerpt} {ts : List Token} {h : Header}

theorem idents_dropColon (ts : List Token) : idents (dropColon ts) = idents ts := by
  rcases List.eq_nil_or_concat ts with rfl | ⟨init, t, rfl⟩
  · rfl
  · rw [List.concat_eq_append, dropColon, List.getLast?_concat]
    by_cases ht : t.kind = .colon
    · have hlast := idents_cons_of_ne t (by rw [ht]; decide) []
      simp only [ht, if_true, List.dropLast_concat]
      rw [idents, idents, List.filter_append, ← idents, ← idents, hlast]
      exact (List.append_nil _).symm
    · simp only [ht, if_false]

/-- The identifiers of a header are its `def`, its name and those of its list. -/
theorem idents_of_ofTokens? (hh : ofTokens? ts = some h) :
    ∃ text, (idents ts).map Token.name =
      ⟨text, h.define⟩ :: (h.name.toList ++ (idents h.list).map Token.name) := by
  match ts with
  | [] | [t] => cases hh
  | t :: next :: rest =>
    rw [ofTokens?] at hh
    split at hh
    · rename_i ht
      rw [idents_cons_of_eq t ht.1]
      split at hh
      · rename_i hn
        cases hh
        rw [idents_cons_of_eq next hn, idents_dropColon]
        exact ⟨t.text, rfl⟩
      · cases hh
        rw [idents_dropColon]
        exact ⟨t.text, rfl⟩
      · cases hh
    · cases hh

theorem parameters_sublist (source : Excerpt) (h : Header) :
    (h.parameters source).1.Sublist ((idents h.list).map Token.name) := by
  rw [parameters]
  cases hr : h.readParameters source with
  | error fault => exact List.nil_sublist _
  | ok names => exact (readParameters_eq_ok.1 hr).2 ▸ .refl _

theorem parameters_of_listFault? (hf : h.listFault? source = none) :
    (h.parameters source).1 = (idents h.list).map Token.name := by
  rw [parameters, readParameters_eq_ok.2 ⟨listFault?_eq_none.1 hf, rfl⟩]

end Header

namespace Excerpt

def identifiers (line : Excerpt) : List Token := idents (line.tokens.toOption.getD [])

variable {line : Excerpt} {ts : List Token}

theorem identifiers_of_tokens (h : line.tokens = .ok ts) : line.identifiers = idents ts := by
  rw [identifiers, h]
  rfl

theorem identifiers_of_error {string : UnterminatedString} (h : line.tokens = .error string) :
    line.identifiers = [] := by
  rw [identifiers, h]
  rfl

theorem headerNames_sublist (line : Excerpt) :
    (line.headerName?.toList ++ line.parameters).Sublist (line.identifiers.map Token.name) := by
  rw [headerName?, parameters]
  cases hh : line.header? with
  | none => exact List.nil_sublist _
  | some h =>
    obtain ⟨ts, ht, hts⟩ := exists_tokens_of_header? hh
    obtain ⟨text, hidents⟩ := Header.idents_of_ofTokens? hts
    rw [identifiers_of_tokens ht, hidents]
    exact ((h.parameters_sublist line).append_left _).cons _

/-- If the list of a header is accepted, its identifiers are the `def` and the names that it
gives. -/
theorem identifiers_of_listFault? {h : Header} (hh : line.header? = some h)
    (hf : h.listFault? line = none) :
    ∃ text, line.identifiers.map Token.name =
      ⟨text, h.define⟩ :: (line.headerName?.toList ++ line.parameters) := by
  obtain ⟨ts, ht, hts⟩ := exists_tokens_of_header? hh
  obtain ⟨text, hidents⟩ := Header.idents_of_ofTokens? hts
  rw [headerName?, parameters, hh, identifiers_of_tokens ht, hidents,
    ← Header.parameters_of_listFault? hf]
  exact ⟨text, rfl⟩

theorem references_sublist (line : Excerpt) (scope : Scope) :
    ((line.bodyLine.read scope).1.statement?.toList.flatMap Statement.references).Sublist
      (line.identifiers.map Token.name) := by
  cases ht : line.tokens with
  | error string =>
    rw [bodyLine_of_error ht]
    exact List.nil_sublist _
  | ok ts =>
    cases ts with
    | nil =>
      rw [bodyLine_of_nil ht]
      exact List.nil_sublist _
    | cons t ts =>
      rw [bodyLine_of_cons ht, identifiers_of_tokens ht]
      show ((Statement.parse line scope (t :: ts)).1.statement?.toList.flatMap _).Sublist _
      cases hs : (Statement.parse line scope (t :: ts)).1.statement? with
      | none => exact List.nil_sublist _
      | some s =>
        rw [Option.toList_some, List.flatMap_singleton]
        exact Statement.references_sublist hs

/-- If nothing is reported for a line, its identifiers are the words of its statement. -/
theorem identifiers_of_fault? {scope : Scope} (hf : (line.bodyLine.read scope).1.fault? = none) :
    line.identifiers.map Token.name =
        (line.bodyLine.read scope).1.statement?.toList.flatMap Statement.identNames ∧
      ∀ s ∈ (line.bodyLine.read scope).1.statement?, ∀ a ∈ s.arguments, a.kind.InStatement := by
  cases ht : line.tokens with
  | error string =>
    rw [bodyLine_of_error ht] at hf
    cases hf
  | ok ts =>
    cases ts with
    | nil =>
      rw [bodyLine_of_nil ht, identifiers_of_tokens ht]
      exact ⟨rfl, fun s hs => by cases hs⟩
    | cons t ts =>
      rw [bodyLine_of_cons ht] at hf ⊢
      have hfault : (Statement.parse line scope (t :: ts)).1.fault? = none := hf
      show line.identifiers.map Token.name =
          (Statement.parse line scope (t :: ts)).1.statement?.toList.flatMap _ ∧
        ∀ s ∈ (Statement.parse line scope (t :: ts)).1.statement?, _
      cases ho : (Statement.parse line scope (t :: ts)).1 with
      | incomplete s fault | failed fault =>
        rw [ho] at hfault
        cases hfault
      | parsed s =>
        have hform := (Statement.parsed_iff line).1 ho
        rw [identifiers_of_tokens ht, hform.idents]
        refine ⟨(List.append_nil _).symm, fun s' hs => ?_⟩
        obtain rfl := Option.some.inj hs
        exact hform.inStatement

end Excerpt

namespace BodyLine

theorem references_sublist (scope : Scope) (lines : List Excerpt) :
    ((statements scope (lines.map Excerpt.bodyLine)).flatMap (·.references)).Sublist
      ((lines.flatMap Excerpt.identifiers).map Token.name) := by
  induction lines generalizing scope with
  | nil => exact .slnil
  | cons line rest ih =>
    rw [List.map_cons, statements_cons, List.flatMap_append, List.flatMap_cons, List.map_append]
    exact (line.references_sublist scope).append (ih _)

theorem identNames_eq (scope : Scope) {lines : List Excerpt}
    (hf : (readAll scope (lines.map Excerpt.bodyLine)).filterMap (·.fault?) = []) :
    (lines.flatMap Excerpt.identifiers).map Token.name =
        (statements scope (lines.map Excerpt.bodyLine)).flatMap (·.identNames) ∧
      ∀ s ∈ statements scope (lines.map Excerpt.bodyLine),
        ∀ a ∈ s.arguments, a.kind.InStatement := by
  induction lines generalizing scope with
  | nil => exact ⟨rfl, fun s hs => by cases hs⟩
  | cons line rest ih =>
    rw [List.map_cons, readAll_cons, filterMap_cons_toList] at hf
    obtain ⟨hline, hrest⟩ := List.append_eq_nil_iff.1 hf
    obtain ⟨hnames, hkinds⟩ := Excerpt.identifiers_of_fault? (Option.toList_eq_nil_iff.1 hline)
    obtain ⟨hmore, hall⟩ := ih _ hrest
    rw [List.map_cons, statements_cons, List.flatMap_append, List.flatMap_cons, List.map_append,
      hnames, hmore]
    refine ⟨rfl, fun s hs => ?_⟩
    rcases List.mem_append.1 hs with hs | hs
    · exact hkinds s (Option.mem_toList.1 hs)
    · exact hall s hs

end BodyLine

end ShapeAssembly
