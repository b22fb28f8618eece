import ShapeAssembly.Proofs.BalancedLists
import ShapeAssembly.Proofs.HeaderNames
import ShapeAssembly.Proofs.StatementPlaces
import ShapeAssembly.Proofs.ValidationOrder

namespace ShapeAssembly

def isRepeated (names : List Name) (p : Name × Nat) : Bool :=
  ((names.take p.2).map (·.val)).contains p.1.val

/-- The names of a list at their first positions, or at all later ones. -/
def occurrences (later : Bool) (names : List Name) : List Name :=
  (names.zipIdx.filter (isRepeated names · == later)).map (·.1)

theorem isRepeated_append {names more : List Name} {p : Name × Nat} (h : p ∈ names.zipIdx) :
    isRepeated (names ++ more) p = isRepeated names p := by
  obtain ⟨n, i⟩ := p
  obtain ⟨-, hlt, -⟩ := List.mem_zipIdx h
  rw [isRepeated, isRepeated, List.take_append_of_le_length (by dsimp only; omega)]

theorem occurrences_append_singleton (later : Bool) (names : List Name) (n : Name) :
    occurrences later (names ++ [n]) =
      occurrences later names ++
        if (names.map (·.val)).contains n.val == later then [n] else [] := by
  have hlast : isRepeated (names ++ [n]) (n, names.length) =
      (names.map (·.val)).contains n.val := by rw [isRepeated, List.take_left]
  have hfilter : names.zipIdx.filter (isRepeated (names ++ [n]) · == later) =
      names.zipIdx.filter (isRepeated names · == later) :=
    List.filter_congr fun p hp => by rw [isRepeated_append hp]
  rw [occurrences, List.zipIdx_append, List.filter_append, List.map_append, hfilter, occurrences,
    Nat.zero_add, List.zipIdx_singleton, List.filter_singleton, hlast]
  cases (names.map (·.val)).contains n.val == later <;> rfl

theorem occurrences_sublist (later : Bool) (names : List Name) :
    (occurrences later names).Sublist names := by
  have h := (List.filter_sublist (p := (isRepeated names · == later))
    (l := names.zipIdx)).map Prod.fst
  rwa [List.zipIdx_map_fst] at h

namespace Scope

theorem defineAll_append (scope : Scope) (origin : Origin) (names more : List Name) :
    scope.defineAll origin (names ++ more) =
      (((scope.defineAll origin names).1.defineAll origin more).1,
        (scope.defineAll origin names).2 ++
          ((scope.defineAll origin names).1.defineAll origin more).2) := by
  induction names generalizing scope with
  | nil => rfl
  | cons n names ih =>
    rw [List.cons_append, defineAll, defineAll]
    cases scope.define n origin with
    | ok scope' => exact ih scope'
    | error fault =>
      simp only [ih scope]
      rfl

/-- Names are bound at their first positions and refused at the others. -/
theorem defineAll_empty (origin : Origin) (names : List Name) :
    (empty.defineAll origin names).1.bindings =
        (occurrences false names).map (⟨·, origin⟩) ∧
      (empty.defineAll origin names).2 = (occurrences true names).map .duplicate := by
  induction names using List.reverseRecOn with
  | nil => exact ⟨rfl, rfl⟩
  | append_singleton names n ih =>
    obtain ⟨hbindings, hfaults⟩ := ih
    have hmem : n.val ∈ (empty.defineAll origin names).1.names ↔ n.val ∈ names.map (·.val) := by
      rw [mem_names_defineAll]
      exact or_iff_right List.not_mem_nil
    rw [defineAll_append, occurrences_append_singleton, occurrences_append_singleton,
      List.map_append, List.map_append, hfaults, ← hbindings]
    rcases define_eq (empty.defineAll origin names).1 n origin with ⟨hin, h⟩ | ⟨hno, h⟩
    · have hc : (names.map (·.val)).contains n.val = true :=
        List.contains_iff_mem.2 (hmem.1 hin)
      simp only [defineAll, h, hc]
      exact ⟨(List.append_nil _).symm, rfl⟩
    · have hc : (names.map (·.val)).contains n.val = false := by
        rw [← Bool.not_eq_true, List.contains_iff_mem, ← hmem]
        exact hno
      simp only [defineAll, h, hc]
      exact ⟨rfl, rfl⟩

end Scope

namespace Token

structure IsFourNames (ts : List Token) : Prop where
  kinds : ts.map (·.kind) =
    [.openParen, .ident, .comma, .ident, .comma, .ident, .comma, .ident, .closeParen]
  usable : ∀ t ∈ ts, t.kind = .ident → isReserved t.text = false

def IsEmptyList (ts : List Token) : Prop := ts.map (·.kind) = [.openParen, .closeParen]

def idents (ts : List Token) : List Token := ts.filter (·.kind = .ident)

variable {ts inner args : List Token} {opening close : Token}

theorem idents_cons_of_ne (t : Token) (h : t.kind ≠ .ident) (ts : List Token) :
    idents (t :: ts) = idents ts := List.filter_cons_of_neg (by simpa using h)

theorem idents_cons_of_eq (t : Token) (h : t.kind = .ident) (ts : List Token) :
    idents (t :: ts) = t :: idents ts := List.filter_cons_of_pos (by simpa using h)

theorem idents_eq_self (ha : ∀ t ∈ args, t.kind = .ident) : idents args = args :=
  List.filter_eq_self.2 fun t ht => decide_eq_true (ha t ht)

/-- A comma is no identifier. -/
theorem Listed.idents_eq (h : Listed args inner) : idents inner = idents args := by
  induction h with
  | nil | single => rfl
  | @cons t c u args ts hc h ih =>
    have hcomma := idents_cons_of_ne c (by rw [hc]; decide) ts
    by_cases ht : t.kind = .ident
    · rw [idents_cons_of_eq t ht, idents_cons_of_eq t ht, hcomma, ih]
    · rw [idents_cons_of_ne t ht, idents_cons_of_ne t ht, hcomma, ih]

theorem idents_list (ho : opening.kind = .openParen) (hc : close.kind = .closeParen)
    (h : Listed args inner) : idents (opening :: (inner ++ [close])) = idents args := by
  rw [idents_cons_of_ne opening (by rw [ho]; decide), idents, List.filter_append, ← idents,
    ← idents, idents_cons_of_ne close (by rw [hc]; decide), h.idents_eq]
  exact List.append_nil _

/-- Four names stand between parentheses and commas. -/
theorem isFourNames_iff :
    IsFourNames ts ↔ ∃ opening inner close args, ts = opening :: (inner ++ [close]) ∧
      opening.kind = .openParen ∧ close.kind = .closeParen ∧ Listed args inner ∧
      args.length = 4 ∧ ∀ t ∈ args, t.kind = .ident ∧ isReserved t.text = false := by
  constructor
  · rintro ⟨hk, hu⟩
    simp only [List.map_eq_cons_iff, List.map_eq_nil_iff] at hk
    obtain ⟨o, _, rfl, ho, a, _, rfl, ha, u, _, rfl, hau, b, _, rfl, hb, v, _, rfl, hbv, c, _,
      rfl, hc, w, _, rfl, hcw, d, _, rfl, hd, close, _, rfl, hclose, rfl⟩ := hk
    refine ⟨o, [a, u, b, v, c, w, d], close, [a, b, c, d], rfl, ho, hclose,
      .cons hau (.cons hbv (.cons hcw (.single d))), rfl, ?_⟩
    have hall : ∀ t ∈ [a, b, c, d], t.kind = .ident := by simp [ha, hb, hc, hd]
    refine fun t ht => ⟨hall t ht, hu t ?_ (hall t ht)⟩
    simp only [List.mem_cons, List.not_mem_nil, or_false] at ht ⊢
    rcases ht with rfl | rfl | rfl | rfl <;> simp
  · rintro ⟨o, inner, close, args, rfl, ho, hclose, hl, hlen, hargs⟩
    have hident := (idents_list ho hclose hl).trans (idents_eq_self fun t ht => (hargs t ht).1)
    refine ⟨?_, fun t ht hk => ?_⟩
    · obtain ⟨a, b, c, d, rfl⟩ := List.length_eq_four.1 hlen
      cases hl with
      | cons hau hl =>
        cases hl with
        | cons hbv hl =>
          cases hl with
          | cons hcw hl =>
            cases hl
            simp only [List.forall_mem_cons] at hargs
            simp [ho, hclose, hargs, hau, hbv, hcw]
    · have hmem : t ∈ idents (o :: (inner ++ [close])) :=
        List.mem_filter.2 ⟨ht, decide_eq_true hk⟩
      rw [hident] at hmem
      exact (hargs t hmem).2

theorem isEmptyList_iff :
    IsEmptyList ts ↔ ∃ opening close, ts = [opening, close] ∧ opening.kind = .openParen ∧
      close.kind = .closeParen := by
  simp only [IsEmptyList, List.map_eq_cons_iff, List.map_eq_nil_iff]
  constructor
  · rintro ⟨o, _, rfl, ho, c, _, rfl, hc, rfl⟩
    exact ⟨o, c, rfl, ho, hc⟩
  · rintro ⟨o, c, rfl, ho, hc⟩
    exact ⟨o, _, rfl, ho, c, _, rfl, hc, rfl⟩

/-- Four names or none stand between parentheses and commas. -/
theorem isNameList_iff :
    IsFourNames ts ∨ IsEmptyList ts ↔ ∃ opening inner close args,
      ts = opening :: (inner ++ [close]) ∧ opening.kind = .openParen ∧
      close.kind = .closeParen ∧ Listed args inner ∧
      (args.length = 0 ∨ args.length = 4) ∧
      ∀ t ∈ args, t.kind = .ident ∧ isReserved t.text = false := by
  rw [isFourNames_iff, isEmptyList_iff]
  constructor
  · rintro (⟨o, inner, c, args, h, ho, hc, hl, hlen, hargs⟩ | ⟨o, c, h, ho, hc⟩)
    · exact ⟨o, inner, c, args, h, ho, hc, hl, .inr hlen, hargs⟩
    · exact ⟨o, [], c, [], h, ho, hc, .nil, .inl rfl, fun t ht => absurd ht List.not_mem_nil⟩
  · rintro ⟨o, inner, c, args, h, ho, hc, hl, hlen | hlen, hargs⟩
    · obtain rfl := List.length_eq_zero_iff.1 hlen
      obtain rfl := hl.eq_nil
      exact .inr ⟨o, c, h, ho, hc⟩
    · exact .inl ⟨o, inner, c, args, h, ho, hc, hl, hlen, hargs⟩

theorem readsAs_identifier {names : List String} {t : Token} {y : Argument} :
    y.kind = .identifier ∧ t.ReadsAs names y ↔
      (t.kind = .ident ∧ isReserved t.text = false) ∧ y = Header.parameterArgument t.name := by
  constructor
  · obtain ⟨raw, kind, value⟩ := y
    rintro ⟨hkind, hraw, hvalue, -, -⟩
    obtain rfl : kind = .identifier := hkind
    obtain rfl : raw = t.name := hraw
    generalize hk : t.kind = token at hvalue
    generalize ht : t.text = text at hvalue
    cases hvalue with
    | name _ hr =>
      rw [← ht] at hr ⊢
      exact ⟨⟨rfl, hr⟩, rfl⟩
  · rintro ⟨⟨hk, hr⟩, rfl⟩
    refine ⟨rfl, rfl, ?_, (fun h => by cases h), fun h => by cases h⟩
    rw [hk]
    exact .name (.inr (.inr rfl)) hr

end Token

theorem Schema.signature?_define {n : Nat} {kinds : Signature} :
    define.signature? n = some kinds ↔
      (n = 0 ∨ n = 4) ∧ kinds = List.replicate n .identifier := by
  rw [signature?, Header.define_signatures]
  by_cases h0 : n = 0
  · simp [h0, eq_comm]
  · by_cases h4 : n = 4
    · simp [h4, eq_comm]
    · simp [h0, h4, eq_comm]

namespace Header

open Token

variable {source : Excerpt} {h : Header} {names : List Name} {fault : Fault}

/-- A list is read if it has four names or nothing, and then as its identifiers. -/
theorem readParameters_eq_ok :
    h.readParameters source = .ok names ↔
      (IsFourNames h.list ∨ IsEmptyList h.list) ∧ names = (idents h.list).map Token.name := by
  simp only [readParameters, bind_eq_ok, Schema.validate_eq_ok, Schema.signature?_define]
  constructor
  · rintro ⟨call, hread, ys, ⟨⟨hlen, hkinds⟩, hg⟩, hnames⟩
    cases hnames
    obtain ⟨opening, inner, close, hlist, ho, hc, hsplit⟩ := Call.read_eq_ok hread
    obtain ⟨tokens, hl, htokens⟩ :=
      RawArgument.listed_of_split hsplit (RawArgument.Gives.token_ne_none hg)
    rw [htokens] at hlen hkinds hg
    rw [List.length_map] at hlen hkinds
    have hnames := RawArgument.Gives.names hg
    rw [List.forall₂_map_left_iff] at hg
    have hargs : ∀ t ∈ tokens, t.kind = .ident ∧ isReserved t.text = false := by
      intro t ht
      obtain ⟨y, hy, hgives⟩ := exists_of_mem_forall₂ hg ht
      have hkind := List.eq_of_mem_replicate (hkinds ▸ List.mem_map_of_mem hy)
      exact (readsAs_identifier.1 ⟨hkind, RawArgument.gives_iff.1 hgives⟩).1
    rw [hlist]
    refine ⟨isNameList_iff.2 ⟨opening, inner, close, tokens, rfl, ho, hc, hl, hlen, hargs⟩, ?_⟩
    rw [idents_list ho hc hl, idents_eq_self fun t ht => (hargs t ht).1]
    exact hnames
  · rintro ⟨hlist, rfl⟩
    obtain ⟨opening, inner, close, args, hlist, ho, hc, hl, hlen, hargs⟩ := isNameList_iff.1 hlist
    have hread : Call.read source ((h.name.map (·.span)).getD h.define) h.list =
        .ok ⟨args.map Token.argument, opening.span.merge close.span⟩ := by
      rw [hlist]
      exact Call.read_append ho hc hl fun t ht => .inl (hargs t ht).1
    rw [hlist, idents_list ho hc hl, idents_eq_self fun t ht => (hargs t ht).1, ← hlist]
    refine ⟨_, hread, args.map fun t => parameterArgument t.name, ⟨⟨?_, ?_⟩, ?_⟩, ?_⟩
    · rwa [List.length_map]
    · rw [List.map_map, List.length_map]
      exact List.map_eq_replicate_iff.2 fun t ht => rfl
    · rw [List.forall₂_map_left_iff, List.forall₂_map_right_iff, List.forall₂_same]
      exact fun t ht => RawArgument.gives_iff.2 (readsAs_identifier.2 ⟨hargs t ht, rfl⟩).2
    · rw [List.map_map]
      rfl

theorem code_of_validate_define {args : List RawArgument} {span : Span} {scope : Scope}
    (hv : Schema.define.validate args span scope = .error fault) :
    fault.code = .arity ∨ fault.code = .kindMismatch := by
  rw [Schema.validate] at hv
  cases hs : Schema.define.signature? args.length with
  | none =>
    simp only [hs] at hv
    cases hv
    exact .inl rfl
  | some kinds =>
    simp only [hs] at hv
    obtain ⟨before, a, after, ys, kind, rest, -, hkinds, -, ha⟩ :=
      RawArgument.coerceFrom_eq_error.1 hv
    have hkind : kind = .identifier := by
      rw [(Schema.signature?_define.1 hs).2] at hkinds
      exact List.eq_of_mem_replicate (hkinds ▸ List.mem_append_right _ List.mem_cons_self)
    cases ha with
    | mismatch => exact .inr rfl
    | unbound | duplicate => cases hkind

theorem code_of_readParameters (hr : h.readParameters source = .error fault) :
    fault.code = .syntactic ∨ fault.code = .arity ∨ fault.code = .kindMismatch := by
  rcases bind_eq_error.1 hr with hread | ⟨call, -, hr⟩
  · exact .inl (Call.read_eq_error.1 hread).code
  · rcases bind_eq_error.1 hr with hv | ⟨args, -, hr⟩
    · exact .inr (code_of_validate_define hv)
    · cases hr

theorem parameters_of_isFourNames (hf : IsFourNames h.list) :
    (h.parameters source).1 = (idents h.list).map Token.name := by
  rw [parameters, readParameters_eq_ok.2 ⟨.inl hf, rfl⟩]

theorem parameters_of_not_isFourNames (hf : ¬ IsFourNames h.list) :
    (h.parameters source).1 = [] := by
  rw [parameters]
  cases hr : h.readParameters source with
  | error fault => rfl
  | ok names =>
    obtain ⟨hlist, rfl⟩ := readParameters_eq_ok.1 hr
    obtain ⟨opening, close, hlist, ho, hc⟩ := isEmptyList_iff.1 (hlist.resolve_left hf)
    simp [idents, hlist, ho, hc]

theorem listFault?_eq_none :
    h.listFault? source = none ↔ IsFourNames h.list ∨ IsEmptyList h.list := by
  rw [listFault?]
  cases hr : h.readParameters source with
  | ok names => exact iff_of_true rfl (readParameters_eq_ok.1 hr).1
  | error fault =>
    refine iff_of_false (Option.some_ne_none fault) fun hlist => ?_
    rw [readParameters_eq_ok.2 ⟨hlist, rfl⟩] at hr
    cases hr

/-- A list that is not accepted has the wrong form, the wrong length or a wrong name. -/
theorem code_of_listFault (hf : fault ∈ h.listFault? source) :
    fault.code = .syntactic ∨ fault.code = .arity ∨ fault.code = .kindMismatch := by
  rw [listFault?] at hf
  cases hr : h.readParameters source with
  | ok names =>
    rw [hr] at hf
    cases hf
  | error fault =>
    rw [hr] at hf
    cases hf
    exact code_of_readParameters hr

def head (h : Header) : Span := (h.name.map (·.span)).getD h.define

def InTurn (h : Header) : Prop :=
  (h.define :: (h.name.toList.map (·.span) ++ h.list.map (·.span))).Pairwise
    fun a b => a.start ≤ b.start

theorem InTurn.head_le (hp : h.InTurn) : ∀ t ∈ h.list, h.head.start ≤ t.span.start := by
  intro t ht
  have hmem : t.span ∈ h.list.map (·.span) := List.mem_map_of_mem ht
  obtain ⟨hfirst, hrest⟩ := List.pairwise_cons.1 hp
  rw [head]
  cases hn : h.name with
  | none => exact hfirst t.span (List.mem_append_right _ hmem)
  | some n =>
    rw [hn] at hrest
    exact (List.pairwise_append.1 hrest).2.2 n.span (List.mem_singleton_self _) t.span hmem

theorem InTurn.le_head (hp : h.InTurn) : h.define.start ≤ h.head.start := by
  rw [head]
  cases hn : h.name with
  | none => exact Nat.le_refl _
  | some n =>
    apply (List.pairwise_cons.1 hp).1
    rw [hn]
    exact List.mem_append_left _ (List.mem_singleton_self _)

theorem head_of_mem {n : Name} (hn : n ∈ h.name) : h.head = n.span := by
  rw [head, Option.mem_def.1 hn]
  rfl

/-- A list is read as if the name, if there is one, were the `def` before it. -/
theorem readParameters_head (source : Excerpt) (h : Header) :
    readParameters source ⟨h.head, h.name, h.list, h.span⟩ = h.readParameters source := by
  rw [readParameters, readParameters, head]
  cases h.name <;> rfl

/-- What is wrong with a list is in it, or at the token before it. -/
theorem InTurn.head_le_listFault (hp : h.InTurn) {f : Fault} (hf : f ∈ h.listFault? source) :
    h.head.start ≤ f.span.start := by
  have hends : Ends (readParameters source ⟨h.head, h.name, h.list, h.span⟩) _ _ :=
    ends_readParameters (P := fun s => h.head.start ≤ s.start) (fun _ _ => le_min) (Nat.le_refl _)
      (fun n hn => (congrArg Span.start (head_of_mem (h := h) hn)).le) hp.head_le
  rw [readParameters_head] at hends
  rw [listFault?] at hf
  cases hr : h.readParameters source with
  | ok names =>
    rw [hr] at hf
    cases hf
  | error fault =>
    rw [hr] at hf
    cases hf
    exact (hends.fault hr).span

/-- What is reported for the name comes first, then the list or the names in it. -/
theorem InTurn.pairwise_faults (hp : h.InTurn) (source : Excerpt) (isEntry : Bool)
    (earlier : List String) :
    ((h.nameFault? isEntry earlier).toList ++ ((h.listFault? source).toList ++
      (occurrences true (h.parameters source).1).map Fault.duplicate)).Pairwise
        fun f g => f.span.start ≤ g.span.start := by
  have hname : ∀ f ∈ h.nameFault? isEntry earlier, f.span.start ≤ h.head.start := by
    intro f hf
    have hfits := fits_of_nameFault? (P := fun s => s.start ≤ h.head.start) hp.le_head
      (fun n hn => (congrArg Span.start (head_of_mem hn)).ge) (Option.mem_def.1 hf)
    exact hfits.span
  have hrepeated : (occurrences true (h.parameters source).1).Sublist (h.list.map Token.name) :=
    (occurrences_sublist true _).trans (h.sublist_parameters source)
  have hlist : ∀ f ∈ (h.listFault? source).toList ++
      (occurrences true (h.parameters source).1).map Fault.duplicate,
      h.head.start ≤ f.span.start := by
    simp only [List.forall_mem_append, Option.mem_toList, List.forall_mem_map]
    refine ⟨fun f hf => hp.head_le_listFault hf, fun n hn => ?_⟩
    obtain ⟨t, ht, rfl⟩ := List.mem_map.1 (hrepeated.subset hn)
    exact hp.head_le t ht
  rw [List.pairwise_append]
  refine ⟨?_, ?_, fun f hf g hg => (hname f (Option.mem_toList.1 hf)).trans (hlist g hg)⟩
  · cases h.nameFault? isEntry earlier <;> simp
  · cases hr : h.readParameters source with
    | error fault =>
      -- without parameters none is repeated
      rw [listFault?, parameters, hr]
      exact List.pairwise_singleton _ _
    | ok names =>
      rw [listFault?, hr, Option.toList_none, List.nil_append, List.pairwise_map]
      have hspans := (List.pairwise_append.1 (List.pairwise_cons.1 hp).2).2.1
      refine List.Pairwise.sublist hrepeated ?_
      rwa [List.pairwise_map] at hspans ⊢

end Header

inductive Token.WithoutColon : List Token → List Token → Prop
  | colon {ts : List Token} {t : Token} (ht : t.kind = .colon) : WithoutColon (ts ++ [t]) ts
  | none {ts : List Token} (h : ∀ t ∈ ts.getLast?, t.kind ≠ .colon) : WithoutColon ts ts

theorem Token.WithoutColon.dropColon_eq {ts list : List Token} (h : WithoutColon ts list) :
    Header.dropColon ts = list := by
  cases h with
  | colon ht =>
    rw [Header.dropColon, List.getLast?_concat]
    simp only [ht, if_true, List.dropLast_concat]
  | none h =>
    rw [Header.dropColon]
    cases hlast : ts.getLast? with
    | none => rfl
    | some t =>
      simp only [if_neg (h t hlast)]

theorem Token.WithoutColon.sublist {ts list : List Token} (h : WithoutColon ts list) :
    list.Sublist ts := by
  rw [← h.dropColon_eq]
  exact Header.dropColon_sublist ts

theorem Span.InTurn.starts {parts : List Span} {whole : Span} (h : InTurn parts whole) :
    parts.Pairwise fun a b => a.start ≤ b.start :=
  h.ordered.imp_of_mem fun ha _ hab => (h.nonempty _ ha).le.trans hab

theorem Token.WithoutColon.inTurn {line : Excerpt} {d : Token} {name? : Option Token}
    {ts list : List Token} (h : WithoutColon ts list)
    (ht : line.tokens = .ok (d :: (name?.toList ++ ts))) (span : Span) :
    Header.InTurn ⟨d.span, name?.map Token.name, list, span⟩ := by
  refine List.Pairwise.sublist ?_ (Excerpt.inTurn_tokens ht).starts
  have hspans := ((h.sublist.append_left name?.toList).cons_cons d).map Token.span
  rw [List.map_cons, List.map_append] at hspans
  cases name? <;> exact hspans

/-- A header line: `def`, at most one name, and a list. -/
theorem Header.ofTokens?_eq_some {d : Token} {name? : Option Token} {ts list : List Token}
    (hd : d.word.isDef) (hname : ∀ n ∈ name?, n.kind = .ident)
    (hnext : name? = none → ∃ t ∈ ts.head?, t.kind = .openParen)
    (hlist : Token.WithoutColon ts list) :
    ofTokens? (d :: (name?.toList ++ ts)) =
      some ⟨d.span, name?.map Token.name, list, d.reach (name?.toList ++ ts)⟩ := by
  rw [← hlist.dropColon_eq]
  cases name? with
  | some n => exact ofTokens?_of_ident hd (hname n rfl)
  | none =>
    obtain ⟨t, ht, hk⟩ := hnext rfl
    obtain ⟨rest, rfl⟩ := List.head?_eq_some_iff.1 ht
    rw [Option.toList_none, List.nil_append, ofTokens?, if_pos (Token.eq_of_isDef hd)]
    simp only [hk]
    rfl

namespace Context

variable {line : Excerpt} {h : Header}

/-- What is reported for a header line is in the order of its places. -/
theorem diagnostics_header (before : List Excerpt) (hh : line.header? = some h) (hp : h.InTurn) :
    (after before).diagnostics [line] =
      ((h.nameFault? (before.all (!·.isHeader)) (before.filterMap Excerpt.nameText?)).toList ++
        ((h.listFault? line).toList ++
          (occurrences true (h.parameters line).1).map Fault.duplicate)).map Fault.diagnostic := by
  have hfaults : (after before).faults (Line.ofExcerpt line) =
      (h.nameFault? (before.all (!·.isHeader)) (before.filterMap Excerpt.nameText?)).toList ++
        ((h.listFault? line).toList ++
          (occurrences true (h.parameters line).1).map Fault.duplicate) := by
    rw [Excerpt.ofExcerpt_of_header? hh, faults, Opening.read_readable, ← h.faults_parameters,
      ← (Scope.defineAll_empty .parameter (h.parameters line).1).2, ← isNone_scope?_after,
      ← h.nameFault?_congr fun _ => mem_names_after]
  rw [diagnostics, List.map_singleton, reports, reports, List.flatten_singleton, hfaults,
    Fault.inOrder, stableSort_eq_self]
  exact (hp.pairwise_faults line _ _).imp decide_eq_true

end Context

/-- The first block is kept in any case, a later one if it has a name of its own. -/
theorem Block.isSome_definition? {isEntry : Bool} {earlier : List String} {b : Block} :
    (definition? isEntry earlier b).isSome ↔
      isEntry ∨ ∃ n, b.opening.nameText? = some n ∧ isReserved n = false ∧ n ∉ earlier := by
  rw [definition?_eq]
  cases isEntry with
  | true => simp
  | false =>
    rw [Bool.false_or, ← Opening.nameFault?_eq_none_later, ← Option.isNone_iff_eq_none]
    cases h : (b.opening.read false earlier).nameFault?.isNone <;> simp

namespace Program

/-- Whether the block of a header is kept depends on its name, and that is its name in any case. -/
theorem blockDefinitions_append_header (before rest : List Excerpt) {line : Excerpt} {h : Header}
    (hh : line.header? = some h) :
    ∃ o more, blockDefinitions (before ++ line :: rest) = blockDefinitions before ++ o :: more ∧
      (o.isSome ↔ before.all (!·.isHeader) ∨ ∃ n ∈ h.name, isReserved n.val = false ∧
        n.val ∉ before.filterMap Excerpt.nameText?) ∧
      ∀ x ∈ o, x.name = h.name ∧ x.parameters = (h.parameters line).1 := by
  have hblocks : blockDefinitions (before ++ line :: rest) = blockDefinitions before ++
      Block.definitions? (before.all (!·.isHeader)) (before.filterMap Excerpt.nameText?).reverse
        (⟨.readable line h, (Block.group (rest.map Line.ofExcerpt)).1⟩ ::
          (Block.group (rest.map Line.ofExcerpt)).2) := by
    rw [blockDefinitions, List.map_append, List.map_cons, Excerpt.ofExcerpt_of_header? hh,
      Block.group_append_opening, Block.definitions?_append, Block.isEmpty_group,
      Block.filterMap_nameText?_group, List.append_nil]
    rfl
  rw [Block.definitions?] at hblocks
  refine ⟨_, _, hblocks, ?_, fun x hx => ?_⟩
  · rw [Block.isSome_definition?]
    simp only [Opening.nameText?, Option.map_eq_some_iff, List.mem_reverse]
    refine or_congr_right ⟨?_, ?_⟩
    · rintro ⟨n, ⟨name, hname, rfl⟩, hn⟩
      exact ⟨name, hname, hn⟩
    · rintro ⟨name, hname, hn⟩
      exact ⟨_, ⟨name, hname, rfl⟩, hn⟩
  · rw [Block.definition?_eq] at hx
    obtain ⟨-, hx⟩ := Option.ite_none_right_eq_some.1 hx
    cases hx
    exact ⟨rfl, rfl⟩

/-- The list of a header gives the block its parameters if it is four names, and none otherwise.
Unless it is four names or empty there is one diagnostic for it, and one for each parameter that is
repeated. The names in scope below the header are the parameters without the repeated ones, and
whether the block is kept depends on its name alone. -/
theorem parse_header_list {text : String} {before rest : List Excerpt} {line : Excerpt}
    {d : Token} {name? : Option Token} {ts list : List Token}
    (hlines : (Excerpt.whole text).lines = before ++ line :: rest)
    (ht : line.tokens = .ok (d :: (name?.toList ++ ts))) (hd : d.word.isDef)
    (hname : ∀ n ∈ name?, n.kind = .ident)
    (hnext : name? = none → ∃ t ∈ ts.head?, t.kind = .openParen)
    (hlist : Token.WithoutColon ts list) :
    let header : Header := ⟨d.span, name?.map Token.name, list, d.reach (name?.toList ++ ts)⟩
    let names := before.filterMap Excerpt.nameText?
    let nameFault? := header.nameFault? (before.all (!·.isHeader)) names
    let result := parse text
    ∃ (parameters : List Name) (listFault? : Option Fault),
      (Token.IsFourNames list → parameters = (Token.idents list).map Token.name) ∧
      (¬ Token.IsFourNames list → parameters = []) ∧
      (listFault? = none ↔ Token.IsFourNames list ∨ Token.IsEmptyList list) ∧
      (∀ f ∈ listFault?, f.code = .syntactic ∨ f.code = .arity ∨ f.code = .kindMismatch) ∧
      (∃ ds es, result.diagnostics = ds ++ (nameFault?.toList ++ (listFault?.toList ++
          (occurrences true parameters).map Fault.duplicate)).map Fault.diagnostic ++ es ∧
        (∀ e ∈ ds, ∃ l ∈ before, e.span.Within l.span) ∧
        ∀ e ∈ es, ∃ l ∈ rest, e.span.Within l.span) ∧
      (Context.after (before ++ [line])).scope? =
        some ⟨(occurrences false parameters).map (⟨·, .parameter⟩)⟩ ∧
      result.program.definitions = (blockDefinitions (Excerpt.whole text).lines).reduceOption ∧
      ∃ o more,
        blockDefinitions (Excerpt.whole text).lines = blockDefinitions before ++ o :: more ∧
        (o.isSome ↔ (∀ l ∈ before, l.isHeader = false) ∨
          ∃ n ∈ name?, isReserved n.text = false ∧ n.text ∉ names) ∧
        ∀ x ∈ o, x.name = name?.map Token.name ∧ x.parameters = parameters := by
  intro header names nameFault? result
  have hh : line.header? = some header :=
    (Excerpt.header?_of_tokens ht).trans (Header.ofTokens?_eq_some hd hname hnext hlist)
  have hl : line.isHeader := by
    rw [Excerpt.isHeader_of_tokens ht, hh]
    rfl
  have hheader : ∃ l ∈ (Excerpt.whole text).lines, l.isHeader :=
    ⟨line, hlines ▸ List.mem_append_right _ List.mem_cons_self, hl⟩
  have hplaces := Excerpt.pairwise_lines (.whole text)
  rw [hlines] at hplaces
  have hdiags : result.diagnostics = (Context.after []).diagnostics before ++
      (Context.after before).diagnostics [line] ++
        (Context.after (before ++ [line])).diagnostics rest := by
    have hrest : ([line] ++ rest).Pairwise _ := (List.pairwise_append.1 hplaces).2.1
    rw [diagnostics_of_header hheader, hlines, Context.diagnostics_append [] hplaces,
      List.append_assoc]
    exact congrArg _ (Context.diagnostics_append before hrest)
  refine ⟨(header.parameters line).1, header.listFault? line, ?_, ?_, ?_, ?_, ?_, ?_,
    definitions_parse hheader, ?_⟩
  · exact fun hf => Header.parameters_of_isFourNames hf
  · exact fun hf => Header.parameters_of_not_isFourNames hf
  · exact Header.listFault?_eq_none
  · exact fun f hf => Header.code_of_listFault hf
  · rw [hdiags, Context.diagnostics_header before hh (hlist.inTurn ht _)]
    exact ⟨_, _, rfl, fun e => Context.exists_of_mem_diagnostics,
      fun e => Context.exists_of_mem_diagnostics⟩
  · rw [Context.after_append_singleton, Context.next_header _ hl, Excerpt.headerScope,
      Excerpt.parameters, hh, ← (Scope.defineAll_empty .parameter _).1]
  · obtain ⟨o, more, hblocks, hkept, hread⟩ := blockDefinitions_append_header before rest hh
    rw [hlines]
    refine ⟨o, more, hblocks, hkept.trans (or_congr ?_ ?_), hread⟩
    · simp
    · show (∃ n ∈ name?.map Token.name, _) ↔ _
      simp only [Option.mem_map, exists_exists_and_eq_and]
      rfl

/-- The second `a` is a parameter that is reported and not bound. -/
theorem parse_header_list_repeated :
    let text := "def main(a, b, a, c):"
    let line : Excerpt := ⟨0, text.toList⟩
    (Excerpt.whole text).lines = [line] ∧
      (parse text).diagnostics = [Fault.diagnostic (.duplicate ⟨"a", ⟨15, 16⟩⟩)] ∧
      (Context.after [line]).scope? = some ⟨[⟨⟨"a", ⟨9, 10⟩⟩, .parameter⟩,
        ⟨⟨"b", ⟨12, 13⟩⟩, .parameter⟩, ⟨⟨"c", ⟨18, 19⟩⟩, .parameter⟩]⟩ := by
  intro text line
  have hlines : (Excerpt.whole text).lines = [] ++ line :: [] := by decide +kernel
  let list : List Token := [⟨.openParen, "(", ⟨8, 9⟩⟩, ⟨.ident, "a", ⟨9, 10⟩⟩,
    ⟨.comma, ",", ⟨10, 11⟩⟩, ⟨.ident, "b", ⟨12, 13⟩⟩, ⟨.comma, ",", ⟨13, 14⟩⟩,
    ⟨.ident, "a", ⟨15, 16⟩⟩, ⟨.comma, ",", ⟨16, 17⟩⟩, ⟨.ident, "c", ⟨18, 19⟩⟩,
    ⟨.closeParen, ")", ⟨19, 20⟩⟩]
  have ht : line.tokens = .ok (⟨.ident, "def", ⟨0, 3⟩⟩ ::
      ((some ⟨.ident, "main", ⟨4, 8⟩⟩ : Option Token).toList ++
        (list ++ [⟨.colon, ":", ⟨20, 21⟩⟩]))) := by decide +kernel
  have hfour : Token.IsFourNames list := ⟨by decide +kernel, by decide +kernel⟩
  obtain ⟨parameters, listFault?, hnames, -, hfault, -, ⟨ds, es, hdiags, hds, hes⟩, hscope, -⟩ :=
    parse_header_list hlines ht (by decide +kernel) (by decide) (by decide) (.colon rfl)
  obtain rfl := hnames hfour
  obtain rfl := hfault.2 (.inl hfour)
  have hnone : ∀ es : List Diagnostic,
      (∀ e ∈ es, ∃ l ∈ ([] : List Excerpt), e.span.Within l.span) → es = [] := by
    intro es h
    refine List.eq_nil_iff_forall_not_mem.2 fun e he => ?_
    obtain ⟨l, hl, -⟩ := h e he
    cases hl
  rw [hnone ds hds, hnone es hes] at hdiags
  exact ⟨hlines, hdiags.trans (by decide +kernel), hscope.trans (by decide +kernel)⟩

end Program

end ShapeAssembly
