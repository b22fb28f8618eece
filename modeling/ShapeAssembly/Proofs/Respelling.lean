import Mathlib.Data.List.Forall2
import ShapeAssembly.Proofs.HeaderNames

namespace ShapeAssembly

/-! Lines that have the same words in another layout. -/

/-- Two ends of reading: values that are related, or faults with one code. -/
inductive EndsAlike {α β : Type} (R : α → β → Prop) : Except Fault α → Except Fault β → Prop
  | value {a : α} {b : β} (h : R a b) : EndsAlike R (.ok a) (.ok b)
  | fault {x y : Fault} (h : x.code = y.code) : EndsAlike R (.error x) (.error y)

namespace EndsAlike

variable {α β γ δ : Type} {R : α → β → Prop} {S : γ → δ → Prop} {x : Except Fault α}
  {y : Except Fault β}

theorem bind (h : EndsAlike R x y) {k : α → Except Fault γ} {l : β → Except Fault δ}
    (hk : ∀ a b, R a b → EndsAlike S (k a) (l b)) : EndsAlike S (x >>= k) (y >>= l) := by
  cases h with
  | value h => exact hk _ _ h
  | fault h => exact .fault h

theorem map (h : EndsAlike R x y) {k : α → γ} {l : β → δ} (hk : ∀ a b, R a b → S (k a) (l b)) :
    EndsAlike S (k <$> x) (l <$> y) := by
  cases h with
  | value h => exact .value (hk _ _ h)
  | fault h => exact .fault h

end EndsAlike

theorem sameLetters_iff {a b : String} :
    sameLetters a b ↔ a.toList.map Char.toLower = b.toList.map Char.toLower := by
  rw [sameLetters, decide_eq_true_eq]

theorem Located.map_erase_of_map_val {as bs : List Name} (h : as.map (·.val) = bs.map (·.val)) :
    as.map erase = bs.map erase := by
  have herase := congrArg (List.map fun text : String => (⟨text, default⟩ : Name)) h
  rwa [List.map_map, List.map_map] at herase

theorem map_val_of_rel {a b : Option Name} (h : Option.Rel (fun r s => r.val = s.val) a b) :
    a.map (·.val) = b.map (·.val) := by
  cases h with
  | none => rfl
  | some h => exact congrArg some h

namespace Token

/-- Tokens that differ in their places only. -/
structure Alike (t u : Token) : Prop where
  kind : t.kind = u.kind
  text : t.text = u.text

/-- Tokens that differ in their places and in the case of the first one. -/
inductive StartAlike : List Token → List Token → Prop
  | nil : StartAlike [] []
  | cons {t u : Token} {ts us : List Token} (hkind : t.kind = u.kind)
    (htext : sameLetters t.text u.text) (hrest : List.Forall₂ Alike ts us) :
    StartAlike (t :: ts) (u :: us)

/-- Tokens of lines that differ in layout and in the case of the keyword. The keyword comes after
the equals sign, and in a line without a result, such as a header, it comes first. -/
inductive LinesAlike : List Token → List Token → Prop
  | plain {ts us : List Token} (h : StartAlike ts us) (hno : ∀ t ∈ ts.tail.head?, t.kind ≠ .eq) :
    LinesAlike ts us
  | assigned {r s eq eq' : Token} {ts us : List Token} (hresult : r.Alike s)
    (heq : eq.kind = .eq) (heq' : eq'.kind = .eq) (h : StartAlike ts us) :
    LinesAlike (r :: eq :: ts) (s :: eq' :: us)

variable {t u : Token} {ts us : List Token}

theorem Alike.depthAfter (h : t.Alike u) (depth : Nat) :
    t.depthAfter depth = u.depthAfter depth := by
  rw [Token.depthAfter, Token.depthAfter, h.kind]

theorem splitAtCommas_alike (h : List.Forall₂ Alike ts us) (depth : Nat) :
    List.Forall₂ Alike (splitAtCommas depth ts).1 (splitAtCommas depth us).1 ∧
      List.Forall₂ (fun p q => List.Forall₂ Alike p.2 q.2) (splitAtCommas depth ts).2
        (splitAtCommas depth us).2 := by
  induction h generalizing depth with
  | nil => exact ⟨.nil, .nil⟩
  | cons h hs ih =>
    rw [splitAtCommas_cons, splitAtCommas_cons, h.kind, h.depthAfter]
    split
    · exact ⟨.nil, .cons (ih depth).1 (ih depth).2⟩
    · exact ⟨.cons h (ih _).1, (ih _).2⟩

theorem splitAtClose?_alike (h : List.Forall₂ Alike ts us) (depth : Nat) :
    Option.Rel (fun p q => List.Forall₂ Alike p.1 q.1 ∧ List.Forall₂ Alike p.2.2 q.2.2)
      (splitAtClose? depth ts) (splitAtClose? depth us) := by
  induction h generalizing depth with
  | nil => exact .none
  | @cons t u ts us h hs ih =>
    rw [splitAtClose?_cons, splitAtClose?_cons, h.kind, h.depthAfter]
    split
    · exact .some ⟨.nil, hs⟩
    · have hrel := ih (u.depthAfter depth)
      generalize splitAtClose? (u.depthAfter depth) ts = x at hrel
      generalize splitAtClose? (u.depthAfter depth) us = y at hrel
      cases hrel with
      | none => exact .none
      | some hpq => exact .some ⟨.cons h hpq.1, hpq.2⟩

theorem find?_alike (h : List.Forall₂ Alike ts us) (kind : TokenKind) :
    (ts.find? (·.kind = kind)).isSome = (us.find? (·.kind = kind)).isSome := by
  induction h with
  | nil => rfl
  | cons h hs ih =>
    rw [List.find?_cons, List.find?_cons, h.kind]
    split
    · rfl
    · exact ih

end Token

namespace RawArgument

/-- Arguments of the same kind; the blanks within an argument of several tokens do not count. -/
structure Alike (a b : RawArgument) : Prop where
  token : a.token = b.token
  text : a.token ≠ none → a.text.val = b.text.val

variable {a b : RawArgument}

theorem alike_ofTokens (source source' : Excerpt) {t u : Token} {ts us : List Token}
    (h : t.Alike u) (hs : List.Forall₂ Token.Alike ts us) :
    (ofTokens source t ts).Alike (ofTokens source' u us) := by
  cases hs with
  | nil => exact ⟨congrArg some h.kind, fun _ => h.text⟩
  | cons => exact ⟨rfl, fun hne => absurd rfl hne⟩

theorem ofSegments_alike (source source' : Excerpt) {segment segment' : List Token}
    (hs : List.Forall₂ Token.Alike segment segment') {more more' : List (Token × List Token)}
    (hm : List.Forall₂ (fun p q => List.Forall₂ Token.Alike p.2 q.2) more more') :
    EndsAlike (List.Forall₂ Alike) (ofSegments source segment more)
      (ofSegments source' segment' more') := by
  induction hm generalizing segment segment' with
  | nil =>
    cases hs with
    | nil => exact .value .nil
    | cons h hs => exact .value (.cons (alike_ofTokens _ _ h hs) .nil)
  | @cons p q more more' hnext hm ih =>
    obtain ⟨comma, next⟩ := p
    obtain ⟨comma', next'⟩ := q
    cases hs with
    | nil => exact .fault rfl
    | cons h hs =>
      have hempty : next.isEmpty = next'.isEmpty := by cases hnext <;> rfl
      have hlast : more.isEmpty = more'.isEmpty := by cases hm <;> rfl
      rw [ofSegments, ofSegments, hempty, hlast]
      split
      · exact .fault rfl
      · exact (ih hnext).map fun _ _ => .cons (alike_ofTokens _ _ h hs)

theorem split_alike (source source' : Excerpt) {ts us : List Token}
    (h : List.Forall₂ Token.Alike ts us) :
    EndsAlike (List.Forall₂ Alike) (split source ts) (split source' us) :=
  ofSegments_alike _ _ (Token.splitAtCommas_alike h 0).1 (Token.splitAtCommas_alike h 0).2

end RawArgument

theorem Call.read_alike (source source' : Excerpt) (head head' : Span) {ts us : List Token}
    (h : List.Forall₂ Token.Alike ts us) :
    EndsAlike (fun c d => List.Forall₂ RawArgument.Alike c.arguments d.arguments)
      (read source head ts) (read source' head' us) := by
  cases h with
  | nil => exact .fault rfl
  | @cons t u ts us ht hs =>
    rw [read, read, ht.kind]
    split
    · exact .fault rfl
    · have hclose := Token.splitAtClose?_alike hs 0
      generalize Token.splitAtClose? 0 ts = x at hclose
      generalize Token.splitAtClose? 0 us = y at hclose
      cases hclose with
      | none => exact .fault rfl
      | @some p q hpq =>
        obtain ⟨inner, close, rest⟩ := p
        obtain ⟨inner', close', rest'⟩ := q
        obtain ⟨hinner, hrest⟩ := hpq
        have hbad := Token.find?_alike hinner .error
        dsimp only at hinner hrest ⊢
        generalize inner.find? (·.kind = .error) = bad at hbad
        generalize inner'.find? (·.kind = .error) = bad' at hbad
        cases bad with
        | some =>
          obtain ⟨_, rfl⟩ := Option.isSome_iff_exists.1 hbad.symm
          exact .fault rfl
        | none =>
          obtain rfl := Option.not_isSome_iff_eq_none.1 (by rw [← hbad]; exact Bool.false_ne_true)
          cases hrest with
          | cons => exact .fault rfl
          | nil => exact (RawArgument.split_alike _ _ hinner).map fun _ _ hargs => hargs

namespace RawArgument

variable {a b : RawArgument} {scope scope' : Scope}

theorem Alike.value? (h : a.Alike b) (kind : Kind) : a.value? kind = b.value? kind := by
  obtain ⟨text, token⟩ := a
  obtain ⟨text', token'⟩ := b
  obtain ⟨rfl, htext⟩ := h
  cases token with
  | none => cases kind <;> rfl
  | some token =>
    have htext : text.val = text'.val := htext (Option.some_ne_none token)
    cases kind <;> simp only [RawArgument.value?, usable?, ident?, htext]

/-- A scope is asked for its names only. -/
theorem coerce_alike (hs : scope'.names = scope.names) (h : a.Alike b) (keyword : String)
    (position : Nat) (kind : Kind) :
    EndsAlike (fun x y => x.erase = y.erase) (a.coerce keyword position kind scope)
      (b.coerce keyword position kind scope') := by
  rw [coerce, coerce, ← h.value? kind]
  cases hv : a.value? kind with
  | none => exact .fault rfl
  | some value =>
    have htext : a.text.val = b.text.val :=
      h.text (by rw [token_of_value? hv]; exact Option.some_ne_none _)
    simp only [← htext, scopeCause?_congr hs]
    cases scopeCause? scope a.text.val kind with
    | some cause => exact .fault rfl
    | none =>
      apply EndsAlike.value
      rw [Argument.erase, Argument.erase, Located.erase_inj.2 htext]

theorem coerceFrom_alike (hs : scope'.names = scope.names) {as bs : List RawArgument}
    (h : List.Forall₂ Alike as bs) (keyword : String) (position : Nat) (kinds : Signature) :
    EndsAlike (fun xs ys => xs.map Argument.erase = ys.map Argument.erase)
      (coerceFrom keyword position scope as kinds)
      (coerceFrom keyword position scope' bs kinds) := by
  induction h generalizing position kinds with
  | nil => exact .value rfl
  | cons h _ ih =>
    cases kinds with
    | nil => exact .value rfl
    | cons kind kinds =>
      apply (coerce_alike hs h keyword position kind).bind
      intro x y hxy
      apply (ih (position + 1) kinds).bind
      intro xs ys hs
      exact .value (by rw [List.map_cons, List.map_cons, hxy, hs])

end RawArgument

theorem Schema.validate_alike {scope scope' : Scope} (hs : scope'.names = scope.names)
    (schema : Schema) {as bs : List RawArgument} (h : List.Forall₂ RawArgument.Alike as bs)
    (list list' : Span) :
    EndsAlike (fun xs ys => xs.map Argument.erase = ys.map Argument.erase)
      (schema.validate as list scope) (schema.validate bs list' scope') := by
  rw [validate, validate, h.length_eq]
  cases schema.signature? bs.length with
  | some kinds => exact RawArgument.coerceFrom_alike hs h _ _ _
  | none => exact .fault rfl

namespace Statement

def fold (s : Statement) : Statement :=
  { s.erase with keyword := ⟨String.ofList (s.keyword.val.toList.map Char.toLower), default⟩ }

structure Head.Alike (h k : Head) : Prop where
  result : Option.Rel (fun r s => r.val = s.val) h.result k.result
  keyword : sameLetters h.keyword.val k.keyword.val
  schema : h.schema = k.schema
  binding : h.binding = k.binding

variable {ts us : List Token} {scope scope' : Scope}

theorem splitResult_of_no_eq (hno : ∀ t ∈ ts.tail.head?, t.kind ≠ .eq) :
    splitResult ts = .ok (none, ts) := by
  cases ts with
  | nil => rfl
  | cons t ts =>
    cases ts with
    | nil => rfl
    | cons eq rest => exact if_pos (hno eq rfl)

theorem splitResult_alike (h : Token.LinesAlike ts us) :
    EndsAlike
      (fun p q => Option.Rel (fun r s => r.val = s.val) p.1 q.1 ∧ Token.StartAlike p.2 q.2)
      (splitResult ts) (splitResult us) := by
  cases h with
  | plain h hno =>
    have hno' : ∀ t ∈ us.tail.head?, t.kind ≠ .eq := by
      cases h with
      | nil => exact hno
      | cons _ _ hrest =>
        cases hrest with
        | nil => exact hno
        | cons h _ => simpa [← h.kind] using hno
    rw [splitResult_of_no_eq hno, splitResult_of_no_eq hno']
    exact .value ⟨.none, h⟩
  | @assigned r s eq eq' ts us hresult heq heq' h =>
    have hempty : ts.isEmpty = us.isEmpty := by cases h <;> rfl
    rw [splitResult, splitResult, if_neg (not_not.2 heq), if_neg (not_not.2 heq'), hresult.kind,
      hempty]
    split
    · exact .fault rfl
    · split
      · exact .fault rfl
      · exact .value ⟨.some hresult.text, h⟩

theorem readKeyword_alike {t u : Token} (hkind : t.kind = u.kind)
    (htext : sameLetters t.text u.text) : EndsAlike Eq (readKeyword t) (readKeyword u) := by
  rw [readKeyword, readKeyword, hkind, Schema.lookup?_congr htext]
  split
  · exact .fault rfl
  · cases Schema.lookup? u.text with
    | none => exact .fault rfl
    | some schema =>
      cases hb : schema.binding? with
      | none => simp only [hb]; exact .fault rfl
      | some binding => simp only [hb]; exact .value rfl

theorem readHead_alike (h : Token.LinesAlike ts us) :
    EndsAlike (fun p q => p.1.Alike q.1 ∧ List.Forall₂ Token.Alike p.2 q.2) (readHead ts)
      (readHead us) := by
  apply (splitResult_alike h).bind
  rintro ⟨result, ts⟩ ⟨result', us⟩ ⟨hresult, hstart⟩
  cases hstart with
  | nil => exact .fault rfl
  | cons hkind htext hrest =>
    apply (readKeyword_alike hkind htext).bind
    rintro p q rfl
    exact .value ⟨⟨hresult, htext, rfl, rfl⟩, hrest⟩

namespace Head

variable {h k : Head}

theorem checkResult_alike (hs : scope'.names = scope.names) (ha : h.Alike k) :
    EndsAlike Eq (h.checkResult scope) (k.checkResult scope') := by
  have hresult := ha.result
  rw [checkResult, checkResult]
  generalize h.result = x at hresult
  generalize k.result = y at hresult
  cases hresult with
  | none => exact .value rfl
  | some hval =>
    simp only [hval, Scope.contains_congr hs]
    split
    · exact .fault rfl
    · split
      · exact .fault rfl
      · exact .value rfl

theorem readArguments_alike (hs : scope'.names = scope.names) (ha : h.Alike k)
    (source source' : Excerpt) (hts : List.Forall₂ Token.Alike ts us) :
    EndsAlike (fun xs ys => xs.map Argument.erase = ys.map Argument.erase)
      (h.readArguments source scope ts) (k.readArguments source' scope' us) := by
  have hresult : h.result = none ↔ k.result = none := by
    have hval := map_val_of_rel ha.result
    rw [← Option.map_eq_none_iff, hval, Option.map_eq_none_iff]
  apply (Call.read_alike source source' _ _ hts).bind
  intro call call' hargs
  rw [ha.binding, ha.schema]
  simp only [hresult]
  split
  · exact .fault rfl
  · apply (Schema.validate_alike hs k.schema hargs _ _).bind
    intro xs ys hxy
    apply (checkResult_alike hs ha).bind
    rintro _ _ rfl
    exact .value hxy

theorem bind_alike (hs : scope'.names = scope.names) (ha : h.Alike k) :
    EndsAlike (fun s s' => s'.names = s.names) (h.bind scope) (k.bind scope') := by
  have hresult := ha.result
  rw [bind, bind]
  generalize h.result = x at hresult
  generalize k.result = y at hresult
  cases hresult with
  | none => exact .value hs
  | some hval =>
    simp only [Scope.define, hval, Scope.contains_congr hs]
    split
    · exact .fault rfl
    · exact .value (by rw [Scope.names_append, Scope.names_append, hs, hval])

end Head

theorem fold_mk {h k : Head} (ha : h.Alike k) {xs ys : List Argument}
    (hargs : xs.map Argument.erase = ys.map Argument.erase) (span span' : Span) :
    (⟨h.keyword, h.result, xs, span⟩ : Statement).fold =
      (⟨k.keyword, k.result, ys, span'⟩ : Statement).fold := by
  simp only [fold, erase, hargs, sameLetters_iff.1 ha.keyword,
    Located.map_erase_inj.2 (map_val_of_rel ha.result)]

/-- Lines with the same words leave the same, and they fail alike. -/
theorem parse_alike (hs : scope'.names = scope.names) (source source' : Excerpt)
    (h : Token.LinesAlike ts us) :
    (parse source scope ts).1.statement?.map fold =
        (parse source' scope' us).1.statement?.map fold ∧
      (parse source scope ts).1.fault?.map Fault.code =
        (parse source' scope' us).1.fault?.map Fault.code ∧
      (parse source' scope' us).2.names = (parse source scope ts).2.names := by
  rw [parse, parse]
  have hhead := readHead_alike h
  generalize readHead ts = x at hhead
  generalize readHead us = y at hhead
  cases hhead with
  | fault hcode => exact ⟨rfl, congrArg some hcode, hs⟩
  | @value p q hpq =>
    obtain ⟨head, call⟩ := p
    obtain ⟨head', call'⟩ := q
    obtain ⟨ha, hcall⟩ := hpq
    dsimp only at ha hcall ⊢
    have hargs := Head.readArguments_alike hs ha source source' hcall
    generalize head.readArguments source scope call = x at hargs
    generalize head'.readArguments source' scope' call' = y at hargs
    cases hargs with
    | fault hcode => exact ⟨congrArg some (fold_mk ha rfl _ _), congrArg some hcode, hs⟩
    | value hargs =>
      have hbind := Head.bind_alike hs ha
      dsimp only
      generalize head.bind scope = x at hbind
      generalize head'.bind scope' = y at hbind
      cases hbind with
      | fault hcode => exact ⟨congrArg some (fold_mk ha rfl _ _), congrArg some hcode, hs⟩
      | value hnames => exact ⟨congrArg some (fold_mk ha hargs _ _), rfl, hnames⟩

end Statement

namespace Header

/-- Headers that differ in their places only. -/
structure Alike (h k : Header) : Prop where
  name : Option.Rel (fun n m => n.val = m.val) h.name k.name
  list : List.Forall₂ Token.Alike h.list k.list

variable {h k : Header} {ts us : List Token}

theorem dropColon_alike (h : List.Forall₂ Token.Alike ts us) :
    List.Forall₂ Token.Alike (dropColon ts) (dropColon us) := by
  have hdrop : List.Forall₂ Token.Alike ts.dropLast us.dropLast := by
    rw [List.dropLast_eq_take, List.dropLast_eq_take, h.length_eq]
    exact List.forall₂_take _ h
  have hlast := List.forall₂_reverse_iff.2 h
  rw [dropColon, dropColon, ← List.head?_reverse, ← List.head?_reverse]
  generalize ts.reverse = ts' at hlast
  generalize us.reverse = us' at hlast
  cases hlast with
  | nil => exact h
  | cons hlast =>
    simp only [List.head?_cons, hlast.kind]
    split
    · exact hdrop
    · exact h

theorem ofTokens?_eq_none_of_eq {t eq : Token} (heq : eq.kind = .eq) :
    ofTokens? (t :: eq :: ts) = none :=
  ofTokens?_eq_none (by rw [heq]; decide) (by rw [heq]; decide)

/-- A header may begin with `def` in any case. -/
theorem ofTokens?_alike (h : Token.LinesAlike ts us) :
    Option.Rel Alike (ofTokens? ts) (ofTokens? us) := by
  cases h with
  | assigned _ heq heq' =>
    rw [ofTokens?_eq_none_of_eq heq, ofTokens?_eq_none_of_eq heq']
    exact .none
  | plain h hno =>
    cases h with
    | nil => exact .none
    | @cons t u ts us hkind htext hrest =>
      have hdef : sameLetters t.text "def" ↔ sameLetters u.text "def" := by
        rw [sameLetters_iff, sameLetters_iff, sameLetters_iff.1 htext]
      cases hrest with
      | nil => exact .none
      | @cons n m ts us hn hrest =>
        simp only [ofTokens?, hkind, hdef, hn.kind]
        split
        · cases hm : m.kind with
          | ident => exact .some ⟨.some hn.text, dropColon_alike hrest⟩
          | openParen => exact .some ⟨.none, dropColon_alike (.cons hn hrest)⟩
          | _ => exact .none
        · exact .none

/-- The parameters and what is wrong with their list. -/
theorem parameters_alike (source source' : Excerpt) (ha : h.Alike k) :
    (h.parameters source).1.map (·.val) = (k.parameters source').1.map (·.val) ∧
      (h.parameters source).2.map Fault.code = (k.parameters source').2.map Fault.code := by
  have hread : EndsAlike (fun xs ys : List Name => xs.map (·.val) = ys.map (·.val))
      (h.readParameters source) (k.readParameters source') := by
    apply (Call.read_alike source source' _ _ ha.list).bind
    intro call call' hargs
    apply (Schema.validate_alike rfl .define hargs _ _).bind
    intro xs ys hxy
    have hraw := congrArg (List.map (·.raw.val)) hxy
    rw [List.map_map, List.map_map] at hraw
    apply EndsAlike.value
    rw [List.map_map, List.map_map]
    exact hraw
  rw [parameters, parameters]
  generalize h.readParameters source = x at hread
  generalize k.readParameters source' = y at hread
  cases hread with
  | value hvals => exact ⟨hvals, rfl⟩
  | fault hcode => exact ⟨rfl, congrArg (fun c => [c]) hcode⟩

theorem nameFault?_alike (isEntry : Bool) (earlier : List String) (ha : h.Alike k) :
    (h.nameFault? isEntry earlier).map Fault.code =
      (k.nameFault? isEntry earlier).map Fault.code := by
  have hname := ha.name
  rw [nameFault?, nameFault?]
  generalize h.name = x at hname
  generalize k.name = y at hname
  cases hname with
  | none => cases isEntry <;> rfl
  | some hval =>
    simp only [hval]
    split
    · rfl
    · split <;> rfl

end Header

end ShapeAssembly
