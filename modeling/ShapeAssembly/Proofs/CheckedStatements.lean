import ShapeAssembly.Proofs.CheckedLines
import ShapeAssembly.Proofs.StatementPlaces

namespace ShapeAssembly

/-- A token without its text, which is in the source. -/
structure Mark where
  kind : TokenKind
  span : Span

def Token.mark (t : Token) : Mark := ⟨t.kind, t.span⟩

def Excerpt.marks (line : Excerpt) : Except UnterminatedString (List Mark) :=
  List.map Token.mark <$> line.tokens

namespace Mark

def read? (source : Excerpt) (m : Mark) : Option Token := do
  let text ← source.slice? m.span
  return ⟨m.kind, text, m.span⟩

def reach (first : Mark) (rest : List Mark) : Span :=
  first.span.merge (rest.getLast?.getD first).span

def last? (ms : List Mark) : Option Mark := do
  let i ← Nat.psub ms.length 1
  ms[i]?

def spanOf? (ms : List Mark) : Option Span := do
  let first ← ms[0]?
  let last ← last? ms
  return first.span.merge last.span

def kind? : List Mark → Option TokenKind
  | [m] => some m.kind
  | _ => none

def matchingClose? : Nat → Nat → List Mark → Option (Option Nat)
  | _, _, [] => some none
  | depth, i, m :: ms =>
    match m.kind with
    | .openParen => matchingClose? (depth + 1) (i + 1) ms
    | .closeParen =>
      if depth = 0 then some (some i)
      else do
        let depth ← Nat.psub depth 1
        matchingClose? depth (i + 1) ms
    | _ => matchingClose? depth (i + 1) ms

end Mark

namespace RawArgument

def ofMarks? (source : Excerpt) (ms : List Mark) : Option RawArgument := do
  let span ← Mark.spanOf? ms
  let text ← source.slice? span
  return ⟨⟨text, span⟩, Mark.kind? ms⟩

/-- The arguments of a list from index `i` on: those before it, and the ones that are cut out of the
list at the commas outside of parentheses. The open one starts at index `start`. -/
def splitFrom? (source : Excerpt) (list : List Mark) (i start depth : Nat)
    (args : List RawArgument) : List Mark → Option (Except Fault (List RawArgument))
  | [] =>
    match cut? start list.length list with
    | some (m :: ms) => do
      let arg ← ofMarks? source (m :: ms)
      return .ok (args ++ [arg])
    | _ => do
      let comma ← Mark.last? list
      return .error (.ofSyntax .emptyArgument comma.span)
  | m :: ms =>
    match m.kind with
    | .openParen => splitFrom? source list (i + 1) start (depth + 1) args ms
    | .closeParen => splitFrom? source list (i + 1) start (depth - 1) args ms
    | .comma =>
      if depth ≠ 0 then splitFrom? source list (i + 1) start depth args ms
      else if start = i then some (.error (.ofSyntax .emptyArgument m.span))
      else do
        let segment ← cut? start i list
        let arg ← ofMarks? source segment
        splitFrom? source list (i + 1) (i + 1) depth (args ++ [arg]) ms
    | _ => splitFrom? source list (i + 1) start depth args ms

def split? (source : Excerpt) (ms : List Mark) : Option (Except Fault (List RawArgument)) :=
  if ms.isEmpty then some (.ok []) else splitFrom? source ms 0 0 0 [] ms

end RawArgument

def Call.read? (source : Excerpt) (head : Span) : List Mark → Option (Except Fault Call)
  | [] => some (.error (.ofSyntax .openParenMissing head))
  | m :: ms =>
    if m.kind ≠ .openParen then
      some (.error (.ofSyntax (.openParenExpected m.kind) m.span))
    else do
      match ← Mark.matchingClose? 0 0 ms with
      | none => return .error (.ofSyntax .unclosedParen (m.reach ms))
      | some close =>
        let inner ← cut? 0 close ms
        let last ← ms[close]?
        let trailing ← cut? (close + 1) ms.length ms
        match inner.find? (·.kind = .error), trailing with
        | some bad, _ => return .error (.ofSyntax (.unexpected bad.kind) bad.span)
        | none, r :: rs => return .error (.ofSyntax (.afterCloseParen r.kind) (r.reach rs))
        | none, [] =>
          let args ← RawArgument.split? source inner
          return (fun args => ⟨args, m.span.merge last.span⟩) <$> args

namespace Statement

def splitResult? (source : Excerpt) :
    List Mark → Option (Except Fault (Option Name × List Mark))
  | m :: eq :: rest =>
    if eq.kind ≠ .eq then some (.ok (none, m :: eq :: rest))
    else if m.kind ≠ .ident then some (.error (.ofSyntax .resultExpected m.span))
    else if rest.isEmpty then some (.error (.ofSyntax .keywordMissing eq.span))
    else do
      let t ← m.read? source
      return .ok (some t.name, rest)
  | ms => some (.ok (none, ms))

def readHead? (source : Excerpt) (ms : List Mark) :
    Option (Except Fault (Head × List Mark)) := do
  match ← splitResult? source ms with
  | .error fault => return .error fault
  | .ok (result, rest) =>
    let m ← rest[0]?
    if m.kind ≠ .ident then
      return .error (.ofSyntax (.keywordExpected m.kind) m.span)
    else
      let k ← m.read? source
      let call ← cut? 1 rest.length rest
      return (fun (schema, binding) => (⟨result, k.name, schema, binding⟩, call)) <$> readKeyword k

namespace Head

def accept (h : Head) (scope : Scope) (call : Call) : Except Fault (List Argument) := do
  if h.binding = .required ∧ h.result = none then
    throw (.ofSyntax (.resultRequired h.schema.name) h.keyword.span)
  let args ← h.schema.validate call.arguments call.span scope
  h.checkResult scope
  return args

def conclude (h : Head) (scope : Scope) (span : Span) :
    Except Fault (List Argument) → Outcome × Scope
  | .error fault => (.incomplete ⟨h.keyword, h.result, [], span⟩ fault, scope)
  | .ok args =>
    match h.bind scope with
    | .error fault => (.incomplete ⟨h.keyword, h.result, [], span⟩ fault, scope)
    | .ok scope' => (.parsed ⟨h.keyword, h.result, args, span⟩, scope')

end Head

def parse? (source : Excerpt) (scope : Scope) (ms : List Mark) : Option (Outcome × Scope) :=
  if ms.isEmpty then some (.failed (.ofSyntax .emptyStatement default), scope)
  else do
    let span ← Mark.spanOf? ms
    match ← readHead? source ms with
    | .error fault => return (.failed fault, scope)
    | .ok (head, rest) =>
      let call ← Call.read? source head.keyword.span rest
      return head.conclude scope span (call >>= head.accept scope)

end Statement

def Token.StandsIn (line : Excerpt) (t : Token) : Prop := line.Shows t.name ∧ line.Holds t.span

theorem Excerpt.standsIn_of_tokens {line : Excerpt} {ts : List Token} (h : line.tokens = .ok ts) :
    ∀ t ∈ ts, t.StandsIn line :=
  fun _ ht => ⟨shows_of_mem h ht, holds_of_mem h ht⟩

theorem Mark.last?_eq (ms : List Mark) : last? ms = ms.getLast? := by
  cases ms with
  | nil => rfl
  | cons m ms =>
    have hlength : Nat.psub (m :: ms).length 1 = some ms.length := Nat.psub_eq_some.2 rfl
    rw [last?, hlength]
    exact List.getLast?_eq_getElem?.symm

theorem Mark.spanOf?_eq (t : Token) (ts : List Token) :
    spanOf? ((t :: ts).map Token.mark) = some (t.reach ts) := by
  rw [spanOf?, last?_eq, List.getLast?_map, List.getLast?_cons]
  rfl

theorem Mark.reach_mark (t : Token) (ts : List Token) :
    t.mark.reach (ts.map Token.mark) = t.reach ts := by
  rw [reach, List.getLast?_map, Token.reach]
  cases ts.getLast? <;> rfl

namespace Mark

/-- The depth stays a number: a parenthesis that closes the list ends the search. -/
theorem matchingClose?_mark {t : Token} {depth : Nat} (h : ¬ (t.kind = .closeParen ∧ depth = 0))
    (i : Nat) (ms : List Mark) :
    matchingClose? depth i (t.mark :: ms) = matchingClose? (t.depthAfter depth) (i + 1) ms := by
  obtain ⟨kind, text, span⟩ := t
  cases kind with
  | closeParen =>
    have hd : depth ≠ 0 := fun hd => h ⟨rfl, hd⟩
    show (if depth = 0 then _ else (Nat.psub depth 1).bind _) = _
    rw [if_neg hd, Nat.psub_eq_sub (Nat.pos_of_ne_zero hd)]
    rfl
  | _ => rfl

theorem matchingClose?_eq (depth i : Nat) (ts : List Token) :
    matchingClose? depth i (ts.map Token.mark) =
      some ((Token.splitAtClose? depth ts).map fun p => i + p.1.length) := by
  induction ts generalizing depth i with
  | nil => rfl
  | cons t ts ih =>
    rw [Token.splitAtClose?_cons, List.map_cons]
    by_cases hc : t.kind = .closeParen ∧ depth = 0
    · rw [if_pos hc]
      obtain ⟨kind, text, span⟩ := t
      obtain ⟨rfl, rfl⟩ := hc
      rfl
    · rw [if_neg hc, matchingClose?_mark hc, ih, Option.map_map]
      congr 2
      funext p
      simp only [Function.comp_apply, List.length_cons]
      omega

end Mark

namespace RawArgument

variable {source : Excerpt}

theorem splitFrom?_mark {t : Token} {depth : Nat} (h : ¬ (t.kind = .comma ∧ depth = 0))
    (list : List Mark) (i start : Nat) (args : List RawArgument) (ms : List Mark) :
    splitFrom? source list i start depth args (t.mark :: ms) =
      splitFrom? source list (i + 1) start (t.depthAfter depth) args ms := by
  obtain ⟨kind, text, span⟩ := t
  cases kind with
  | comma => exact if_pos fun hd => h ⟨rfl, hd⟩
  | _ => rfl

theorem splitFrom?_comma {t : Token} (h : t.kind = .comma) (list : List Mark) (i start : Nat)
    (args : List RawArgument) (ms : List Mark) :
    splitFrom? source list i start 0 args (t.mark :: ms) =
      if start = i then some (.error (.ofSyntax .emptyArgument t.span))
      else (cut? start i list).bind fun segment => (ofMarks? source segment).bind fun arg =>
        splitFrom? source list (i + 1) (i + 1) 0 (args ++ [arg]) ms := by
  obtain ⟨kind, text, span⟩ := t
  cases h
  rfl

end RawArgument

namespace Statement

/-- What is left of a statement without its result is tokens of it. -/
theorem subset_of_splitResult {ts rest : List Token} {result : Option Name}
    (hs : splitResult ts = .ok (result, rest)) : rest ⊆ ts := by
  rcases splitResult_eq_ok hs with ⟨-, rfl⟩ | ⟨t, eq, rfl, -⟩
  · exact List.Subset.refl _
  · exact fun _ ht => List.mem_cons_of_mem t (List.mem_cons_of_mem eq ht)

theorem parse_eq (source : Excerpt) (scope : Scope) (ts : List Token) :
    parse source scope ts =
      match readHead ts with
      | .error fault => (.failed fault, scope)
      | .ok (head, call) => head.conclude scope (Token.spanOf ts)
          (Call.read source head.keyword.span call >>= head.accept scope) := by
  rw [parse]
  cases readHead ts with
  | error fault => rfl
  | ok p => rfl

end Statement

section

variable {source line : Excerpt} (hp : line.IsPart source)

include hp

theorem Token.slice?_of_standsIn {t : Token} (h : t.StandsIn line) :
    source.slice? t.span = some t.text :=
  Excerpt.slice?_of_isPart hp h.1

theorem Token.read?_mark {t : Token} (h : t.StandsIn line) : t.mark.read? source = some t := by
  rw [Mark.read?]
  show (source.slice? t.span).bind _ = _
  rw [Token.slice?_of_standsIn hp h]
  rfl

namespace RawArgument

/-- An argument can be cut out of the source: it starts and ends with tokens of one line. -/
theorem ofMarks?_eq {t : Token} {ts : List Token} (h : ∀ u ∈ t :: ts, u.StandsIn line) :
    ofMarks? source ((t :: ts).map Token.mark) = some (ofTokens line t ts) := by
  obtain ⟨ht, hts⟩ := List.forall_mem_cons.1 h
  rw [ofMarks?, Mark.spanOf?_eq]
  show (source.slice? (t.reach ts)).bind _ = _
  cases ts with
  | nil =>
    have hspan : t.reach [] = t.span := Span.merge_self t.span
    rw [hspan, Token.slice?_of_standsIn hp ht]
    rfl
  | cons u ts =>
    have hholds := Token.reach_of_forall line.merges_holds ht.2 fun u hu => (hts u hu).2
    obtain ⟨text, htext⟩ := hholds.exists_slice?
    have hargument : ofTokens line t (u :: ts) = ⟨⟨text, t.reach (u :: ts)⟩, none⟩ := by
      show (⟨⟨line.slice (t.reach (u :: ts)), _⟩, none⟩ : RawArgument) = _
      rw [Excerpt.slice, htext]
      rfl
    rw [Excerpt.slice?_of_isPart hp htext, hargument]
    rfl

/-- What is left of a list that is split: `done` is behind the last comma, and `segment` is before
the next one. -/
theorem splitFrom?_eq (done segment : List Token) {ts : List Token} (comma : Token)
    (hlast : segment ++ ts = [] → done.getLast? = some comma)
    (h : ∀ t ∈ segment ++ ts, t.StandsIn line) (depth : Nat) (args : List RawArgument) :
    splitFrom? source ((done ++ segment ++ ts).map Token.mark) (done.length + segment.length)
        done.length depth args (ts.map Token.mark) =
      some ((args ++ ·) <$>
        if segment ++ ts = [] then .error (.ofSyntax .emptyArgument comma.span)
        else ofSegments line (segment ++ (Token.splitAtCommas depth ts).1)
          (Token.splitAtCommas depth ts).2) := by
  induction ts generalizing done segment comma depth args with
  | nil =>
    rw [List.append_nil] at h hlast ⊢
    rw [List.map_nil, splitFrom?, cut?_map_length]
    cases segment with
    | nil =>
      rw [List.append_nil, Mark.last?_eq, List.getLast?_map, hlast rfl]
      rfl
    | cons t segment =>
      show (ofMarks? source ((t :: segment).map Token.mark)).bind _ = _
      have hnil : Token.splitAtCommas depth [] = ([], []) := rfl
      rw [ofMarks?_eq hp h, hnil, List.append_nil, if_neg (List.cons_ne_nil t segment)]
      rfl
  | cons t ts ih =>
    have hnext : ∀ segment' : List Token, segment' ++ t :: ts ≠ [] := by simp
    rw [if_neg (hnext segment), Token.splitAtCommas_cons, List.map_cons]
    by_cases hc : t.kind = .comma ∧ depth = 0
    · obtain ⟨hkind, rfl⟩ := hc
      rw [if_pos ⟨hkind, rfl⟩, splitFrom?_comma hkind, List.append_nil]
      cases segment with
      | nil => exact if_pos rfl
      | cons s segment =>
        have hargument := ofMarks?_eq hp fun u hu => h u (List.mem_append_left (t :: ts) hu)
        have ih := ih (done ++ s :: segment ++ [t]) [] t
          (fun _ => List.getLast?_concat) (fun u hu => h u
            (List.mem_append_right _ (List.mem_cons_of_mem t hu))) 0
          (args ++ [ofTokens line s segment])
        have hlist : done ++ s :: segment ++ [t] ++ [] ++ ts = done ++ s :: segment ++ t :: ts := by
          simp
        have hlength : (done ++ s :: segment ++ [t]).length =
            done.length + (s :: segment).length + 1 := by
          simp [Nat.add_assoc]
        rw [hlist, hlength] at ih
        rw [if_neg (by simp), cut?_map_append, Option.bind_some, hargument, Option.bind_some]
        refine ih.trans (congrArg some ?_)
        cases ts with
        | nil => rfl
        | cons u ts =>
          have hmore : ¬ ((Token.splitAtCommas 0 (u :: ts)).1 = [] ∧
              (Token.splitAtCommas 0 (u :: ts)).2 = []) := by
            rintro ⟨hsegment, hmore⟩
            have hlossless := (Token.splitAtCommas_lossless 0 (u :: ts)).1
            rw [hsegment, hmore] at hlossless
            cases hlossless
          rw [if_neg (by simp), ofSegments_cons line s segment t _ _ hmore, List.nil_append]
          cases ofSegments line (Token.splitAtCommas 0 (u :: ts)).1
              (Token.splitAtCommas 0 (u :: ts)).2 with
          | error fault => rfl
          | ok rest => exact congrArg Except.ok (List.append_assoc _ _ _)
    · rw [if_neg hc, splitFrom?_mark hc]
      have ih := ih done (segment ++ [t]) comma (by simp) (by simpa using h)
        (t.depthAfter depth) args
      rw [if_neg (by simp)] at ih
      simpa [Nat.add_assoc] using ih

theorem split?_eq {ts : List Token} (h : ∀ t ∈ ts, t.StandsIn line) :
    split? source (ts.map Token.mark) = some (split line ts) := by
  cases ts with
  | nil => rfl
  | cons t ts =>
    have h := splitFrom?_eq hp [] [] t (by simp) h 0 []
    rw [if_neg (by simp)] at h
    exact h.trans (congrArg some (id_map _))

end RawArgument

theorem Call.read?_eq (head : Span) {ts : List Token} (h : ∀ t ∈ ts, t.StandsIn line) :
    read? source head (ts.map Token.mark) = some (read line head ts) := by
  cases ts with
  | nil => rfl
  | cons t ts =>
    rw [List.map_cons, read?, read]
    by_cases ho : t.kind ≠ .openParen
    · rw [if_pos ho]
      exact if_pos ho
    · have ho' : ¬ t.mark.kind ≠ .openParen := ho
      rw [if_neg ho', if_neg ho, Mark.matchingClose?_eq]
      cases hs : Token.splitAtClose? 0 ts with
      | none =>
        show some (Except.error (Fault.ofSyntax .unclosedParen
          (t.mark.reach (ts.map Token.mark)))) = _
        rw [Mark.reach_mark]
      | some p =>
        obtain ⟨inner, close, rest⟩ := p
        obtain ⟨rfl, -⟩ := Token.splitAtClose?_eq_some hs
        have hinner : cut? 0 inner.length ((inner ++ close :: rest).map Token.mark) =
            some (inner.map Token.mark) := by
          have h := cut?_map_append Token.mark [] inner (close :: rest)
          rwa [List.length_nil, Nat.zero_add] at h
        have hclose : ((inner ++ close :: rest).map Token.mark)[inner.length]? =
            some close.mark := by
          rw [List.getElem?_map, List.getElem?_append_right (Nat.le_refl _), Nat.sub_self]
          rfl
        have hrest : cut? (inner.length + 1) ((inner ++ close :: rest).map Token.mark).length
            ((inner ++ close :: rest).map Token.mark) = some (rest.map Token.mark) := by
          have h := cut?_map_length Token.mark (inner ++ [close]) rest
          rwa [List.length_append, List.append_assoc] at h
        have hfind : (inner.map Token.mark).find? (·.kind = .error) =
            (inner.find? (·.kind = .error)).map Token.mark := List.find?_map
        simp only [Option.map_some, Nat.zero_add, Option.bind_eq_bind, Option.bind_some, hinner,
          hclose, hrest, hfind]
        cases inner.find? (·.kind = .error) with
        | some bad => rfl
        | none =>
          cases rest with
          | cons r rs =>
            show some (Except.error (Fault.ofSyntax (.afterCloseParen r.kind)
              (r.mark.reach (rs.map Token.mark)))) = _
            rw [Mark.reach_mark]
          | nil =>
            have hmem : ∀ u ∈ inner, u.StandsIn line := fun u hu =>
              h u (List.mem_cons_of_mem t (List.mem_append_left _ hu))
            show (RawArgument.split? source (inner.map Token.mark)).bind _ = _
            rw [RawArgument.split?_eq hp hmem]
            rfl

namespace Statement

theorem splitResult?_eq {ts : List Token} (h : ∀ t ∈ ts, t.StandsIn line) :
    splitResult? source (ts.map Token.mark) =
      some ((fun p => (p.1, p.2.map Token.mark)) <$> splitResult ts) := by
  match ts with
  | [] | [t] => rfl
  | t :: eq :: rest =>
    have hread := Token.read?_mark hp (h t List.mem_cons_self)
    rw [splitResult]
    show (if eq.kind ≠ .eq then _ else if t.kind ≠ .ident then _
      else if (rest.map Token.mark).isEmpty then _ else (t.mark.read? source).bind _) = _
    rw [hread, List.isEmpty_map]
    repeat' split
    all_goals rfl

theorem readHead?_eq {ts : List Token} (h : ∀ t ∈ ts, t.StandsIn line) (hne : ts ≠ []) :
    readHead? source (ts.map Token.mark) =
      some ((fun p => (p.1, p.2.map Token.mark)) <$> readHead ts) := by
  rw [readHead?, splitResult?_eq hp h, readHead]
  cases hs : splitResult ts with
  | error fault => rfl
  | ok p =>
    obtain ⟨result, rest⟩ := p
    have hmem := subset_of_splitResult hs
    cases rest with
    | nil => exact absurd rfl (splitResult_ne_nil hne hs)
    | cons k call =>
      have hread := Token.read?_mark hp (h k (hmem List.mem_cons_self))
      have hcall := cut?_map_cons Token.mark k call
      show (if k.kind ≠ .ident then
          some (Except.error (Fault.ofSyntax (.keywordExpected k.kind) k.span))
        else (k.mark.read? source).bind fun _ => Option.bind (cut? 1 _ _) _) = _
      rw [hread, hcall]
      by_cases hk : k.kind ≠ .ident
      · have hkeyword : readKeyword k = .error (.ofSyntax (.keywordExpected k.kind) k.span) :=
          if_pos hk
        rw [if_pos hk]
        show _ = some (_ <$> (readKeyword k >>= _))
        rw [hkeyword]
        rfl
      · rw [if_neg hk]
        show some (_ <$> readKeyword k) = some (_ <$> (readKeyword k >>= _))
        cases readKeyword k <;> rfl

theorem parse?_eq {t : Token} {ts : List Token} (h : ∀ u ∈ t :: ts, u.StandsIn line)
    (scope : Scope) :
    parse? source scope ((t :: ts).map Token.mark) = some (parse line scope (t :: ts)) := by
  rw [parse?, if_neg (by simp), Mark.spanOf?_eq, parse_eq]
  show (readHead? source ((t :: ts).map Token.mark)).bind _ = _
  rw [readHead?_eq hp h (List.cons_ne_nil t ts)]
  cases hs : readHead (t :: ts) with
  | error fault => rfl
  | ok p =>
    obtain ⟨head, call⟩ := p
    have hcall : ∀ u ∈ call, u.StandsIn line := by
      obtain ⟨k, hk, -⟩ := readHead_eq_ok.1 hs
      exact fun u hu => h u (subset_of_splitResult hk (List.mem_cons_of_mem k hu))
    show (Call.read? source head.keyword.span (call.map Token.mark)).bind _ = _
    rw [Call.read?_eq hp _ hcall]
    rfl

end Statement

end

end ShapeAssembly
