import Mathlib.Order.MinMax
import ShapeAssembly.Proofs.Scoping

namespace ShapeAssembly

/-! Parts of a text that stand somewhere else. -/

def shift (n offset : Nat) : Nat := offset + n

/-- Offsets after `p`, where bytes have been put in. -/
def shiftAfter (p added offset : Nat) : Nat := if offset ≤ p then offset else offset + added

theorem monotone_shift (n : Nat) : Monotone (shift n) := fun _ _ h => Nat.add_le_add_right h n

theorem monotone_shiftAfter (p added : Nat) : Monotone (shiftAfter p added) := by
  intro a b h
  rw [shiftAfter, shiftAfter]
  split <;> split <;> omega

theorem shiftAfter_of_le {p added offset : Nat} (h : offset ≤ p) :
    shiftAfter p added offset = offset := if_pos h

theorem shiftAfter_shift {p n : Nat} (h : p < n) (added offset : Nat) :
    shiftAfter p added (shift n offset) = shift (n + added) offset := by
  rw [shiftAfter, shift, shift, if_neg (by omega), Nat.add_assoc]

section

variable (f : Nat → Nat)

def Span.relocate (s : Span) : Span := ⟨f s.start, f s.stop⟩

def Located.relocate {α : Type} (l : Located α) : Located α := ⟨l.val, l.span.relocate f⟩

def Token.relocate (t : Token) : Token := ⟨t.kind, t.text, t.span.relocate f⟩

def UnterminatedString.relocate (u : UnterminatedString) : UnterminatedString :=
  ⟨u.span.relocate f⟩

def Excerpt.relocate (e : Excerpt) : Excerpt := ⟨f e.start, e.chars⟩

def Fault.relocate (x : Fault) : Fault := ⟨x.cause, x.span.relocate f⟩

def Diagnostic.relocate (d : Diagnostic) : Diagnostic := { d with span := d.span.relocate f }

def RawArgument.relocate (a : RawArgument) : RawArgument := ⟨a.text.relocate f, a.token⟩

def Call.relocate (c : Call) : Call := ⟨c.arguments.map (·.relocate f), c.span.relocate f⟩

def Argument.relocate (a : Argument) : Argument := { a with raw := a.raw.relocate f }

def Statement.relocate (s : Statement) : Statement :=
  ⟨s.keyword.relocate f, s.result.map (·.relocate f), s.arguments.map (·.relocate f),
    s.span.relocate f⟩

def Statement.Head.relocate (h : Head) : Head :=
  { h with result := h.result.map (·.relocate f), keyword := h.keyword.relocate f }

def Outcome.relocate : Outcome → Outcome
  | parsed s => parsed (s.relocate f)
  | incomplete s fault => incomplete (s.relocate f) (fault.relocate f)
  | failed fault => failed (fault.relocate f)

def Definition.relocate (d : Definition) : Definition :=
  ⟨d.name.map (·.relocate f), d.parameters.map (·.relocate f), d.statements.map (·.relocate f),
    d.span.relocate f⟩

def Header.relocate (h : Header) : Header :=
  ⟨h.define.relocate f, h.name.map (·.relocate f), h.list.map (·.relocate f), h.span.relocate f⟩

def Opening.relocate : Opening → Opening
  | readable source h => readable (source.relocate f) (h.relocate f)
  | unreadable source string => unreadable (source.relocate f) (string.relocate f)

def BodyLine.relocate : BodyLine → BodyLine
  | blank => blank
  | content source first rest =>
    content (source.relocate f) (first.relocate f) (rest.map (·.relocate f))
  | unreadable string => unreadable (string.relocate f)

def Line.relocate : Line → Line
  | opening o => opening (o.relocate f)
  | body b => body (b.relocate f)

def Block.relocate (b : Block) : Block := ⟨b.opening.relocate f, b.body.map (·.relocate f)⟩

def Reading.relocate (r : Reading) : Reading :=
  ⟨r.statement?.map (·.relocate f), r.fault?.map (·.relocate f)⟩

def mapEnds {ε ε' α β : Type} (onError : ε → ε') (onValue : α → β) : Except ε α → Except ε' β
  | .error e => .error (onError e)
  | .ok a => .ok (onValue a)

def relocateEnd {α β : Type} (onValue : α → β) : Except Fault α → Except Fault β :=
  mapEnds (·.relocate f) onValue

end

section

variable {α β γ δ : Type} {f : Nat → Nat} {g : α → β} {h : γ → δ}

theorem relocateEnd_bind {x : Except Fault α} {k : α → Except Fault γ} {k' : β → Except Fault δ}
    (hk : ∀ a, k' (g a) = relocateEnd f h (k a)) :
    relocateEnd f g x >>= k' = relocateEnd f h (x >>= k) := by
  cases x with
  | error e => rfl
  | ok a => exact hk a

theorem relocateEnd_map {x : Except Fault α} {k : α → γ} {k' : β → δ}
    (hk : ∀ a, k' (g a) = h (k a)) :
    k' <$> relocateEnd f g x = relocateEnd f h (k <$> x) := by
  cases x with
  | error e => rfl
  | ok a => exact congrArg Except.ok (hk a)

end

section

variable {f : Nat → Nat}

theorem Span.merge_relocate (hf : Monotone f) (a b : Span) :
    (a.relocate f).merge (b.relocate f) = (a.merge b).relocate f := by
  simp only [merge, relocate, hf.map_min, hf.map_max]

namespace Token

theorem reach_relocate (hf : Monotone f) (t : Token) (ts : List Token) :
    (t.relocate f).reach (ts.map (·.relocate f)) = (t.reach ts).relocate f := by
  rw [reach, reach, List.getLast?_map, ← Span.merge_relocate hf]
  cases ts.getLast? <;> rfl

theorem spanOf_relocate (hf : Monotone f) {ts : List Token} (hne : ts ≠ []) :
    spanOf (ts.map (·.relocate f)) = (spanOf ts).relocate f := by
  cases ts with
  | nil => exact absurd rfl hne
  | cons t ts => exact reach_relocate hf t ts

theorem splitAtCommas_relocate (depth : Nat) (ts : List Token) :
    splitAtCommas depth (ts.map (·.relocate f)) =
      ((splitAtCommas depth ts).1.map (·.relocate f), (splitAtCommas depth ts).2.map
        fun p => (p.1.relocate f, p.2.map (·.relocate f))) := by
  induction ts generalizing depth with
  | nil => rfl
  | cons t ts ih =>
    have hk : (t.relocate f).kind = t.kind := rfl
    have hd : (t.relocate f).depthAfter depth = t.depthAfter depth := rfl
    rw [List.map_cons, splitAtCommas_cons, splitAtCommas_cons, ih, ih, hk, hd]
    split <;> rfl

theorem splitAtClose?_relocate (depth : Nat) (ts : List Token) :
    splitAtClose? depth (ts.map (·.relocate f)) = (splitAtClose? depth ts).map
      fun p => (p.1.map (·.relocate f), p.2.1.relocate f, p.2.2.map (·.relocate f)) := by
  induction ts generalizing depth with
  | nil => rfl
  | cons t ts ih =>
    have hk : (t.relocate f).kind = t.kind := rfl
    have hd : (t.relocate f).depthAfter depth = t.depthAfter depth := rfl
    rw [List.map_cons, splitAtClose?_cons, splitAtClose?_cons, ih, hk, hd]
    split
    · rfl
    · rw [Option.map_map, Option.map_map]
      rfl

end Token

end

section

variable {n : Nat} {scope scope' : Scope}

theorem Scope.contains_congr (hs : scope'.names = scope.names) (name : String) :
    scope'.contains name = scope.contains name := by
  rw [contains, contains, hs]

theorem Excerpt.slice_relocate (source : Excerpt) (s : Span) :
    (source.relocate (shift n)).slice (s.relocate (shift n)) = source.slice s := by
  rw [slice, slice, slice?, slice?, split?, split?]
  simp only [relocate, Span.relocate, shift, Nat.add_lt_add_iff_right, Nat.add_sub_add_right]

namespace RawArgument

theorem ofTokens_cons (source : Excerpt) (t u : Token) (ts : List Token) :
    ofTokens source t (u :: ts) =
      ⟨⟨source.slice (t.reach (u :: ts)), t.reach (u :: ts)⟩, none⟩ := rfl

theorem ofTokens_relocate (source : Excerpt) (t : Token) (ts : List Token) :
    ofTokens (source.relocate (shift n)) (t.relocate (shift n)) (ts.map (·.relocate (shift n))) =
      (ofTokens source t ts).relocate (shift n) := by
  cases ts with
  | nil => rfl
  | cons u ts =>
    rw [List.map_cons, ofTokens_cons, ofTokens_cons, ← List.map_cons,
      Token.reach_relocate (monotone_shift n), Excerpt.slice_relocate]
    rfl

theorem ofSegments_relocate (source : Excerpt) (segment : List Token)
    (more : List (Token × List Token)) :
    ofSegments (source.relocate (shift n)) (segment.map (·.relocate (shift n)))
        (more.map fun p => (p.1.relocate (shift n), p.2.map (·.relocate (shift n)))) =
      relocateEnd (shift n) (List.map (·.relocate (shift n))) (ofSegments source segment more) := by
  induction more generalizing segment with
  | nil =>
    cases segment with
    | nil => rfl
    | cons t ts => exact congrArg (fun a => Except.ok [a]) (ofTokens_relocate source t ts)
  | cons p more ih =>
    obtain ⟨comma, next⟩ := p
    cases segment with
    | nil => rfl
    | cons t ts =>
      rw [List.map_cons, List.map_cons, ofSegments, ofSegments, ih]
      simp only [List.isEmpty_iff, List.map_eq_nil_iff]
      split
      · rfl
      · apply relocateEnd_map
        intro as
        rw [ofTokens_relocate]
        rfl

theorem split_relocate (source : Excerpt) (ts : List Token) :
    split (source.relocate (shift n)) (ts.map (·.relocate (shift n))) =
      relocateEnd (shift n) (List.map (·.relocate (shift n))) (split source ts) := by
  rw [split, split, Token.splitAtCommas_relocate]
  exact ofSegments_relocate source _ _

end RawArgument

theorem Call.read_relocate (source : Excerpt) (head : Span) (ts : List Token) :
    read (source.relocate (shift n)) (head.relocate (shift n)) (ts.map (·.relocate (shift n))) =
      relocateEnd (shift n) (·.relocate (shift n)) (read source head ts) := by
  cases ts with
  | nil => rfl
  | cons t ts =>
    have hk : (t.relocate (shift n)).kind = t.kind := rfl
    have hreach := Token.reach_relocate (monotone_shift n)
    rw [List.map_cons, read, read, hk, Token.splitAtClose?_relocate, hreach]
    split
    · rfl
    · cases hs : Token.splitAtClose? 0 ts with
      | none => rfl
      | some p =>
        obtain ⟨inner, close, rest⟩ := p
        have hbad : (inner.map (·.relocate (shift n))).find? (·.kind = .error) =
            (inner.find? (·.kind = .error)).map (·.relocate (shift n)) := List.find?_map
        simp only [Option.map_some, hbad]
        cases inner.find? (·.kind = .error) with
        | some bad => rfl
        | none =>
          cases rest with
          | cons r rs =>
            simp only [Option.map_none, List.map_cons, hreach]
            rfl
          | nil =>
            simp only [Option.map_none, List.map_nil, RawArgument.split_relocate]
            apply relocateEnd_map
            intro args
            simp only [Call.relocate, ← Span.merge_relocate (monotone_shift n)]
            rfl

namespace RawArgument

variable {f : Nat → Nat}

theorem value?_relocate (a : RawArgument) (kind : Kind) :
    (a.relocate f).value? kind = a.value? kind := by
  cases kind <;> rfl

theorem scopeCause?_congr (hs : scope'.names = scope.names) (name : String) (kind : Kind) :
    scopeCause? scope' name kind = scopeCause? scope name kind := by
  cases kind <;> simp only [scopeCause?, Scope.contains_congr hs]

/-- A scope is only asked for its names. -/
theorem coerce_relocate (hs : scope'.names = scope.names) (keyword : String) (position : Nat)
    (kind : Kind) (a : RawArgument) :
    (a.relocate f).coerce keyword position kind scope' =
      relocateEnd f (·.relocate f) (a.coerce keyword position kind scope) := by
  have htext : (a.relocate f).text.val = a.text.val := rfl
  rw [coerce, coerce, value?_relocate, htext, scopeCause?_congr hs]
  cases a.value? kind with
  | none => rfl
  | some value => cases scopeCause? scope a.text.val kind <;> rfl

theorem coerceFrom_relocate (hs : scope'.names = scope.names) (keyword : String) (position : Nat)
    (as : List RawArgument) (kinds : Signature) :
    coerceFrom keyword position scope' (as.map (·.relocate f)) kinds =
      relocateEnd f (List.map (·.relocate f)) (coerceFrom keyword position scope as kinds) := by
  induction as generalizing position kinds with
  | nil => rfl
  | cons a as ih =>
    cases kinds with
    | nil => rfl
    | cons kind kinds =>
      rw [List.map_cons, coerceFrom, coerceFrom, coerce_relocate hs]
      apply relocateEnd_bind
      intro y
      rw [ih]
      exact relocateEnd_bind fun ys => rfl

end RawArgument

theorem Schema.validate_relocate {f : Nat → Nat} (hf : Monotone f)
    (hs : scope'.names = scope.names) (schema : Schema) (args : List RawArgument) (list : Span) :
    schema.validate (args.map (·.relocate f)) (list.relocate f) scope' =
      relocateEnd f (List.map (·.relocate f)) (schema.validate args list scope) := by
  rw [validate, validate, List.length_map]
  cases schema.signature? args.length with
  | some kinds => exact RawArgument.coerceFrom_relocate hs _ _ _ _
  | none =>
    have hspan : ∀ a : RawArgument, (a.relocate f).span = a.span.relocate f := fun _ => rfl
    rw [List.head?_map, List.getLast?_map]
    cases args.head? with
    | none => rfl
    | some first =>
      cases args.getLast? with
      | none => rfl
      | some last =>
        simp only [Option.map_some, hspan, Span.merge_relocate hf]
        rfl

namespace Statement

variable {f : Nat → Nat}

theorem splitResult_relocate (ts : List Token) :
    splitResult (ts.map (·.relocate f)) = relocateEnd f
      (fun p => (p.1.map (·.relocate f), p.2.map (·.relocate f))) (splitResult ts) := by
  match ts with
  | [] | [t] => rfl
  | t :: eq :: rest =>
    have hk : ∀ u : Token, (u.relocate f).kind = u.kind := fun _ => rfl
    rw [List.map_cons, List.map_cons, splitResult, splitResult, hk, hk]
    simp only [List.isEmpty_iff, List.map_eq_nil_iff]
    split
    · rfl
    · split
      · rfl
      · split <;> rfl

theorem readKeyword_relocate (t : Token) :
    readKeyword (t.relocate f) = relocateEnd f id (readKeyword t) := by
  have hk : (t.relocate f).kind = t.kind := rfl
  have ht : (t.relocate f).text = t.text := rfl
  rw [readKeyword, readKeyword, hk, ht]
  split
  · rfl
  · cases Schema.lookup? t.text with
    | none => rfl
    | some schema => cases hb : schema.binding? <;> simp only [hb] <;> rfl

theorem splitResult_ne_nil {ts rest : List Token} {result : Option Name} (hne : ts ≠ [])
    (h : splitResult ts = .ok (result, rest)) : rest ≠ [] := by
  have hends : Ends (splitResult ts) _ (Fault.Fits (fun _ => True) fun _ => True) :=
    ends_splitResult (fun _ _ => trivial) hne
  exact (hends.value h).2.1

theorem readHead_relocate {ts : List Token} (hne : ts ≠ []) :
    readHead (ts.map (·.relocate f)) = relocateEnd f
      (fun p => (p.1.relocate f, p.2.map (·.relocate f))) (readHead ts) := by
  rw [readHead, readHead, splitResult_relocate]
  cases hs : splitResult ts with
  | error fault => rfl
  | ok p =>
    obtain ⟨result, rest⟩ := p
    cases rest with
    | nil => exact absurd rfl (splitResult_ne_nil hne hs)
    | cons k call =>
      show (readKeyword (k.relocate f) >>= _) = relocateEnd f _ (readKeyword k >>= _)
      rw [readKeyword_relocate]
      exact relocateEnd_bind fun _ => rfl

theorem Head.checkResult_relocate (hs : scope'.names = scope.names) (h : Head) :
    (h.relocate f).checkResult scope' = relocateEnd f id (h.checkResult scope) := by
  rw [checkResult, checkResult]
  have hr : (h.relocate f).result = h.result.map (·.relocate f) := rfl
  rw [hr]
  cases h.result with
  | none => rfl
  | some r =>
    have hv : (r.relocate f).val = r.val := rfl
    simp only [Option.map_some, hv, Scope.contains_congr hs]
    split
    · rfl
    · split <;> rfl

theorem Head.readArguments_relocate (hs : scope'.names = scope.names) (h : Head)
    (source : Excerpt) (ts : List Token) :
    (h.relocate (shift n)).readArguments (source.relocate (shift n)) scope'
        (ts.map (·.relocate (shift n))) =
      relocateEnd (shift n) (List.map (·.relocate (shift n)))
        (h.readArguments source scope ts) := by
  have hread := Call.read_relocate (n := n) source h.keyword.span ts
  rw [readArguments, readArguments]
  have hk : (h.relocate (shift n)).keyword.span = h.keyword.span.relocate (shift n) := rfl
  rw [hk, hread]
  apply relocateEnd_bind
  intro call
  have hr : (h.relocate (shift n)).result = none ↔ h.result = none := Option.map_eq_none_iff
  have hb : (h.relocate (shift n)).binding = h.binding := rfl
  have hsch : (h.relocate (shift n)).schema = h.schema := rfl
  simp only [hr, hb, hsch]
  split
  · rfl
  · rw [Call.relocate, Schema.validate_relocate (monotone_shift n) hs]
    apply relocateEnd_bind
    intro args
    rw [Head.checkResult_relocate hs]
    exact relocateEnd_bind fun _ => rfl

theorem parse_relocate (hs : scope'.names = scope.names) (source : Excerpt) {ts : List Token}
    (hne : ts ≠ []) :
    (parse (source.relocate (shift n)) scope' (ts.map (·.relocate (shift n)))).1 =
      (parse source scope ts).1.relocate (shift n) := by
  rw [parse, parse, readHead_relocate hne]
  cases hr : readHead ts with
  | error fault => rfl
  | ok p =>
    obtain ⟨h, call⟩ := p
    have hspan := Token.spanOf_relocate (monotone_shift n) hne
    have hread : (h.relocate (shift n)).readArguments (source.relocate (shift n)) scope'
        (call.map (·.relocate (shift n))) = _ := h.readArguments_relocate hs source call
    simp only [relocateEnd, mapEnds] at hread ⊢
    rw [hread, hspan]
    cases ha : h.readArguments source scope call with
    | error fault => rfl
    | ok args =>
      -- the result is fresh in both scopes
      obtain ⟨-, -, -, -, hcheck⟩ := Head.readArguments_eq_ok.1 ha
      obtain ⟨after, hb⟩ := Head.exists_bind hcheck
      have hcheck' : (h.relocate (shift n)).checkResult scope' = .ok () := by
        rw [Head.checkResult_relocate hs, hcheck]
        rfl
      obtain ⟨after', hb'⟩ := Head.exists_bind hcheck'
      simp only [hb, hb']
      rfl

end Statement

namespace Header

variable {f : Nat → Nat}

theorem dropColon_relocate (ts : List Token) :
    dropColon (ts.map (·.relocate f)) = (dropColon ts).map (·.relocate f) := by
  rw [dropColon, dropColon, List.getLast?_map]
  cases ts.getLast? with
  | none => rfl
  | some t =>
    have hk : (t.relocate f).kind = t.kind := rfl
    simp only [Option.map_some, hk]
    split
    · exact (List.map_dropLast).symm
    · rfl

theorem ofTokens?_relocate (hf : Monotone f) (ts : List Token) :
    ofTokens? (ts.map (·.relocate f)) = (ofTokens? ts).map (·.relocate f) := by
  match ts with
  | [] | [t] => rfl
  | t :: next :: rest =>
    have hk : ∀ u : Token, (u.relocate f).kind = u.kind := fun _ => rfl
    have ht : (t.relocate f).text = t.text := rfl
    have hreach := Token.reach_relocate hf t (next :: rest)
    have hdrop := dropColon_relocate (f := f)
    rw [List.map_cons] at hreach
    rw [List.map_cons, List.map_cons, ofTokens?, ofTokens?]
    simp only [hk, ht, hreach, hdrop]
    split
    · cases next.kind with
      | openParen =>
        have hlist := hdrop (next :: rest)
        rw [List.map_cons] at hlist
        simp only [hlist]
        rfl
      | _ => rfl
    · rfl

theorem readParameters_relocate (source : Excerpt) (h : Header) :
    (h.relocate (shift n)).readParameters (source.relocate (shift n)) =
      relocateEnd (shift n) (List.map (·.relocate (shift n))) (h.readParameters source) := by
  have hhead : (((h.relocate (shift n)).name.map (·.span)).getD (h.relocate (shift n)).define) =
      ((h.name.map (·.span)).getD h.define).relocate (shift n) := by
    obtain ⟨define, name, list, span⟩ := h
    cases name <;> rfl
  have hlist : (h.relocate (shift n)).list = h.list.map (·.relocate (shift n)) := rfl
  rw [readParameters, readParameters, hhead, hlist, Call.read_relocate]
  apply relocateEnd_bind
  intro call
  rw [Call.relocate, Schema.validate_relocate (monotone_shift n) rfl]
  apply relocateEnd_bind
  intro args
  simp only [List.map_map, relocateEnd, mapEnds, pure, Except.pure]
  rfl

theorem parameters_relocate (source : Excerpt) (h : Header) :
    (h.relocate (shift n)).parameters (source.relocate (shift n)) =
      ((h.parameters source).1.map (·.relocate (shift n)),
        (h.parameters source).2.map (·.relocate (shift n))) := by
  rw [parameters, parameters, readParameters_relocate]
  cases h.readParameters source <;> rfl

theorem nameFault?_relocate (isEntry : Bool) (earlier : List String) (h : Header) :
    (h.relocate f).nameFault? isEntry earlier =
      (h.nameFault? isEntry earlier).map (·.relocate f) := by
  obtain ⟨define, name, list, span⟩ := h
  cases name with
  | none => cases isEntry <;> rfl
  | some name =>
    have hv : (name.relocate f).val = name.val := rfl
    simp only [nameFault?, relocate, Option.map_some, hv]
    split
    · rfl
    · split <;> rfl

end Header

/-- Names bind alike where they stand, in scopes with the same names. -/
theorem Scope.defineAll_relocate {f : Nat → Nat} (hs : scope'.names = scope.names)
    (origin : Origin) (names : List Name) :
    (scope'.defineAll origin (names.map (·.relocate f))).1.names =
        (scope.defineAll origin names).1.names ∧
      (scope'.defineAll origin (names.map (·.relocate f))).2 =
        (scope.defineAll origin names).2.map (·.relocate f) := by
  have hvals : (names.map (·.relocate f)).map (·.val) = names.map (·.val) := by
    rw [List.map_map]
    rfl
  refine ⟨by rw [names_defineAll, names_defineAll, hvals, hs], ?_⟩
  rw [faults_defineAll origin fun _ => Iff.rfl, faults_defineAll origin fun _ => Iff.rfl, hs,
    List.map_map]
  generalize scope.names = earlier
  clear hvals
  induction names generalizing earlier with
  | nil => rfl
  | cons name rest ih =>
    have hv : (name.relocate f).val = name.val := rfl
    rw [List.map_cons, repeatedNames, repeatedNames, List.map_append, List.map_append, hv, ih]
    split <;> rfl

end

end ShapeAssembly
