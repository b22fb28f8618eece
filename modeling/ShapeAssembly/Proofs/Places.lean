import ShapeAssembly.Proofs.HeaderForm
import ShapeAssembly.Proofs.StatementForm

namespace ShapeAssembly

namespace Span

structure Within (s whole : Span) : Prop where
  start : whole.start ≤ s.start
  ordered : s.start ≤ s.stop
  stop : s.stop ≤ whole.stop

/-- A property that two spans pass on to the least one that covers both. -/
def Merges (P : Span → Prop) : Prop := ∀ a b, P a → P b → P (a.merge b)

theorem merges_within (whole : Span) : Merges (·.Within whole) := by
  intro a b ha hb
  exact ⟨le_min ha.start hb.start, (min_le_left _ _).trans (ha.ordered.trans (le_max_left _ _)),
    max_le ha.stop hb.stop⟩

theorem merges_true : Merges fun _ => True := fun _ _ _ _ => trivial

theorem merge_self (s : Span) : s.merge s = s := by
  rw [merge, min_self, max_self]

end Span

/-- What reading ends with: a value with one property or a fault with another. -/
def Ends {α : Type} (x : Except Fault α) (Q : α → Prop) (F : Fault → Prop) : Prop :=
  match x with
  | .ok a => Q a
  | .error f => F f

namespace Ends

variable {α β : Type} {F : Fault → Prop} {Q : α → Prop} {R : β → Prop} {x : Except Fault α}

theorem value (h : Ends x Q F) {a : α} (hx : x = .ok a) : Q a := by
  rw [hx] at h
  exact h

theorem fault (h : Ends x Q F) {f : Fault} (hx : x = .error f) : F f := by
  rw [hx] at h
  exact h

theorem bind {f : α → Except Fault β} (hx : Ends x Q F) (hf : ∀ a, Q a → Ends (f a) R F) :
    Ends (x >>= f) R F := by
  cases x with
  | error e => exact hx
  | ok a => exact hf a hx

theorem map {f : α → β} (hx : Ends x Q F) (hf : ∀ a, Q a → R (f a)) : Ends (f <$> x) R F := by
  cases x with
  | error e => exact hx
  | ok a => exact hf a hx

end Ends

/-- A fault at a place of some kind that calls no name unbound that is not. -/
structure Fault.Fits (P : Span → Prop) (bound : String → Prop) (f : Fault) : Prop where
  span : P f.span
  unbound : ∀ n, f.cause = .unboundVariable n → ¬ bound n

section

/-! The places of faults are made from those of tokens. -/

variable {P : Span → Prop} {bound : String → Prop} {source : Excerpt} {scope : Scope}

theorem Token.reach_of_forall (hP : Span.Merges P) {t : Token} {ts : List Token} (ht : P t.span)
    (hts : ∀ u ∈ ts, P u.span) : P (t.reach ts) := by
  apply hP _ _ ht
  cases hl : ts.getLast? with
  | none => exact ht
  | some u => exact hts u (List.mem_of_getLast? hl)

theorem RawArgument.span_ofTokens (source : Excerpt) (t : Token) (ts : List Token) :
    (ofTokens source t ts).span = t.reach ts := by
  cases ts with
  | nil => exact (Span.merge_self t.span).symm
  | cons u ts => rfl

theorem Fault.fits_syntax (s : SyntaxFault) {span : Span} (h : P span) :
    (ofSyntax s span).Fits P bound :=
  ⟨h, fun n hn => by cases hn⟩

theorem Fault.fits_structure (s : StructureFault) {span : Span} (h : P span) :
    (ofStructure s span).Fits P bound :=
  ⟨h, fun n hn => by cases hn⟩

namespace RawArgument

theorem ends_ofSegments (hP : Span.Merges P) {segment : List Token}
    {more : List (Token × List Token)} (hs : ∀ t ∈ segment, P t.span)
    (hm : ∀ p ∈ more, P p.1.span ∧ ∀ t ∈ p.2, P t.span) :
    Ends (ofSegments source segment more) (fun as => ∀ a ∈ as, P a.span) (Fault.Fits P bound) := by
  have hargument : ∀ t ts, (∀ u ∈ t :: ts, P u.span) → P (ofTokens source t ts).span := by
    intro t ts h
    rw [span_ofTokens]
    exact Token.reach_of_forall hP (h t List.mem_cons_self) fun u hu => h u (List.mem_cons_of_mem t hu)
  induction more generalizing segment with
  | nil =>
    match segment with
    | [] => exact fun a ha => absurd ha List.not_mem_nil
    | t :: ts => exact List.forall_mem_singleton.2 (hargument t ts hs)
  | cons p more ih =>
    obtain ⟨comma, next⟩ := p
    obtain ⟨⟨hcomma, hnext⟩, hmore⟩ := List.forall_mem_cons.1 hm
    match segment with
    | [] => exact Fault.fits_syntax _ hcomma
    | t :: ts =>
      rw [ofSegments]
      split
      · exact Fault.fits_syntax _ hcomma
      · exact (ih hnext hmore).map fun as has => List.forall_mem_cons.2 ⟨hargument t ts hs, has⟩

theorem ends_split (hP : Span.Merges P) {ts : List Token} (h : ∀ t ∈ ts, P t.span) :
    Ends (split source ts) (fun as => ∀ a ∈ as, P a.span) (Fault.Fits P bound) := by
  have hl := (Token.splitAtCommas_lossless 0 ts).1
  rw [← hl] at h
  apply ends_ofSegments hP
  · exact fun t ht => h t (List.mem_append_left _ ht)
  · intro p hp
    exact List.forall_mem_cons.1 fun t ht =>
      h t (List.mem_append_right _ (List.mem_flatMap.2 ⟨p, hp, ht⟩))

end RawArgument

theorem Call.ends_read (hP : Span.Merges P) {head : Span} (hh : P head) {ts : List Token}
    (h : ∀ t ∈ ts, P t.span) :
    Ends (read source head ts) (fun call => (∀ a ∈ call.arguments, P a.span) ∧ P call.span)
      (Fault.Fits P bound) := by
  match ts with
  | [] => exact Fault.fits_syntax _ hh
  | t :: ts =>
    obtain ⟨ht, hts⟩ := List.forall_mem_cons.1 h
    rw [read]
    split
    · exact Fault.fits_syntax _ ht
    · split
      · exact Fault.fits_syntax _ (Token.reach_of_forall hP ht hts)
      · rename_i inner close rest hs
        obtain ⟨rfl, -⟩ := Token.splitAtClose?_eq_some hs
        rw [List.forall_mem_append, List.forall_mem_cons] at hts
        obtain ⟨hinner, hclose, hrest⟩ := hts
        split
        · rename_i bad hbad
          exact Fault.fits_syntax _ (hinner bad (List.mem_of_find?_eq_some hbad))
        · obtain ⟨hr, hrs⟩ := List.forall_mem_cons.1 hrest
          exact Fault.fits_syntax _ (Token.reach_of_forall hP hr hrs)
        · exact (RawArgument.ends_split hP hinner).map fun as has => ⟨has, hP _ _ ht hclose⟩

namespace RawArgument

/-- Only a position for a bound name calls one unbound. -/
theorem unbound_of_scopeCause? {name n : String} {kind : Kind}
    (h : scopeCause? scope name kind = some (.unboundVariable n)) :
    kind = .existingVariable ∧ n ∉ scope.names := by
  cases kind with
  | existingVariable =>
    rw [scopeCause?] at h
    split at h
    · cases h
    · rename_i hfree
      cases h
      exact ⟨rfl, by simpa [Scope.contains] using hfree⟩
  | newVariable =>
    rw [scopeCause?] at h
    split at h <;> cases h
  | float | bool | axis | face | identifier => cases h

theorem ends_coerce {keyword : String} {position : Nat} {kind : Kind} {a : RawArgument}
    (ha : P a.span) (hb : kind = .existingVariable → ∀ n, bound n → n ∈ scope.names) :
    Ends (a.coerce keyword position kind scope) (fun y => P y.raw.span)
      (Fault.Fits P bound) := by
  rw [coerce]
  split
  · exact ⟨ha, fun n hn => by cases hn⟩
  · split
    · rename_i cause hc
      refine ⟨ha, fun n hn hbound => ?_⟩
      obtain rfl : cause = .unboundVariable n := hn
      obtain ⟨hkind, hfree⟩ := unbound_of_scopeCause? hc
      exact hfree (hb hkind n hbound)
    · exact ha

theorem ends_coerceFrom {keyword : String} {position : Nat} {as : List RawArgument}
    {kinds : Signature} (ha : ∀ a ∈ as, P a.span)
    (hb : .existingVariable ∈ kinds → ∀ n, bound n → n ∈ scope.names) :
    Ends (coerceFrom keyword position scope as kinds) (fun ys => ∀ y ∈ ys, P y.raw.span)
      (Fault.Fits P bound) := by
  induction as generalizing position kinds with
  | nil => exact fun y hy => absurd hy List.not_mem_nil
  | cons a as ih =>
    obtain ⟨hfirst, hrest⟩ := List.forall_mem_cons.1 ha
    match kinds with
    | [] => exact fun y hy => absurd hy List.not_mem_nil
    | kind :: kinds =>
      rw [coerceFrom]
      apply (ends_coerce hfirst fun hk => hb (by simp [hk])).bind
      intro y hy
      apply (ih hrest fun hk => hb (List.mem_cons_of_mem _ hk)).bind
      exact fun ys hys => List.forall_mem_cons.2 ⟨hy, hys⟩

end RawArgument

theorem Schema.ends_validate (hP : Span.Merges P) {schema : Schema} {args : List RawArgument}
    {list : Span} (ha : ∀ a ∈ args, P a.span) (hl : P list)
    (hb : ∀ kinds ∈ schema.signatures, .existingVariable ∈ kinds →
      ∀ n, bound n → n ∈ scope.names) :
    Ends (schema.validate args list scope) (fun ys => ∀ y ∈ ys, P y.raw.span)
      (Fault.Fits P bound) := by
  rw [validate]
  split
  · rename_i kinds hk
    exact RawArgument.ends_coerceFrom ha (hb kinds (List.mem_of_find?_eq_some hk))
  · refine ⟨?_, fun n hn => by cases hn⟩
    dsimp only
    split
    · rename_i first last hf hlast
      exact hP _ _ (ha first (List.mem_of_head? hf)) (ha last (List.mem_of_getLast? hlast))
    · exact hl

namespace Statement

theorem ends_splitResult {ts : List Token} (h : ∀ t ∈ ts, P t.span) (hne : ts ≠ []) :
    Ends (splitResult ts)
      (fun p => (∀ r ∈ p.1, P r.span) ∧ p.2 ≠ [] ∧ ∀ t ∈ p.2, P t.span)
      (Fault.Fits P bound) := by
  match ts with
  | [t] => exact ⟨by simp, hne, h⟩
  | t :: eq :: rest =>
    obtain ⟨ht, heq, hrest⟩ : P t.span ∧ P eq.span ∧ ∀ u ∈ rest, P u.span := by simpa using h
    rw [splitResult]
    split
    · exact ⟨by simp, hne, h⟩
    · split
      · exact Fault.fits_syntax _ ht
      · split
        · exact Fault.fits_syntax _ heq
        · rename_i hr
          refine ⟨?_, by simpa using hr, hrest⟩
          rintro r ⟨⟩
          exact ht

theorem ends_readKeyword {t : Token} (h : P t.span) :
    Ends (readKeyword t) (fun _ => True) (Fault.Fits P bound) := by
  rw [readKeyword]
  split
  · exact Fault.fits_syntax _ h
  · split
    · exact ⟨h, fun n hn => by cases hn⟩
    · split
      · exact Fault.fits_structure _ h
      · trivial

theorem ends_readHead {ts : List Token} (h : ∀ t ∈ ts, P t.span) (hne : ts ≠ []) :
    Ends (readHead ts)
      (fun p => P p.1.keyword.span ∧ (∀ r ∈ p.1.result, P r.span) ∧ ∀ t ∈ p.2, P t.span)
      (Fault.Fits P bound) := by
  rw [readHead]
  apply (ends_splitResult h hne).bind
  rintro ⟨result, rest⟩ ⟨hresult, hr, hrest⟩
  cases rest with
  | nil => exact absurd rfl hr
  | cons k call =>
    obtain ⟨hk, hcall⟩ := List.forall_mem_cons.1 hrest
    exact (ends_readKeyword hk).bind fun _ _ => ⟨hk, hresult, hcall⟩

theorem Head.ends_checkResult {h : Head} (hr : ∀ r ∈ h.result, P r.span) :
    Ends (h.checkResult scope) (fun _ => True) (Fault.Fits P bound) := by
  rw [checkResult]
  split
  · trivial
  · rename_i r hresult
    have hspan := hr r hresult
    split
    · exact ⟨hspan, fun n hn => by cases hn⟩
    · split
      · exact ⟨hspan, fun n hn => by cases hn⟩
      · trivial

theorem Head.ends_readArguments (hP : Span.Merges P) {h : Head} {ts : List Token}
    (hk : P h.keyword.span) (hr : ∀ r ∈ h.result, P r.span) (ht : ∀ t ∈ ts, P t.span) :
    Ends (h.readArguments source scope ts) (fun ys => ∀ y ∈ ys, P y.raw.span)
      (Fault.Fits P (· ∈ scope.names)) := by
  rw [readArguments]
  apply (Call.ends_read hP hk ht).bind
  rintro call ⟨hargs, hlist⟩
  dsimp only
  split
  · exact Fault.fits_syntax _ hk
  · apply (Schema.ends_validate hP hargs hlist fun kinds _ _ n hn => hn).bind
    intro ys hys
    exact (ends_checkResult hr).bind fun _ _ => hys

/-- The fault of a statement lies among its tokens, and a variable that it calls unbound is not in
scope. -/
theorem fits_of_parse (hP : Span.Merges P) {ts : List Token} (h : ∀ t ∈ ts, P t.span)
    (hne : ts ≠ []) {fault : Fault} (hf : (parse source scope ts).1.fault? = some fault) :
    fault.Fits P (· ∈ scope.names) := by
  have hhead : Ends (readHead ts) _ (Fault.Fits P (· ∈ scope.names)) := ends_readHead h hne
  rw [parse] at hf
  split at hf
  · rename_i e he
    cases hf
    exact hhead.fault he
  · rename_i head call hok
    obtain ⟨hk, hr, hcall⟩ := hhead.value hok
    have hargs : Ends (head.readArguments source scope call) _ _ :=
      head.ends_readArguments hP hk hr hcall
    split at hf
    · rename_i e he
      cases hf
      exact hargs.fault he
    · rename_i args ha
      -- binding a result that has been checked raises no fault
      obtain ⟨-, -, -, -, hcheck⟩ := Head.readArguments_eq_ok.1 ha
      obtain ⟨scope', hb⟩ := Head.exists_bind hcheck
      rw [hb] at hf
      cases hf

end Statement

namespace Header

/-- The parts of a header are made of the tokens of its line. -/
theorem forall_of_ofTokens? {ts : List Token} {h : Header} (hts : ∀ t ∈ ts, P t.span)
    (hh : ofTokens? ts = some h) :
    P h.define ∧ (∀ n ∈ h.name, P n.span) ∧ ∀ t ∈ h.list, P t.span := by
  match ts with
  | [] | [t] => cases hh
  | t :: next :: rest =>
    obtain ⟨ht, hnext⟩ := List.forall_mem_cons.1 hts
    rw [ofTokens?] at hh
    split at hh
    · split at hh
      · cases hh
        refine ⟨ht, ?_, fun u hu => hnext u (List.mem_cons_of_mem _ (mem_of_mem_dropColon hu))⟩
        rintro n ⟨⟩
        exact hnext next List.mem_cons_self
      · cases hh
        exact ⟨ht, by simp, fun u hu => hnext u (mem_of_mem_dropColon hu)⟩
      · cases hh
    · cases hh

variable {h : Header}

theorem ends_readParameters (hP : Span.Merges P) (hd : P h.define) (hn : ∀ n ∈ h.name, P n.span)
    (hl : ∀ t ∈ h.list, P t.span) :
    Ends (h.readParameters source) (fun names => ∀ n ∈ names, P n.span)
      (Fault.Fits P fun _ => True) := by
  have hhead : P ((h.name.map (·.span)).getD h.define) := by
    cases hname : h.name with
    | none => exact hd
    | some n => exact hn n hname
  -- no parameter is the name of a variable
  have hkinds : ∀ kinds ∈ Schema.define.signatures, .existingVariable ∈ kinds →
      ∀ n : String, True → n ∈ Scope.empty.names := by
    intro kinds hk
    rw [define_signatures, List.mem_pair] at hk
    rcases hk with rfl | rfl <;> simp
  rw [readParameters]
  apply (Call.ends_read hP hhead hl).bind
  rintro call ⟨hargs, hlist⟩
  apply (Schema.ends_validate hP hargs hlist hkinds).bind
  exact fun ys hys => List.forall_mem_map.2 hys

theorem fits_of_nameFault? {isEntry : Bool} {earlier : List String} (hd : P h.define)
    (hn : ∀ n ∈ h.name, P n.span) {f : Fault} (hf : h.nameFault? isEntry earlier = some f) :
    f.Fits P fun _ => True := by
  rw [nameFault?] at hf
  split at hf
  · rename_i n hname
    have hspan := hn n hname
    split at hf
    · cases hf
      exact ⟨hspan, fun n hn => by cases hn⟩
    · split at hf
      · cases hf
        exact ⟨hspan, fun n hn => by cases hn⟩
      · cases hf
  · split at hf
    · cases hf
    · cases hf
      exact Fault.fits_structure _ hd

end Header

end

namespace Token

def Placed (P : Span → Prop) : Except UnterminatedString (List Token) → Prop
  | .ok ts => ∀ t ∈ ts, P t.span
  | .error string => P string.span

theorem Placed.mono {P P' : Span → Prop} (hP : ∀ s, P s → P' s)
    {x : Except UnterminatedString (List Token)} (h : Placed P x) : Placed P' x := by
  cases x with
  | error string => exact hP _ h
  | ok ts => exact fun t ht => hP _ (h t ht)

theorem Placed.cons {P : Span → Prop} {x : Except UnterminatedString (List Token)} {t : Token}
    (ht : P t.span) (h : Placed P x) : Placed P ((t :: ·) <$> x) := by
  cases x with
  | error string => exact h
  | ok ts => exact List.forall_mem_cons.2 ⟨ht, h⟩

theorem placed_place (start : Nat) (ls : List Lexeme) :
    Placed (·.Within ⟨start, start + byteSize (ls.flatMap (·.chars))⟩) (place start ls) := by
  induction ls generalizing start with
  | nil => exact fun t ht => absurd ht List.not_mem_nil
  | cons l ls ih =>
    obtain ⟨kind, cs⟩ := l
    rw [List.flatMap_cons, byteSize_append]
    have hcs : Span.Within ⟨start, start + byteSize cs⟩
        ⟨start, start + (byteSize cs + byteSize (ls.flatMap (·.chars)))⟩ :=
      ⟨Nat.le_refl _, Nat.le_add_right _ _, by simp only; omega⟩
    have hrest : ∀ s : Span,
        s.Within ⟨start + byteSize cs, start + byteSize cs + byteSize (ls.flatMap (·.chars))⟩ →
        s.Within ⟨start, start + (byteSize cs + byteSize (ls.flatMap (·.chars)))⟩ := by
      rintro s ⟨h1, h2, h3⟩
      exact ⟨(Nat.le_add_right _ _).trans h1, h2, by simp only at h3 ⊢; omega⟩
    have ih := (ih (start + byteSize cs)).mono hrest
    match kind with
    | none => exact ih
    | some kind =>
      by_cases hk : kind = .unterminatedString
      · rw [hk, place_open]
        exact hcs
      · rw [place_cons hk]
        exact ih.cons hcs

end Token

/-- The tokens of a line lie in it. -/
theorem Excerpt.placed_tokens (line : Excerpt) : Token.Placed (·.Within line.span) line.tokens := by
  have h := Token.placed_place line.start (Lexeme.scan line.chars)
  rwa [Lexeme.scan, Lexeme.flatMap_chars_scanAfter, List.drop_zero] at h

end ShapeAssembly
