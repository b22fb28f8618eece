import ShapeAssembly.Proofs.IndexedSchema
import ShapeAssembly.Proofs.StatementOutcomes

namespace ShapeAssembly

namespace RawArgument

/-- An argument of one token, and what it is read as where these names are in scope. -/
def ReadsAs (names : List String) (a : RawArgument) (y : Argument) : Prop :=
  ∃ t : Token, t.argument = a ∧ t.ReadsAs names y

/-- What is wrong with an argument at a position, counted from 1, that expects a kind. -/
inductive Misfit (keyword : String) (position : Nat) (names : List String) (a : RawArgument) :
    Kind → Fault → Prop
  | mismatch {kind : Kind}
    (h : ∀ token value, a.token = some token → ¬ kind.Assigns token a.text.val value) :
    Misfit keyword position names a kind ⟨.kindMismatch keyword position kind a.text.val, a.span⟩
  | unbound (ht : a.token = some .ident) (hr : isReserved a.text.val = false)
    (h : a.text.val ∉ names) :
    Misfit keyword position names a .existingVariable ⟨.unboundVariable a.text.val, a.span⟩
  | duplicate (ht : a.token = some .ident) (hr : isReserved a.text.val = false)
    (h : a.text.val ∈ names) :
    Misfit keyword position names a .newVariable ⟨.duplicateDefinition a.text.val, a.span⟩

variable {keyword : String} {position : Nat} {scope : Scope} {names : List String}
  {a : RawArgument} {kind : Kind} {y : Argument} {fault : Fault}

theorem gives_iff_readsAs : Gives scope a y ↔ a.ReadsAs scope.names y := by
  constructor
  · intro h
    obtain ⟨t, rfl⟩ : ∃ t : Token, t.argument = a := by
      refine ⟨⟨y.kind.token, a.text.val, a.text.span⟩, ?_⟩
      rw [Token.argument, ← token_of_value? h.value]
      rfl
    exact ⟨t, rfl, gives_iff.1 h⟩
  · rintro ⟨t, rfl, h⟩
    exact gives_iff.2 h

theorem scopeCause?_eq_some {name : String} {cause : Cause} :
    scopeCause? scope name kind = some cause ↔
      kind = .existingVariable ∧ name ∉ scope.names ∧ cause = .unboundVariable name ∨
        kind = .newVariable ∧ name ∈ scope.names ∧ cause = .duplicateDefinition name := by
  cases kind <;> simp [scopeCause?, Scope.contains, eq_comm]

theorem value?_eq_none :
    a.value? kind = none ↔
      ∀ token value, a.token = some token → ¬ kind.Assigns token a.text.val value := by
  constructor
  · intro hv token value ht h
    rw [value?_of_assigns ht h] at hv
    cases hv
  · intro h
    cases hv : a.value? kind with
    | none => rfl
    | some v =>
      have ht := token_of_value? hv
      exact absurd (assigns_of_value? ht hv) (h _ _ ht)

/-- An argument is refused for what is wrong with it. -/
theorem coerce_eq_error :
    a.coerce keyword position kind scope = .error fault ↔
      a.Misfit keyword position scope.names kind fault := by
  rw [coerce]
  cases hv : a.value? kind with
  | none =>
    have hno := value?_eq_none.1 hv
    constructor
    · intro h
      obtain rfl := Except.error.inj h
      exact .mismatch hno
    · intro h
      cases h with
      | mismatch => rfl
      | unbound ht hr | duplicate ht hr => exact absurd (.name (by simp) hr) (hno _ _ ht)
  | some v =>
    have ht := token_of_value? hv
    have hassigns := assigns_of_value? ht hv
    cases hc : scopeCause? scope a.text.val kind with
    | none =>
      obtain ⟨hbound, hfresh⟩ := scopeCause?_eq_none.1 hc
      constructor
      · intro h
        cases h
      · intro h
        cases h with
        | mismatch h => exact absurd hassigns (h _ _ ht)
        | unbound _ _ h => exact absurd (hbound rfl) h
        | duplicate _ _ h => exact absurd h (hfresh rfl)
    | some cause =>
      have hcause := scopeCause?_eq_some.1 hc
      constructor
      · intro h
        obtain rfl := Except.error.inj h
        rcases hcause with ⟨rfl, hno, rfl⟩ | ⟨rfl, hmem, rfl⟩
        · cases hassigns with
          | name _ hr => exact .unbound ht hr hno
        · cases hassigns with
          | name _ hr => exact .duplicate ht hr hmem
      · intro h
        cases h with
        | mismatch h => exact absurd hassigns (h _ _ ht)
        | unbound =>
          obtain ⟨-, -, rfl⟩ := hcause.resolve_right fun h => by cases h.1
          rfl
        | duplicate =>
          obtain ⟨-, -, rfl⟩ := hcause.resolve_left fun h => by cases h.1
          rfl

theorem Misfit.code_ne (h : a.Misfit keyword position names kind fault) : fault.code ≠ .arity := by
  cases h <;> exact Code.noConfusion

theorem coerceFrom_eq_mapM (keyword : String) (position : Nat) (scope : Scope)
    (as : List RawArgument) (kinds : Signature) :
    coerceFrom keyword position scope as kinds =
      ((as.zip kinds).zipIdx position).mapM fun ((a, kind), position) =>
        a.coerce keyword position kind scope := by
  induction as generalizing position kinds with
  | nil => rfl
  | cons a as ih =>
    cases kinds with
    | nil => rfl
    | cons kind kinds =>
      rw [coerceFrom, List.zip_cons_cons, List.zipIdx_cons, List.mapM_cons, ih]

theorem coerceFrom_cons_eq_error {as : List RawArgument} {kinds : Signature} :
    coerceFrom keyword position scope (a :: as) (kind :: kinds) = .error fault ↔
      a.Misfit keyword position scope.names kind fault ∨
        ∃ y, (y.kind = kind ∧ a.ReadsAs scope.names y) ∧
          coerceFrom keyword (position + 1) scope as kinds = .error fault := by
  rw [coerceFrom, bind_eq_error, coerce_eq_error]
  simp only [bind_eq_error, coerce_eq_ok, gives_iff_readsAs, pure, Except.pure, reduceCtorEq,
    and_false, exists_false, or_false]

/-- The first argument that does not fit decides. -/
theorem coerceFrom_eq_error {as : List RawArgument} {kinds : Signature} :
    coerceFrom keyword position scope as kinds = .error fault ↔
      ∃ before a after ys kind rest, as = before ++ a :: after ∧
        kinds = ys.map Argument.kind ++ kind :: rest ∧
        List.Forall₂ (ReadsAs scope.names) before ys ∧
        a.Misfit keyword (before.length + position) scope.names kind fault := by
  constructor
  · intro h
    induction as generalizing position kinds with
    | nil => cases h
    | cons a as ih =>
      cases kinds with
      | nil => cases h
      | cons kind kinds =>
        rcases coerceFrom_cons_eq_error.1 h with ha | ⟨y, ⟨rfl, hy⟩, hrest⟩
        · refine ⟨[], a, as, [], kind, kinds, rfl, rfl, .nil, ?_⟩
          rwa [List.length_nil, Nat.zero_add]
        · obtain ⟨before, b, after, ys, kind, rest, rfl, rfl, hbefore, hb⟩ := ih hrest
          refine ⟨a :: before, b, after, y :: ys, kind, rest, rfl, rfl, .cons hy hbefore, ?_⟩
          rwa [List.length_cons, Nat.add_assoc, Nat.add_comm 1]
  · rintro ⟨before, a, after, ys, kind, rest, rfl, rfl, hbefore, ha⟩
    induction hbefore generalizing position with
    | nil =>
      rw [List.length_nil, Nat.zero_add] at ha
      exact coerceFrom_cons_eq_error.2 (.inl ha)
    | @cons b y before ys hb _ ih =>
      rw [List.length_cons, Nat.add_assoc, Nat.add_comm 1] at ha
      exact coerceFrom_cons_eq_error.2 (.inr ⟨y, ⟨rfl, hb⟩, ih ha⟩)

end RawArgument

namespace Schema

open RawArgument

variable {name : String} {usage : Usage} {signatures : List Signature} {kinds : Signature}
  {args : List RawArgument}

theorem validate_of_lastOf?_eq_none (h : Signature.lastOf? args.length signatures = none)
    (list : Span) (scope : Scope) :
    (ofSignatures name usage signatures).validate args list scope =
      .error ⟨.arity name (ofSignatures name usage signatures).arities args.length,
        match args.head?, args.getLast? with
        | some first, some last => first.span.merge last.span
        | _, _ => list⟩ := by
  rw [validate, signature?_ofSignatures, h]
  rfl

theorem validate_eq_error (h : Signature.lastOf? args.length signatures = some kinds)
    {list : Span} {scope : Scope} {fault : Fault} :
    (ofSignatures name usage signatures).validate args list scope = .error fault ↔
      ∃ before a after ys kind rest, args = before ++ a :: after ∧
        kinds = ys.map Argument.kind ++ kind :: rest ∧
        List.Forall₂ (ReadsAs scope.names) before ys ∧
        a.Misfit name (before.length + 1) scope.names kind fault := by
  rw [validate, signature?_ofSignatures, h]
  exact coerceFrom_eq_error

theorem validate_eq_ok_iff (h : Signature.lastOf? args.length signatures = some kinds)
    {list : Span} {scope : Scope} {ys : List Argument} :
    (ofSignatures name usage signatures).validate args list scope = .ok ys ↔
      ys.map Argument.kind = kinds ∧ List.Forall₂ (ReadsAs scope.names) args ys := by
  rw [validate_eq_ok, signature?_ofSignatures, h, Option.some.injEq, eq_comm]
  exact and_congr_right fun _ =>
    ⟨fun hall => hall.imp fun _ _ => gives_iff_readsAs.1,
      fun hall => hall.imp fun _ _ => gives_iff_readsAs.2⟩

/-- An argument is not read before the number of all is found right. -/
theorem arity_iff (name : String) (usage : Usage) (signatures : List Signature)
    (args : List RawArgument) (list : Span) (scope : Scope) :
    (∃ fault, (ofSignatures name usage signatures).validate args list scope = .error fault ∧
      fault.code = .arity) ↔ ∀ s ∈ signatures, s.length ≠ args.length := by
  rw [← Signature.lastOf?_eq_none]
  constructor
  · rintro ⟨fault, hf, hcode⟩
    cases h : Signature.lastOf? args.length signatures with
    | none => rfl
    | some kinds =>
      obtain ⟨_, _, _, _, _, _, -, -, -, hmisfit⟩ := (validate_eq_error h).1 hf
      exact absurd hcode hmisfit.code_ne
  · exact fun h => ⟨_, validate_of_lastOf?_eq_none h list scope, rfl⟩

end Schema

namespace IndexedSchema

variable {signatures : List Signature}

theorem validate_ofSignatures (name : String) (usage : Usage) (signatures : List Signature)
    (args : List RawArgument) (list : Span) (scope : Scope) :
    (ofSignatures name usage signatures).validate args list scope =
      (Schema.ofSignatures name usage signatures).validate args list scope := by
  rw [validate, Schema.validate, toList_arities, signature?_ofSignatures,
    Schema.signature?_ofSignatures]
  cases Signature.lastOf? args.length signatures with
  | none => rfl
  | some kinds => exact (RawArgument.coerceFrom_eq_mapM name 1 scope args kinds).symm

theorem acceptsArity_ofSignatures (name : String) (usage : Usage) (signatures : List Signature)
    (n : Nat) : (ofSignatures name usage signatures).acceptsArity n =
      (Schema.ofSignatures name usage signatures).acceptsArity n := by
  rw [Bool.eq_iff_iff, acceptsArity, ← Std.TreeSet.mem_iff_contains, ← Std.TreeSet.mem_toList,
    toList_arities, Schema.acceptsArity, List.contains_iff_mem]

end IndexedSchema

/-- Whether there is a signature of their number comes first, whatever the arguments are. Then they
are read as the kinds of the last such signature, up to the first that does not fit. -/
theorem Schema.validate_classified (name : String) (usage : Usage) (signatures : List Signature)
    (args : List RawArgument) (list : Span) (scope : Scope) :
    let schema := ofSignatures name usage signatures
    let indexed := IndexedSchema.ofSignatures name usage signatures
    let result := schema.validate args list scope
    ((∃ fault, result = .error fault ∧ fault.code = .arity) ↔
      ∀ s ∈ signatures, s.length ≠ args.length) ∧
    ((∀ s ∈ signatures, s.length ≠ args.length) → ∃ expected span,
      result = .error ⟨.arity name expected args.length, span⟩ ∧
      expected.Pairwise (· < ·) ∧ (∀ n, n ∈ expected ↔ ∃ s ∈ signatures, s.length = n) ∧
      (args = [] → span = list) ∧
      ∀ first last, args.head? = some first → args.getLast? = some last →
        span = first.span.merge last.span) ∧
    (∀ kinds, (signatures.filter (·.length = args.length)).getLast? = some kinds →
      (∀ fault, result = .error fault ↔
        ∃ before a after ys kind rest, args = before ++ a :: after ∧
          kinds = ys.map Argument.kind ++ kind :: rest ∧
          List.Forall₂ (RawArgument.ReadsAs scope.names) before ys ∧
          a.Misfit name (before.length + 1) scope.names kind fault) ∧
      ∀ ys, result = .ok ys ↔
        ys.map Argument.kind = kinds ∧ List.Forall₂ (RawArgument.ReadsAs scope.names) args ys) ∧
    (∀ n, (schema.acceptsArity n = true ↔ ∃ kinds, schema.signature? n = some kinds) ∧
      ∀ kinds, schema.signature? n = some kinds → kinds.length = n) ∧
    indexed.validate args list scope = result ∧
    ∀ n, indexed.acceptsArity n = schema.acceptsArity n ∧
      indexed.signature? n = schema.signature? n := by
  intro schema indexed result
  refine ⟨arity_iff name usage signatures args list scope, fun h => ?_,
    fun kinds h => ⟨fun fault => validate_eq_error h, fun ys => validate_eq_ok_iff h⟩,
    fun n => ⟨?_, fun kinds h => ?_⟩,
    IndexedSchema.validate_ofSignatures name usage signatures args list scope,
    fun n => ⟨IndexedSchema.acceptsArity_ofSignatures name usage signatures n, ?_⟩⟩
  · refine ⟨_, _, validate_of_lastOf?_eq_none (Signature.lastOf?_eq_none.2 h) list scope,
      pairwise_arities name usage signatures, fun n => mem_arities_ofSignatures, ?_, ?_⟩
    · rintro rfl
      rfl
    · intro first last hfirst hlast
      rw [hfirst, hlast]
  · rw [acceptsArity, List.contains_iff_mem, mem_arities, Option.isSome_iff_exists]
  · rw [signature?_ofSignatures] at h
    exact Signature.length_of_lastOf? h
  · rw [IndexedSchema.signature?_ofSignatures, signature?_ofSignatures]

end ShapeAssembly
