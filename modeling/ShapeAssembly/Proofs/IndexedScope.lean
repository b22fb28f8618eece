import ShapeAssembly.Proofs.BalancedLists
import ShapeAssembly.Proofs.StatementOutcomes

namespace ShapeAssembly

/-- The names bound in a block, with the position of each among the bindings. Whether a name is
bound is read off the positions alone. -/
structure IndexedScope where
  bindings : List Binding
  index : Std.HashMap String Nat

namespace IndexedScope

def empty : IndexedScope := ⟨[], ∅⟩

def contains (t : IndexedScope) (name : String) : Bool := t.index.contains name

def add (t : IndexedScope) (name : Name) (origin : Origin) : IndexedScope :=
  ⟨t.bindings ++ [⟨name, origin⟩], t.index.insert name.val t.bindings.length⟩

def define (t : IndexedScope) (name : Name) (origin : Origin) : Except Fault IndexedScope :=
  if t.contains name.val then .error ⟨.duplicateDefinition name.val, name.span⟩
  else .ok (t.add name origin)

/-- The names of the index as a scope. Arguments are read against it, since all they ask of a scope
is which names are bound. -/
def known (t : IndexedScope) : Scope :=
  ⟨t.index.keys.map fun name => ⟨⟨name, default⟩, .parameter⟩⟩

def bind (t : IndexedScope) (h : Statement.Head) : Except Fault IndexedScope :=
  match h.result with
  | none => .ok t
  | some r => t.define r (.result h.schema.name)

def parse (t : IndexedScope) (source : Excerpt) (ts : List Token) : Outcome × IndexedScope :=
  match Statement.readHead ts with
  | .error fault => (.failed fault, t)
  | .ok (head, call) =>
    let statement args : Statement := ⟨head.keyword, head.result, args, Token.spanOf ts⟩
    match head.readArguments source t.known call with
    | .error fault => (.incomplete (statement []) fault, t)
    | .ok args =>
      match t.bind head with
      | .error fault => (.incomplete (statement []) fault, t)
      | .ok t' => (.parsed (statement args), t')

inductive Step where
  | define (name : Name) (origin : Origin)
  | parse (source : Excerpt) (ts : List Token)

def next (t : IndexedScope) : Step → IndexedScope
  | .define name origin =>
    match t.define name origin with
    | .ok t' => t'
    | .error _ => t
  | .parse source ts => (t.parse source ts).2

def after (steps : List Step) : IndexedScope := steps.foldl next empty

def scope (t : IndexedScope) : Scope := ⟨t.bindings⟩

/-- Whether the index has every name at the position of its binding, and no other name. -/
def Agrees (t : IndexedScope) : Prop :=
  ∀ name i, t.index[name]? = some i ↔ ∃ b : Binding, t.bindings[i]? = some b ∧ b.name.val = name

variable {t t' : IndexedScope} {name : Name} {origin : Origin}

theorem contains_iff (t : IndexedScope) (name : String) :
    t.contains name = true ↔ ∃ i, t.index[name]? = some i := by
  rw [contains, Std.HashMap.contains_eq_isSome_getElem?, Option.isSome_iff_exists]

theorem known_contains (t : IndexedScope) : t.known.contains = t.contains := by
  funext name
  rw [Bool.eq_iff_iff, Scope.contains, known, Scope.names, List.map_map, contains,
    List.contains_iff_mem, ← Std.HashMap.mem_iff_contains, ← Std.HashMap.mem_keys]
  exact iff_of_eq (congrArg (name ∈ ·) (List.map_id _))

theorem Agrees.scope_contains (h : t.Agrees) : t.scope.contains = t.contains := by
  funext name
  rw [Bool.eq_iff_iff, contains_iff, Scope.contains, List.contains_iff_mem, Scope.names,
    List.mem_map]
  constructor
  · rintro ⟨b, hb, hname⟩
    obtain ⟨i, hi⟩ := List.mem_iff_getElem?.1 hb
    exact ⟨i, (h name i).2 ⟨b, hi, hname⟩⟩
  · rintro ⟨i, hi⟩
    obtain ⟨b, hb, hname⟩ := (h name i).1 hi
    exact ⟨b, List.mem_of_getElem? hb, hname⟩

theorem agrees_empty : empty.Agrees := by
  intro name i
  constructor
  · intro h
    rw [empty, Std.HashMap.getElem?_empty] at h
    cases h
  · rintro ⟨b, hb, -⟩
    cases hb

theorem getElem?_concat_eq_some {bs : List Binding} {b b' : Binding} {i : Nat} :
    (bs ++ [b])[i]? = some b' ↔ bs[i]? = some b' ∨ i = bs.length ∧ b = b' := by
  by_cases hi : i < bs.length
  · rw [List.getElem?_append_left hi]
    exact ⟨.inl, fun h => h.resolve_right fun h => hi.ne h.1⟩
  · rw [List.getElem?_append_right (not_lt.1 hi), List.getElem?_singleton,
      List.getElem?_eq_none (not_lt.1 hi)]
    by_cases heq : i = bs.length
    · simp [heq]
    · simp [heq, show i - bs.length ≠ 0 by omega]

/-- A name that is not in the index can be added to it. -/
theorem Agrees.add (h : t.Agrees) (hno : t.contains name.val = false) (origin : Origin) :
    (t.add name origin).Agrees := by
  have hfresh : ∀ i, t.index[name.val]? ≠ some i := fun i hi => by
    rw [(t.contains_iff name.val).2 ⟨i, hi⟩] at hno
    cases hno
  intro x i
  show (t.index.insert name.val t.bindings.length)[x]? = some i ↔
    ∃ b, (t.bindings ++ [⟨name, origin⟩])[i]? = some b ∧ b.name.val = x
  simp only [Std.HashMap.getElem?_insert, getElem?_concat_eq_some]
  by_cases hx : name.val = x
  · subst hx
    rw [if_pos (beq_self_eq_true _)]
    constructor
    · exact fun hi => ⟨_, .inr ⟨(Option.some.inj hi).symm, rfl⟩, rfl⟩
    · rintro ⟨b, hb | ⟨rfl, -⟩, hname⟩
      · exact absurd ((h name.val i).2 ⟨b, hb, hname⟩) (hfresh i)
      · rfl
  · rw [if_neg (by simpa using hx), h]
    constructor
    · exact fun ⟨b, hb, hname⟩ => ⟨b, .inl hb, hname⟩
    · rintro ⟨b, hb | ⟨-, rfl⟩, hname⟩
      · exact ⟨b, hb, hname⟩
      · exact absurd hname hx

theorem define_eq_ok :
    t.define name origin = .ok t' ↔ t.contains name.val = false ∧ t' = t.add name origin := by
  rw [define]
  cases t.contains name.val <;> simp [eq_comm]

/-- The positions stay right whatever is defined. -/
theorem Agrees.define (h : t.Agrees) (hd : t.define name origin = .ok t') : t'.Agrees := by
  obtain ⟨hno, rfl⟩ := define_eq_ok.1 hd
  exact h.add hno origin

theorem Agrees.define_eq (h : t.Agrees) (name : Name) (origin : Origin) :
    t.scope.define name origin = scope <$> t.define name origin := by
  rw [Scope.define, h.scope_contains, IndexedScope.define]
  cases t.contains name.val <;> rfl

end IndexedScope

section

variable {scope scope' : Scope}

theorem RawArgument.coerce_congr {a : RawArgument}
    (hc : a.token = some .ident → scope'.contains a.text.val = scope.contains a.text.val)
    (keyword : String) (position : Nat) (kind : Kind) :
    a.coerce keyword position kind scope' = a.coerce keyword position kind scope := by
  rw [coerce, coerce]
  cases hv : a.value? kind with
  | none => rfl
  | some v =>
    have ht := token_of_value? hv
    have hcause : scopeCause? scope' a.text.val kind = scopeCause? scope a.text.val kind := by
      cases kind with
      | existingVariable | newVariable => simp only [scopeCause?, hc ht]
      | float | bool | axis | face | identifier => rfl
    rw [hcause]

theorem RawArgument.coerceFrom_congr {as : List RawArgument}
    (hc : ∀ a ∈ as, a.token = some .ident →
      scope'.contains a.text.val = scope.contains a.text.val)
    (keyword : String) (position : Nat) (kinds : Signature) :
    coerceFrom keyword position scope' as kinds = coerceFrom keyword position scope as kinds := by
  induction as generalizing position kinds with
  | nil => rfl
  | cons a as ih =>
    obtain ⟨ha, has⟩ := List.forall_mem_cons.1 hc
    cases kinds with
    | nil => rfl
    | cons kind kinds => rw [coerceFrom, coerceFrom, coerce_congr ha, ih has]

/-- Arguments are read alike in scopes that know the same of the names that are written. -/
theorem Statement.Head.readArguments_congr {h : Head} {ts : List Token}
    (ht : ∀ t ∈ ts, t.kind = .ident → scope'.contains t.text = scope.contains t.text)
    (hr : ∀ r ∈ h.result, scope'.contains r.val = scope.contains r.val) (source : Excerpt) :
    h.readArguments source scope' ts = h.readArguments source scope ts := by
  have hcheck : h.checkResult scope' = h.checkResult scope := by
    rw [checkResult, checkResult]
    cases hresult : h.result with
    | none => rfl
    | some r => simp only [hr r hresult]
  rw [readArguments, readArguments]
  cases hread : Call.read source h.keyword.span ts with
  | error fault => rfl
  | ok call =>
    have hargs : ∀ a ∈ call.arguments, a.token = some .ident →
        scope'.contains a.text.val = scope.contains a.text.val := by
      intro a ha hk
      obtain ⟨t, hmem, rfl⟩ := Call.mem_of_read hread ha hk
      exact ht t hmem (Option.some.inj hk)
    have hvalidate : ∀ list, h.schema.validate call.arguments list scope' =
        h.schema.validate call.arguments list scope := by
      intro list
      simp only [Schema.validate, RawArgument.coerceFrom_congr hargs]
    simp only [Bind.bind, Except.bind, hvalidate, hcheck]

end

namespace IndexedScope

open Statement

variable {t : IndexedScope} {source : Excerpt} {ts call : List Token} {h : Head}
  {args : List Argument}

theorem Agrees.bind_eq (ht : t.Agrees) (h : Head) :
    h.bind t.scope = scope <$> t.bind h := by
  rw [Head.bind, bind]
  cases h.result with
  | none => rfl
  | some r => exact ht.define_eq r _

/-- A name that has been found fresh is still fresh when it is bound. -/
theorem exists_bind (ha : h.readArguments source t.known call = .ok args) :
    ∃ t', t.bind h = .ok t' := by
  obtain ⟨list, -, -, -, hcheck⟩ := Head.readArguments_eq_ok.1 ha
  rw [bind]
  cases hr : h.result with
  | none => exact ⟨t, rfl⟩
  | some r =>
    have hfresh := (Head.checkResult_eq_ok.1 hcheck r hr).2
    have hno : t.contains r.val = false := by
      rw [← t.known_contains]
      simpa [Scope.contains] using hfresh
    exact ⟨_, define_eq_ok.2 ⟨hno, rfl⟩⟩

/-- Reading a statement is the same whether names are looked up in the index or the bindings. -/
theorem Agrees.parse_eq (ht : t.Agrees) (source : Excerpt) (ts : List Token) :
    Statement.parse source t.scope ts =
      ((t.parse source ts).1, (t.parse source ts).2.scope) := by
  have hc : t.scope.contains = t.known.contains := ht.scope_contains.trans t.known_contains.symm
  rw [Statement.parse, parse]
  cases readHead ts with
  | error fault => rfl
  | ok p =>
    obtain ⟨h, call⟩ := p
    have hargs := Head.readArguments_congr (h := h) (fun u (_ : u ∈ call) _ => congrFun hc u.text)
      (fun r _ => congrFun hc r.val) source
    simp only [hargs, ht.bind_eq]
    cases h.readArguments source t.known call with
    | error fault => rfl
    | ok args => cases t.bind h <;> rfl

inductive Leaves (t : IndexedScope) (ts : List Token) : Outcome → IndexedScope → Prop
  | rejected {o : Outcome} (h : ∀ s, o ≠ .parsed s) : Leaves t ts o t
  | plain {s : Statement} (hr : s.result = none) : Leaves t ts (.parsed s) t
  | assigned {s : Statement} {r : Name} {k : Token} {call : List Token} {schema : Schema}
    {binding : ResultBinding} (hb : Begins ts (some r) k call schema binding)
    (hr : s.result = some r) (hfresh : t.contains r.val = false) :
    Leaves t ts (.parsed s) (t.add r (.result schema.name))

theorem parse_leaves (t : IndexedScope) (source : Excerpt) (ts : List Token) :
    Leaves t ts (t.parse source ts).1 (t.parse source ts).2 := by
  rw [parse]
  cases hread : readHead ts with
  | error fault => exact .rejected fun s => Outcome.noConfusion
  | ok p =>
    obtain ⟨h, call⟩ := p
    obtain ⟨k, hb, -⟩ := readHead_eq_ok_iff.1 hread
    simp only
    cases ha : h.readArguments source t.known call with
    | error fault => exact .rejected fun s => Outcome.noConfusion
    | ok args =>
      obtain ⟨t', ht'⟩ := exists_bind ha
      simp only [ht']
      rw [bind] at ht'
      cases hr : h.result with
      | none =>
        rw [hr] at ht'
        cases ht'
        exact .plain rfl
      | some r =>
        rw [hr] at ht' hb
        obtain ⟨hfresh, rfl⟩ := define_eq_ok.1 ht'
        exact .assigned hb rfl hfresh

theorem Agrees.next (ht : t.Agrees) (step : Step) : (t.next step).Agrees := by
  cases step with
  | define name origin =>
    rw [IndexedScope.next]
    cases hd : t.define name origin with
    | error fault => exact ht
    | ok t' => exact ht.define hd
  | parse source ts =>
    have hleaves := t.parse_leaves source ts
    rw [IndexedScope.next]
    generalize (t.parse source ts).1 = o, (t.parse source ts).2 = t' at hleaves
    cases hleaves with
    | rejected | plain => exact ht
    | assigned hb hr hfresh => exact ht.add hfresh _

/-- The index has the names at their positions after any steps. -/
theorem agrees_after (steps : List Step) : (after steps).Agrees :=
  List.foldlRecOn steps next agrees_empty fun _ ht step _ => ht.next step

/-- After any steps, reading a statement changes nothing unless it is parsed with a result, and then
adds this one name to both the bindings and the index. -/
theorem parse_after (steps : List Step) (source : Excerpt) (ts : List Token) :
    Statement.parse source (after steps).scope ts =
      (((after steps).parse source ts).1, ((after steps).parse source ts).2.scope) ∧
    ((∀ s n, ((after steps).parse source ts).1 = .parsed s → s.result ≠ some n) →
      ((after steps).parse source ts).2 = after steps) ∧
    (∀ s n, ((after steps).parse source ts).1 = .parsed s → s.result = some n →
      ∃ k call schema binding, Begins ts (some n) k call schema binding ∧
        ((after steps).parse source ts).2 = (after steps).add n (.result schema.name)) ∧
    ∀ h call args, readHead ts = .ok (h, call) →
      h.readArguments source (after steps).known call = .ok args →
        ∃ t, (after steps).bind h = .ok t := by
  have hleaves := (after steps).parse_leaves source ts
  refine ⟨(agrees_after steps).parse_eq source ts, fun hno => ?_, fun s n hs hn => ?_,
    fun h call args _ ha => exists_bind ha⟩
  · generalize ((after steps).parse source ts).1 = o, ((after steps).parse source ts).2 = t
      at hleaves hno
    cases hleaves with
    | rejected | plain => rfl
    | assigned hb hr => exact absurd hr (hno _ _ rfl)
  · rw [hs] at hleaves
    generalize ((after steps).parse source ts).2 = t at hleaves
    cases hleaves with
    | rejected h => exact absurd rfl (h s)
    | plain hr =>
      rw [hn] at hr
      cases hr
    | assigned hb hr =>
      obtain rfl := Option.some.inj (hn.symm.trans hr)
      exact ⟨_, _, _, _, hb, rfl⟩

end IndexedScope

end ShapeAssembly
