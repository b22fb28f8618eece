import ShapeAssembly.Proofs.IndexedScope

namespace ShapeAssembly

open Statement

def Scope.next (s : Scope) : IndexedScope.Step → Scope
  | .define name origin =>
    match s.define name origin with
    | .ok s' => s'
    | .error _ => s
  | .parse source ts => (Statement.parse source s ts).2

def Scope.after (steps : List IndexedScope.Step) : Scope := steps.foldl next empty

namespace IndexedScope

def size (t : IndexedScope) : Nat := t.bindings.length

/-- The binding of a name, found by its position; none if the position is past the end. -/
def lookup? (t : IndexedScope) (name : String) : Option (Option Binding) :=
  match t.index[name]? with
  | none => some none
  | some i => some <$> t.bindings[i]?

/-- What a step declares, if it succeeds. A statement declares its result, and the keyword is in the
letters of its schema. -/
def declared? (t : IndexedScope) : Step → Option Binding
  | .define name origin =>
    match t.define name origin with
    | .ok _ => some ⟨name, origin⟩
    | .error _ => none
  | .parse source ts =>
    match (t.parse source ts).1 with
    | .parsed s =>
      s.result.bind fun r => (Schema.lookup? s.keyword.val).map fun schema =>
        ⟨r, .result schema.name⟩
    | _ => none

def declarations (t : IndexedScope) : List Step → List Binding
  | [] => []
  | step :: steps => (t.declared? step).toList ++ declarations (t.next step) steps

variable {t t' : IndexedScope} {name : Name} {origin : Origin} {fault : Fault}

theorem define_eq_error :
    t.define name origin = .error fault ↔
      t.contains name.val = true ∧ fault = ⟨.duplicateDefinition name.val, name.span⟩ := by
  rw [define]
  cases t.contains name.val <;> simp [eq_comm]

theorem next_define_of_contains (h : t.contains name.val = true) (origin : Origin) :
    t.next (.define name origin) = t := by
  have hd : t.define name origin = .error _ := define_eq_error.2 ⟨h, rfl⟩
  rw [next, hd]

theorem Agrees.nodup_names (h : t.Agrees) : (t.bindings.map (·.name.val)).Nodup := by
  rw [List.nodup_iff_getElem?_ne_getElem?]
  intro i j hij hlt heq
  obtain ⟨b, hb, hname⟩ : ∃ b, t.bindings[j]? = some b ∧
      (t.bindings.map (·.name.val))[i]? = some b.name.val := by
    rw [List.length_map] at hlt
    rw [heq, List.getElem?_map, List.getElem?_eq_getElem hlt]
    exact ⟨_, rfl, rfl⟩
  obtain ⟨a, ha, hab⟩ := Option.map_eq_some_iff.1 (List.getElem?_map.symm.trans hname)
  have hi := (h b.name.val i).2 ⟨a, ha, hab⟩
  rw [(h b.name.val j).2 ⟨b, hb, rfl⟩] at hi
  exact hij.ne (Option.some.inj hi).symm

theorem Agrees.contains_iff (h : t.Agrees) (name : String) :
    t.contains name = true ↔ ∃ b ∈ t.bindings, b.name.val = name := by
  rw [← h.scope_contains, Scope.contains, List.contains_iff_mem, Scope.names, List.mem_map]
  rfl

/-- The binding at the position of a name is the first one of that name. -/
theorem Agrees.lookup?_eq (h : t.Agrees) (name : String) :
    t.lookup? name = some (t.bindings.find? (·.name.val = name)) := by
  rw [lookup?]
  cases hi : t.index[name]? with
  | none =>
    have hno : ∀ b ∈ t.bindings, ¬ b.name.val = name := by
      intro b hb hname
      obtain ⟨i, hi'⟩ := List.mem_iff_getElem?.1 hb
      rw [(h name i).2 ⟨b, hi', hname⟩] at hi
      cases hi
    exact congrArg some (List.find?_eq_none.2 fun b hb => by simpa using hno b hb).symm
  | some i =>
    obtain ⟨b, hb, hname⟩ := (h name i).1 hi
    have hfirst : t.bindings.find? (·.name.val = name) = some b := by
      obtain ⟨hlt, hget⟩ := List.getElem?_eq_some_iff.1 hb
      refine List.find?_eq_some_iff_getElem.2 ⟨decide_eq_true hname, i, hlt, hget, fun j hj => ?_⟩
      -- a name has one position only
      have hne : ¬ t.bindings[j].name.val = name := fun hj' => by
        have hat := (h name j).2 ⟨_, List.getElem?_eq_getElem (hj.trans hlt), hj'⟩
        rw [hi] at hat
        exact hj.ne (Option.some.inj hat).symm
      simpa using hne
    show some <$> t.bindings[i]? = _
    rw [hb, hfirst]
    rfl

/-- A parsed statement keeps the keyword that its tokens have. -/
theorem keyword_of_parsed {source : Excerpt} {ts call : List Token} {result : Option Name}
    {k : Token} {schema : Schema} {binding : ResultBinding} {s : Statement}
    (hb : Begins ts result k call schema binding) (hs : (t.parse source ts).1 = .parsed s) :
    s.keyword = k.name := by
  rw [parse, hb.readHead] at hs
  simp only at hs
  split at hs
  · cases hs
  · split at hs
    · cases hs
    · obtain rfl := Outcome.parsed.inj hs
      rfl

/-- A step adds what it declares, which is a fresh name, or changes nothing. -/
theorem next_cases (t : IndexedScope) (step : Step) :
    t.declared? step = none ∧ t.next step = t ∨
      ∃ b, t.declared? step = some b ∧ t.contains b.name.val = false ∧
        t.next step = t.add b.name b.origin := by
  cases step with
  | define name origin =>
    rw [declared?, next]
    cases hd : t.define name origin with
    | error fault => exact .inl ⟨rfl, rfl⟩
    | ok t' =>
      obtain ⟨hfresh, rfl⟩ := define_eq_ok.1 hd
      exact .inr ⟨_, rfl, hfresh, rfl⟩
  | parse source ts =>
    have hleaves := t.parse_leaves source ts
    rw [declared?, next]
    generalize ho : (t.parse source ts).1 = o, (t.parse source ts).2 = t' at hleaves ⊢
    cases hleaves with
    | rejected h =>
      cases o with
      | parsed s => exact absurd rfl (h s)
      | incomplete | failed => exact .inl ⟨rfl, rfl⟩
    | @plain s hr =>
      refine .inl ⟨?_, rfl⟩
      show s.result.bind _ = none
      rw [hr]
      rfl
    | @assigned s r k call schema binding hb hr hfresh =>
      have hlookup : Schema.lookup? s.keyword.val = some schema := by
        rw [keyword_of_parsed hb ho]
        exact Schema.lookup?_eq_some.2 ⟨hb.known, hb.letters⟩
      refine .inr ⟨⟨r, .result schema.name⟩, ?_, hfresh, rfl⟩
      show s.result.bind _ = _
      rw [hr, Option.bind_some, hlookup]
      rfl

theorem bindings_next (t : IndexedScope) (step : Step) :
    (t.next step).bindings = t.bindings ++ (t.declared? step).toList := by
  rcases t.next_cases step with ⟨hnone, hnext⟩ | ⟨b, hb, -, hnext⟩
  · rw [hnext, hnone, Option.toList_none, List.append_nil]
  · rw [hnext, hb]
    rfl

theorem bindings_foldl (t : IndexedScope) (steps : List Step) :
    (steps.foldl next t).bindings = t.bindings ++ t.declarations steps := by
  induction steps generalizing t with
  | nil => rw [declarations, List.append_nil, List.foldl_nil]
  | cons step steps ih =>
    rw [List.foldl_cons, ih, bindings_next, declarations, List.append_assoc]

theorem bindings_after (steps : List Step) : (after steps).bindings = empty.declarations steps :=
  bindings_foldl empty steps

theorem Agrees.scope_next (h : t.Agrees) (step : Step) :
    (t.next step).scope = t.scope.next step := by
  cases step with
  | define name origin =>
    rw [IndexedScope.next, Scope.next, h.define_eq]
    cases t.define name origin <;> rfl
  | parse source ts => rw [IndexedScope.next, Scope.next, h.parse_eq]

/-- Positions make no difference to a run. -/
theorem scope_after (steps : List Step) : (after steps).scope = Scope.after steps := by
  induction steps using List.reverseRecOn with
  | nil => rfl
  | append_singleton steps step ih =>
    rw [after, Scope.after, List.foldl_append, List.foldl_append]
    show ((after steps).next step).scope = (Scope.after steps).next step
    rw [(agrees_after steps).scope_next, ih]

/-- What is found once is found ever after. -/
theorem lookup?_append {steps : List Step} {name : String} {b : Binding}
    (h : (after steps).lookup? name = some (some b)) (more : List Step) :
    (after (steps ++ more)).lookup? name = some (some b) := by
  rw [(agrees_after steps).lookup?_eq, Option.some.injEq] at h
  rw [(agrees_after _).lookup?_eq, after, List.foldl_append, bindings_foldl, List.find?_append,
    ← after, h]
  rfl

/-- After any steps, the names stand at their positions in the order in which they were declared,
each of them once, and a name is looked up as it was first declared. A name that is bound already is
refused. The answers are those of a scope without positions. -/
theorem declarations_after (steps : List Step) :
    let t := after steps
    let declared := empty.declarations steps
    (∀ name i, t.index[name]? = some i ↔
      ∃ b : Binding, t.bindings[i]? = some b ∧ b.name.val = name) ∧
    (t.bindings.map (·.name.val)).Nodup ∧
    (∀ name, t.contains name = true ↔ ∃ b ∈ t.bindings, b.name.val = name) ∧
    t.bindings = declared ∧ t.size = declared.length ∧
    (∀ name, t.lookup? name = some (declared.find? (·.name.val = name))) ∧
    (∀ name b, t.lookup? name = some (some b) →
      ∀ more, (after (steps ++ more)).lookup? name = some (some b)) ∧
    (∀ name origin, t.contains name.val = true →
      t.define name origin = .error ⟨.duplicateDefinition name.val, name.span⟩ ∧
      t.next (.define name origin) = t) ∧
    (∀ name origin fault, t.define name origin = .error fault → t.contains name.val = true) ∧
    t.scope = Scope.after steps ∧ t.size = (Scope.after steps).size ∧
    ∀ name, t.contains name = (Scope.after steps).contains name ∧
      t.lookup? name = some ((Scope.after steps).lookup? name) := by
  intro t declared
  have hagrees : t.Agrees := agrees_after steps
  have hbindings : t.bindings = declared := bindings_after steps
  have hscope : t.scope = Scope.after steps := scope_after steps
  refine ⟨hagrees, hagrees.nodup_names, hagrees.contains_iff, hbindings,
    congrArg List.length hbindings, fun name => ?_, fun name b h more => lookup?_append h more,
    fun name origin h => ⟨define_eq_error.2 ⟨h, rfl⟩, next_define_of_contains h origin⟩,
    fun name origin fault h => (define_eq_error.1 h).1, hscope, ?_, fun name => ⟨?_, ?_⟩⟩
  · rw [hagrees.lookup?_eq, hbindings]
  · rw [← hscope]
    rfl
  · rw [← hscope, hagrees.scope_contains]
  · rw [← hscope, hagrees.lookup?_eq]
    rfl

end IndexedScope

end ShapeAssembly
