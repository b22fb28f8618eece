import ShapeAssembly.Proofs.IndexedScope

namespace ShapeAssembly

def Outcome.declared? : Outcome → Option Binding
  | parsed s => s.result.bind fun r =>
      (Schema.lookup? s.keyword.val).map fun schema => ⟨r, .result schema.name⟩
  | incomplete .. | failed _ => none

theorem Scope.contains_append {scope : Scope} {added : List Binding} {name : String}
    (h : ∀ b ∈ added, name ≠ b.name.val) :
    contains ⟨scope.bindings ++ added⟩ name = scope.contains name := by
  rw [Bool.eq_iff_iff, contains, contains, List.contains_iff_mem, List.contains_iff_mem, names,
    names, List.map_append, List.mem_append]
  refine or_iff_left fun hmem => ?_
  obtain ⟨b, hb, hname⟩ := List.mem_map.1 hmem
  exact h b hb hname.symm

namespace Statement

/-- The name that a statement assigns to, bound or not. Tokens without a known keyword are no
statement. -/
def target? (ts : List Token) : Option Name := (readHead ts).toOption.bind (·.1.result)

/-- The name that the first tokens assign to, if there is one, is not written in the others. -/
def Spares (ts us : List Token) : Prop :=
  ∀ r ∈ target? ts, ∀ u ∈ us, u.kind = .ident → u.text ≠ r.val

variable {source : Excerpt} {scope scope' : Scope} {ts us call : List Token}

theorem target?_eq {h : Head} (hread : readHead ts = .ok (h, call)) : target? ts = h.result := by
  rw [target?, hread]
  rfl

theorem Headed.of_mem {result : Option Name} {k : Token} (h : Headed ts result k call) :
    (∀ t ∈ call, t ∈ ts) ∧ ∀ r ∈ result, ∃ t ∈ ts, t.kind = .ident ∧ t.name = r := by
  cases h with
  | plain => exact ⟨fun t ht => List.mem_cons_of_mem k ht, fun r hr => by cases hr⟩
  | assigned hr =>
    refine ⟨fun t ht => by simp [ht], fun r hmem => ?_⟩
    exact ⟨_, List.mem_cons_self, hr, Option.some.inj hmem⟩

/-- What tokens are read as depends on the scope only by the names among them. -/
theorem parse_congr (source : Excerpt)
    (hc : ∀ t ∈ ts, t.kind = .ident → scope'.contains t.text = scope.contains t.text) :
    (parse source scope' ts).1 = (parse source scope ts).1 := by
  rw [parse, parse]
  cases hread : readHead ts with
  | error fault => rfl
  | ok p =>
    obtain ⟨h, call⟩ := p
    obtain ⟨k, hb, -⟩ := readHead_eq_ok_iff.1 hread
    obtain ⟨hcall, hresult⟩ := hb.headed.of_mem
    have hargs : h.readArguments source scope' call = h.readArguments source scope call := by
      refine Head.readArguments_congr (fun t ht => hc t (hcall t ht)) (fun r hr => ?_) source
      obtain ⟨t, ht, hk, rfl⟩ := hresult r hr
      exact hc t ht hk
    -- a result that has been found fresh can be bound
    have hbind : ∀ {scope args}, h.readArguments source scope call = .ok args →
        ∃ scope', h.bind scope = .ok scope' := fun ha => by
      obtain ⟨list, -, -, -, hcheck⟩ := Head.readArguments_eq_ok.1 ha
      exact Head.exists_bind hcheck
    cases ha : h.readArguments source scope call with
    | error fault => simp only [hargs, ha]
    | ok args =>
      obtain ⟨_, hs⟩ := hbind ha
      obtain ⟨_, hs'⟩ := hbind (hargs.trans ha)
      simp only [hargs, ha, hs, hs']

/-- Reading a statement adds what it declares to the scope. -/
theorem parse_declares (source : Excerpt) (scope : Scope) (ts : List Token) :
    (parse source scope ts).2 =
        ⟨scope.bindings ++ (parse source scope ts).1.declared?.toList⟩ ∧
      ∀ b ∈ (parse source scope ts).1.declared?, b.name ∈ target? ts := by
  have hread := parse_read source scope ts
  generalize parse source scope ts = r at hread
  cases hread with
  | failed | incomplete =>
    exact ⟨congrArg Scope.mk (List.append_nil _).symm, fun b hb => by cases hb⟩
  | @parsed h call args scope' hr ha hb =>
    obtain ⟨k, hbegins, hname⟩ := readHead_eq_ok_iff.1 hr
    have hlookup : Schema.lookup? h.keyword.val = some h.schema := by
      rw [hname]
      exact Schema.lookup?_eq_some.2 ⟨hbegins.known, hbegins.letters⟩
    rw [target?_eq hr]
    rw [Head.bind] at hb
    dsimp only [Outcome.declared?]
    cases hresult : h.result with
    | none =>
      rw [hresult] at hb
      cases hb
      exact ⟨congrArg Scope.mk (List.append_nil _).symm, fun b hb => by cases hb⟩
    | some r =>
      rw [hresult] at hb
      rw [hlookup]
      rcases scope.define_eq r (.result h.schema.name) with ⟨-, hd⟩ | ⟨-, hd⟩
      · cases hd.symm.trans hb
      · cases hd.symm.trans hb
        exact ⟨rfl, fun b hb => by rw [← Option.some.inj hb]; rfl⟩

/-- Below a statement that spares them, tokens are read as they are above it. -/
theorem Spares.parse_eq (h : Spares ts us) (source source' : Excerpt) (scope : Scope) :
    (parse source' (parse source scope ts).2 us).1 = (parse source' scope us).1 := by
  obtain ⟨hscope, hadded⟩ := parse_declares source scope ts
  rw [hscope]
  refine parse_congr source' fun u hu hk => Scope.contains_append fun b hb => ?_
  exact h b.name (hadded b (Option.mem_toList.1 hb)) u hu hk

theorem Spares.bindings_eq (h : Spares ts us) (source source' : Excerpt) (scope : Scope) :
    (parse source' (parse source scope ts).2 us).2.bindings = scope.bindings ++
      (parse source scope ts).1.declared?.toList ++
        (parse source' scope us).1.declared?.toList := by
  rw [(parse_declares source' _ us).1, h.parse_eq source source' scope,
    (parse_declares source scope ts).1]

theorem parse_in_either_order (h : Spares ts us) (h' : Spares us ts) (source source' : Excerpt)
    (scope : Scope) :
    (parse source' (parse source scope ts).2 us).1 = (parse source' scope us).1 ∧
      (parse source (parse source' scope us).2 ts).1 = (parse source scope ts).1 ∧
      (parse source' (parse source scope ts).2 us).2.bindings.Perm
        (parse source (parse source' scope us).2 ts).2.bindings := by
  refine ⟨h.parse_eq source source' scope, h'.parse_eq source' source scope, ?_⟩
  rw [h.bindings_eq, h'.bindings_eq, List.append_assoc, List.append_assoc]
  exact List.perm_append_comm.append_left _

end Statement

namespace IndexedScope

/-- Statements of which neither writes the name that the other assigns to can be read in either
order, whatever has been declared before. Each becomes what it does in the other order, and so do
the bindings but for their own order. -/
theorem parse_comm (steps : List Step) {ts us : List Token} (h : Statement.Spares ts us)
    (h' : Statement.Spares us ts) (source source' : Excerpt) :
    let t := after steps
    let below := (t.parse source ts).2.parse source' us
    let above := (t.parse source' us).2.parse source ts
    below.1 = (t.parse source' us).1 ∧ above.1 = (t.parse source ts).1 ∧
      below.2.bindings.Perm above.2.bindings ∧
      Statement.parse source' (Statement.parse source t.scope ts).2 us = (below.1, below.2.scope) ∧
      Statement.parse source (Statement.parse source' t.scope us).2 ts =
        (above.1, above.2.scope) := by
  intro t below above
  have ht : t.Agrees := agrees_after steps
  have hread : ∀ source source' ts us,
      Statement.parse source' (Statement.parse source t.scope ts).2 us =
        (((t.parse source ts).2.parse source' us).1,
          ((t.parse source ts).2.parse source' us).2.scope) := by
    intro source source' ts us
    rw [ht.parse_eq]
    exact (ht.next (.parse source ts)).parse_eq source' us
  obtain ⟨hus, hts, hperm⟩ := Statement.parse_in_either_order h h' source source' t.scope
  rw [hread, ht.parse_eq] at hus hts
  rw [hread, hread] at hperm
  exact ⟨hus, hts, hperm, hread source source' ts us, hread source' source us ts⟩

/-- Two cuboids are declared in the order in which their lines are read. -/
theorem parse_comm_cuboids :
    let line : Excerpt := ⟨12, "a = Cuboid(1, 1, 1)".toList⟩
    let line' : Excerpt := ⟨32, "b = Cuboid(2, 1, 1)".toList⟩
    let ts := line.tokens.toOption.getD []
    let us := line'.tokens.toOption.getD []
    let below := (((after []).parse line ts).2.parse line' us).2
    let above := (((after []).parse line' us).2.parse line ts).2
    Statement.Spares ts us ∧ Statement.Spares us ts ∧
      below.bindings.map (·.name.val) = ["a", "b"] ∧
      above.bindings.map (·.name.val) = ["b", "a"] ∧ below.bindings.Perm above.bindings := by
  intro line line' ts us below above
  have hts : Statement.Spares ts us := by
    unfold Statement.Spares
    decide +kernel
  have hus : Statement.Spares us ts := by
    unfold Statement.Spares
    decide +kernel
  obtain ⟨-, -, hperm, hbelow, habove⟩ := parse_comm [] hts hus line line'
  refine ⟨hts, hus, ?_, ?_, hperm⟩
  · have hbindings : _ = below.bindings := congrArg (·.2.bindings) hbelow
    rw [← hbindings]
    decide +kernel
  · have hbindings : _ = above.bindings := congrArg (·.2.bindings) habove
    rw [← hbindings]
    decide +kernel

end IndexedScope

end ShapeAssembly
