import ShapeAssembly.Statement.Parser
import ShapeAssembly.Proofs.Validation

namespace ShapeAssembly.Statement

def targetWords : Option String → List Word
  | none => []
  | some r => [.ident r, .assign]

def words (s : Statement) : List Word :=
  targetWords (s.result.map (·.val)) ++
    .ident s.keyword.val :: Word.list (s.arguments.map (·.word))

/-- A statement that keeps no more than its keyword and its result. -/
structure IsBare (s : Statement) : Prop where
  schema : ∃ schema binding, Schema.lookup? s.keyword.val = some schema ∧
    schema.binding? = some binding
  arguments : s.arguments = []
  result : ∀ r ∈ s.result, IsIdentifier r.val

/-- A statement that reading a line can leave where these names are bound. -/
def IsReadable (names : List String) (s : Statement) : Prop := s.IsSound names ∨ s.IsBare

def binds (s : Statement) : List String :=
  if s.arguments = [] then [] else (s.result.map (·.val)).toList

theorem binds_erase (s : Statement) : s.erase.binds = s.binds := by
  simp only [binds, erase, List.map_eq_nil_iff, Option.map_map]
  rfl

theorem binds_congr {s s' : Statement} (h : s.erase = s'.erase) : s.binds = s'.binds := by
  rw [← binds_erase, h, binds_erase]

def AllReadable : List String → List Statement → Prop
  | _, [] => True
  | names, s :: rest => s.IsReadable names ∧ AllReadable (names ++ s.binds) rest

theorem IsSound.arguments_ne_nil {names : List String} {s : Statement} (h : s.IsSound names) :
    s.arguments ≠ [] := by
  obtain ⟨schema, binding, hk, hb, -, hsig⟩ := h.schema
  have hn := (Schema.signature_of_lookup hk hb hsig).1
  intro hnil
  rw [hnil] at hn
  exact hn rfl

theorem IsSound.binds {names : List String} {s : Statement} (h : s.IsSound names) :
    s.binds = (s.result.map (·.val)).toList := if_neg h.arguments_ne_nil

theorem IsBare.binds {s : Statement} (h : s.IsBare) : s.binds = [] := if_pos h.arguments

theorem IsReadable.exists_schema {names : List String} {s : Statement} (h : s.IsReadable names) :
    ∃ schema binding, Schema.lookup? s.keyword.val = some schema ∧
      schema.binding? = some binding := by
  rcases h with h | h
  · obtain ⟨schema, binding, hk, hb, -⟩ := h.schema
    exact ⟨schema, binding, hk, hb⟩
  · exact h.schema

theorem AllSound.allReadable {names : List String} {ss : List Statement}
    (h : AllSound names ss) : AllReadable names ss := by
  induction ss generalizing names with
  | nil => trivial
  | cons s ss ih =>
    refine ⟨.inl h.1, ?_⟩
    rw [h.1.binds]
    exact ih h.2

theorem IsSound.congr {names names' : List String} {s : Statement}
    (hn : ∀ x, x ∈ names ↔ x ∈ names') (h : s.IsSound names) : s.IsSound names' where
  schema := h.schema
  read := h.read
  bound a ha hk := (hn _).1 (h.bound a ha hk)
  result r hr := ⟨(h.result r hr).1, fun hmem => (h.result r hr).2 ((hn _).2 hmem)⟩

theorem IsReadable.congr {names names' : List String} {s : Statement}
    (hn : ∀ x, x ∈ names ↔ x ∈ names') (h : s.IsReadable names) : s.IsReadable names' :=
  h.imp_left (·.congr hn)

theorem mem_append_congr {names names' : List String} (hn : ∀ x, x ∈ names ↔ x ∈ names')
    (more : List String) (x : String) : x ∈ names ++ more ↔ x ∈ names' ++ more := by
  rw [List.mem_append, List.mem_append, hn]

theorem AllSound.congr {names names' : List String} (hn : ∀ x, x ∈ names ↔ x ∈ names')
    {ss : List Statement} (h : AllSound names ss) : AllSound names' ss := by
  induction ss generalizing names names' with
  | nil => trivial
  | cons s ss ih => exact ⟨h.1.congr hn, ih (mem_append_congr hn _) h.2⟩

theorem AllReadable.congr {names names' : List String} (hn : ∀ x, x ∈ names ↔ x ∈ names')
    {ss : List Statement} (h : AllReadable names ss) : AllReadable names' ss := by
  induction ss generalizing names names' with
  | nil => trivial
  | cons s ss ih => exact ⟨h.1.congr hn, ih (mem_append_congr hn _) h.2⟩

theorem readKeyword_eq_ok {t : Token} {schema : Schema} {binding : ResultBinding} :
    readKeyword t = .ok (schema, binding) ↔
      t.kind = .ident ∧ Schema.lookup? t.text = some schema ∧
        schema.binding? = some binding := by
  rw [readKeyword]
  constructor
  · intro h
    split at h
    · cases h
    · rename_i hk
      split at h
      · cases h
      · split at h
        · cases h
        · cases h
          exact ⟨by simpa using hk, ‹_›, ‹_›⟩
  · rintro ⟨hk, hl, hb⟩
    rw [if_neg (by simp [hk]), hl]
    simp only [hb]

theorem splitResult_assigned {t eq : Token} (ht : t.kind = .ident) (he : eq.kind = .eq)
    {rest : List Token} (hr : rest ≠ []) :
    splitResult (t :: eq :: rest) = .ok (some t.name, rest) := by
  rw [splitResult, if_neg (by simp [he]), if_neg (by simp [ht]), if_neg (by simpa using hr)]

theorem splitResult_plain {t next : Token} (hn : next.kind ≠ .eq) (rest : List Token) :
    splitResult (t :: next :: rest) = .ok (none, t :: next :: rest) := by
  rw [splitResult, if_pos hn]

theorem splitResult_eq_ok {ts rest : List Token} {result : Option Name}
    (h : splitResult ts = .ok (result, rest)) :
    (result = none ∧ rest = ts) ∨
      ∃ t eq, ts = t :: eq :: rest ∧ t.kind = .ident ∧ eq.kind = .eq ∧ result = some t.name := by
  match ts with
  | [] | [t] =>
    cases h
    exact .inl ⟨rfl, rfl⟩
  | t :: eq :: ts =>
    rw [splitResult] at h
    split at h
    · cases h
      exact .inl ⟨rfl, rfl⟩
    · split at h
      · cases h
      · split at h
        · cases h
        · rename_i he ht _
          cases h
          exact .inr ⟨t, eq, rfl, by simpa using ht, by simpa using he, rfl⟩

theorem readHead_eq_ok {ts call : List Token} {h : Head} :
    readHead ts = .ok (h, call) ↔
      ∃ k, splitResult ts = .ok (h.result, k :: call) ∧
        readKeyword k = .ok (h.schema, h.binding) ∧ h.keyword = k.name := by
  rw [readHead, bind_eq_ok]
  constructor
  · rintro ⟨⟨result, rest⟩, hs, hr⟩
    match rest with
    | [] => cases hr
    | k :: call' =>
      simp only [bind_eq_ok] at hr
      obtain ⟨⟨schema, binding⟩, hk, hr⟩ := hr
      cases hr
      exact ⟨k, hs, hk, rfl⟩
  · rintro ⟨k, hs, hk, hname⟩
    refine ⟨_, hs, ?_⟩
    simp only [hk, ← hname]
    rfl

/-- What a head that is read says about the tokens. -/
theorem words_of_readHead {ts call : List Token} {h : Head} (hl : ∀ t ∈ ts, t.IsLexed)
    (hr : readHead ts = .ok (h, call)) :
    ts.map Token.word =
        targetWords (h.result.map (·.val)) ++ .ident h.keyword.val :: call.map Token.word ∧
      Schema.lookup? h.keyword.val = some h.schema ∧ h.schema.binding? = some h.binding ∧
      (∀ r ∈ h.result, IsIdentifier r.val) ∧ ∀ t ∈ call, t ∈ ts := by
  obtain ⟨k, hs, hk, hname⟩ := readHead_eq_ok.1 hr
  obtain ⟨hident, hlookup, hbinding⟩ := readKeyword_eq_ok.1 hk
  have hkw : k.word = .ident h.keyword.val := by
    rw [hname, Token.word, hident]
    rfl
  rcases splitResult_eq_ok hs with ⟨hnone, rfl⟩ | ⟨t, eq, rfl, ht, he, hsome⟩
  · rw [hnone]
    refine ⟨?_, by rw [hname]; exact hlookup, hbinding, by simp,
      fun u hu => List.mem_cons_of_mem _ hu⟩
    rw [List.map_cons, hkw]
    rfl
  · have htw : t.word = .ident t.text := by
      rw [Token.word, ht]
      rfl
    have hew : eq.word = .assign := by
      rw [(hl eq (by simp)).word_eq (c := '=') (by rw [he]; rfl), he]
      rfl
    rw [hsome]
    refine ⟨?_, by rw [hname]; exact hlookup, hbinding, ?_, fun u hu => by simp [hu]⟩
    · rw [List.map_cons, List.map_cons, List.map_cons, hkw, htw, hew]
      rfl
    · intro r hr
      obtain rfl := Option.some.inj hr
      have hsp := hl t (by simp) (.inl (.inl ht))
      rwa [htw] at hsp

/-- Tokens that spell a head are read as one. -/
theorem exists_readHead {ts : List Token} {result : Option String} {keyword : String}
    {rest : List Word} {schema : Schema} {binding : ResultBinding}
    (hw : ts.map Token.word = targetWords result ++ .ident keyword :: .openParen :: rest)
    (hs : Schema.lookup? keyword = some schema) (hb : schema.binding? = some binding) :
    ∃ h call, readHead ts = .ok (h, call) ∧ call.map Token.word = .openParen :: rest ∧
      h.result.map (·.val) = result ∧ h.keyword.val = keyword ∧
      h.schema = schema ∧ h.binding = binding := by
  have hread : ∀ {k : Token}, k.word = .ident keyword → readKeyword k = .ok (schema, binding) := by
    intro k hk
    have htext : k.text = keyword := congrArg Word.text hk
    exact readKeyword_eq_ok.2 ⟨congrArg Word.kind hk, by rw [htext]; exact hs, hb⟩
  match result with
  | none =>
    match ts with
    | [] | [k] => simp [targetWords] at hw
    | k :: opening :: call =>
      simp only [targetWords, List.nil_append, List.map_cons, List.cons.injEq] at hw
      obtain ⟨hk, ho, hrest⟩ := hw
      have hne : opening.kind ≠ .eq := by
        rw [show opening.kind = .openParen from congrArg Word.kind ho]
        decide
      refine ⟨⟨none, k.name, schema, binding⟩, opening :: call,
        readHead_eq_ok.2 ⟨k, splitResult_plain hne call, hread hk, rfl⟩, ?_, rfl,
        congrArg Word.text hk, rfl, rfl⟩
      rw [List.map_cons, ho, hrest]
  | some r =>
    match ts with
    | [] | [t] | [t, eq] => simp [targetWords] at hw
    | t :: eq :: k :: call =>
      simp only [targetWords, List.cons_append, List.nil_append, List.map_cons,
        List.cons.injEq] at hw
      obtain ⟨ht, he, hk, hcall⟩ := hw
      have hsplit := splitResult_assigned (congrArg Word.kind ht) (congrArg Word.kind he)
        (List.cons_ne_nil k call)
      exact ⟨⟨some t.name, k.name, schema, binding⟩, call,
        readHead_eq_ok.2 ⟨k, hsplit, hread hk, rfl⟩, hcall, congrArg some (congrArg Word.text ht),
        congrArg Word.text hk, rfl, rfl⟩

namespace Head

theorem checkResult_eq_ok {h : Head} {scope : Scope} :
    h.checkResult scope = .ok () ↔
      ∀ r ∈ h.result, isReserved r.val = false ∧ r.val ∉ scope.names := by
  rw [checkResult]
  cases h.result with
  | none => simp
  | some r =>
    cases hr : isReserved r.val <;> by_cases hs : r.val ∈ scope.names <;>
      simp [hr, hs, Scope.contains]

theorem readArguments_eq_ok {h : Head} {source : Excerpt} {scope : Scope} {ts : List Token}
    {ys : List Argument} :
    h.readArguments source scope ts = .ok ys ↔
      ∃ call, Call.read source h.keyword.span ts = .ok call ∧
        ¬ (h.binding = .required ∧ h.result = none) ∧
        h.schema.validate call.arguments call.span scope = .ok ys ∧
        h.checkResult scope = .ok () := by
  rw [readArguments, bind_eq_ok]
  apply exists_congr
  intro call
  apply and_congr_right
  intro _
  dsimp only
  split
  · rename_i hb
    constructor
    · intro hthrow
      cases hthrow
    · intro hne
      exact absurd hb hne.1
  · rename_i hb
    rw [bind_eq_ok]
    constructor
    · rintro ⟨args, hargs, h⟩
      obtain ⟨_, hcheck, hpure⟩ := bind_eq_ok.1 h
      cases hpure
      exact ⟨hb, hargs, hcheck⟩
    · rintro ⟨-, hargs, hcheck⟩
      exact ⟨ys, hargs, bind_eq_ok.2 ⟨(), hcheck, rfl⟩⟩

theorem exists_bind {h : Head} {scope : Scope} (hc : h.checkResult scope = .ok ()) :
    ∃ scope', h.bind scope = .ok scope' := by
  rw [checkResult_eq_ok] at hc
  rw [bind]
  cases hr : h.result with
  | none => exact ⟨scope, rfl⟩
  | some r =>
    have hfresh := (hc r hr).2
    have hno : ¬ scope.contains r.val = true := by simpa [Scope.contains] using hfresh
    exact ⟨_, if_neg hno⟩

theorem names_of_bind {h : Head} {scope scope' : Scope} (hb : h.bind scope = .ok scope') :
    scope'.names = scope.names ++ (h.result.map (·.val)).toList := by
  rw [bind] at hb
  split at hb
  · rename_i hr
    cases hb
    simp [hr]
  · rename_i r hr
    rw [Scope.define] at hb
    split at hb
    · cases hb
    · cases hb
      simp [Scope.names, hr]

end Head

/-- How a statement can be read, each way with its outcome and the scope after it. -/
inductive Read (source : Excerpt) (scope : Scope) (ts : List Token) : Outcome × Scope → Prop
  | failed {fault : Fault} (h : readHead ts = .error fault) :
    Read source scope ts (.failed fault, scope)
  | incomplete {h : Head} {call : List Token} {fault : Fault} (hr : readHead ts = .ok (h, call))
      (hf : ∀ args, h.readArguments source scope call ≠ .ok args) :
    Read source scope ts
      (.incomplete ⟨h.keyword, h.result, [], Token.spanOf ts⟩ fault, scope)
  | parsed {h : Head} {call : List Token} {args : List Argument} {scope' : Scope}
      (hr : readHead ts = .ok (h, call)) (ha : h.readArguments source scope call = .ok args)
      (hb : h.bind scope = .ok scope') :
    Read source scope ts (.parsed ⟨h.keyword, h.result, args, Token.spanOf ts⟩, scope')

theorem parse_read (source : Excerpt) (scope : Scope) (ts : List Token) :
    Read source scope ts (parse source scope ts) := by
  rw [parse]
  split
  · exact .failed ‹_›
  · rename_i h call hr
    split
    · rename_i fault hf
      exact .incomplete hr fun args ha => by rw [ha] at hf; cases hf
    · rename_i args ha
      split
      · rename_i fault hf
        -- the result has been checked, so binding it cannot fail
        obtain ⟨call', -, -, -, hc⟩ := Head.readArguments_eq_ok.1 ha
        obtain ⟨scope', hb⟩ := Head.exists_bind hc
        rw [hb] at hf
        cases hf
      · exact .parsed hr ha ‹_›

/-- A statement whose arguments are read is complete, and its words are those of the line. -/
theorem sound_of_readArguments {source : Excerpt} {scope : Scope} {ts call : List Token}
    {h : Head} {args : List Argument} (hl : ∀ t ∈ ts, t.IsLexed)
    (hr : readHead ts = .ok (h, call)) (ha : h.readArguments source scope call = .ok args)
    (span : Span) :
    IsSound scope.names ⟨h.keyword, h.result, args, span⟩ ∧
      ts.map Token.word = words ⟨h.keyword, h.result, args, span⟩ := by
  obtain ⟨hw, hk, hb, hres, hmem⟩ := words_of_readHead hl hr
  obtain ⟨list, hread, hreq, hval, hcheck⟩ := Head.readArguments_eq_ok.1 ha
  obtain ⟨hlist, hsig, hargs⟩ :=
    Call.words_of_validate (fun t ht => hl t (hmem t ht)) hread hval
  rw [Head.checkResult_eq_ok] at hcheck
  refine ⟨⟨⟨h.schema, h.binding, hk, hb, ?_, hsig⟩, fun a h => (hargs a h).1, ?_, ?_⟩, ?_⟩
  · exact fun hbind hnone => hreq ⟨hbind, hnone⟩
  · exact fun a h => (RawArgument.scopeCause?_eq_none.1 (hargs a h).2).1
  · exact fun r h => ⟨⟨hres r h, (hcheck r h).1⟩, (hcheck r h).2⟩
  · rw [hw, hlist]
    rfl

/-- What is left of a statement line can stand in its scope and binds what it must. -/
theorem readable_of_parse {source : Excerpt} {scope : Scope} {ts : List Token}
    (hl : ∀ t ∈ ts, t.IsLexed) {s : Statement}
    (hs : (parse source scope ts).1.statement? = some s) :
    s.IsReadable scope.names ∧ (parse source scope ts).2.names = scope.names ++ s.binds := by
  have h := parse_read source scope ts
  generalize parse source scope ts = r at h hs
  cases h with
  | failed h => cases hs
  | incomplete hr hf =>
    cases hs
    obtain ⟨-, hk, hb, hres, -⟩ := words_of_readHead hl hr
    have hbare : IsBare ⟨_, _, [], Token.spanOf ts⟩ := ⟨⟨_, _, hk, hb⟩, rfl, hres⟩
    refine ⟨.inr hbare, ?_⟩
    rw [hbare.binds, List.append_nil]
  | parsed hr ha hb =>
    cases hs
    have hsound := (sound_of_readArguments hl hr ha (Token.spanOf ts)).1
    refine ⟨.inl hsound, ?_⟩
    rw [hsound.binds]
    exact Head.names_of_bind hb

theorem span_of_parse {source : Excerpt} {scope : Scope} {ts : List Token} {s : Statement}
    (hs : (parse source scope ts).1.statement? = some s) : s.span = Token.spanOf ts := by
  have h := parse_read source scope ts
  generalize parse source scope ts = r at h hs
  cases h with
  | failed h => cases hs
  | incomplete | parsed =>
    cases hs
    rfl

theorem scope_of_failed {source : Excerpt} {scope : Scope} {ts : List Token}
    (hs : (parse source scope ts).1.statement? = none) : (parse source scope ts).2 = scope := by
  have h := parse_read source scope ts
  generalize parse source scope ts = r at h hs
  cases h with
  | failed h => rfl
  | incomplete | parsed => cases hs

/-- A line without a fault is a complete statement. -/
theorem sound_of_parse {source : Excerpt} {scope : Scope} {ts : List Token}
    (hl : ∀ t ∈ ts, t.IsLexed) (hf : (parse source scope ts).1.fault? = none) :
    ∃ s, (parse source scope ts).1.statement? = some s ∧ s.IsSound scope.names ∧
      ts.map Token.word = s.words := by
  have h := parse_read source scope ts
  generalize parse source scope ts = r at h hf
  cases h with
  | failed | incomplete => cases hf
  | parsed hr ha hb =>
    exact ⟨_, rfl, sound_of_readArguments hl hr ha (Token.spanOf ts)⟩

theorem IsSound.scopeCause {scope : Scope} {s : Statement} (h : s.IsSound scope.names) :
    ∀ a ∈ s.arguments, RawArgument.scopeCause? scope a.raw.val a.kind = none := by
  obtain ⟨schema, binding, hk, hb, -, hsig⟩ := h.schema
  have hnew := (Schema.signature_of_lookup hk hb hsig).2
  intro a ha
  refine RawArgument.scopeCause?_eq_none.2 ⟨h.bound a ha, fun hkind => absurd ?_ hnew⟩
  rw [← hkind]
  exact List.mem_map_of_mem (f := (·.kind)) ha

/-- A line that spells a complete statement is read as it. -/
theorem exists_readArguments (source : Excerpt) {scope : Scope} {ts : List Token} {s : Statement}
    (hw : ts.map Token.word = s.words) (hs : s.IsSound scope.names) :
    ∃ h call args, readHead ts = .ok (h, call) ∧
      h.readArguments source scope call = .ok args ∧
      (⟨h.keyword, h.result, args, Token.spanOf ts⟩ : Statement).erase = s.erase := by
  obtain ⟨schema, binding, hk, hb, hreq, hsig⟩ := hs.schema
  obtain ⟨h, call, hr, hcall, hres, hkw, rfl, rfl⟩ := exists_readHead hw hk hb
  obtain ⟨list, args, hread, hval, hargs⟩ := Call.exists_validate source
    h.keyword.span scope (Schema.mem_registry hk) hcall hsig hs.read hs.scopeCause
  have hreq' : ¬ (h.binding = .required ∧ h.result = none) := by
    rintro ⟨hbind, hnone⟩
    rw [hnone] at hres
    exact hreq hbind (Option.map_eq_none_iff.1 hres.symm)
  have hcheck : h.checkResult scope = .ok () := by
    apply Head.checkResult_eq_ok.2
    intro r hmem
    have hmap : s.result.map (·.val) = some r.val := by
      rw [← hres, Option.mem_def.1 hmem]
      rfl
    obtain ⟨r', hr', hval⟩ := Option.map_eq_some_iff.1 hmap
    obtain ⟨husable, hfresh⟩ := hs.result r' hr'
    rw [← hval]
    exact ⟨husable.2, hfresh⟩
  refine ⟨h, call, args, hr, Head.readArguments_eq_ok.2 ⟨list, hread, hreq', hval, hcheck⟩, ?_⟩
  rw [erase, erase, Located.map_erase_inj.2 hres, hargs, Located.erase, hkw]
  rfl

/-- A line that spells a statement is read as it, without a fault if it is complete. -/
theorem parse_of_words (source : Excerpt) {scope : Scope} {ts : List Token} {s : Statement}
    (hl : ∀ t ∈ ts, t.IsLexed) (hw : ts.map Token.word = s.words)
    (hs : s.IsReadable scope.names) :
    ∃ s', (parse source scope ts).1.statement? = some s' ∧ s'.erase = s.erase ∧
      (s.IsSound scope.names → (parse source scope ts).1.fault? = none) := by
  have h := parse_read source scope ts
  generalize parse source scope ts = r at h
  rcases hs with hs | hs
  · obtain ⟨head, call, args, hr, ha, he⟩ := exists_readArguments source hw hs
    cases h with
    | failed hr' =>
      rw [hr] at hr'
      cases hr'
    | incomplete hr' hf =>
      rw [hr] at hr'
      cases hr'
      exact absurd ha (hf args)
    | parsed hr' ha' hb =>
      rw [hr] at hr'
      cases hr'
      rw [ha] at ha'
      cases ha'
      exact ⟨_, rfl, he, fun _ => rfl⟩
  · obtain ⟨schema, binding, hk, hb⟩ := hs.schema
    obtain ⟨head, call, hr, hcall, hres, hkw, rfl, rfl⟩ := exists_readHead hw hk hb
    cases h with
    | failed hr' =>
      rw [hr] at hr'
      cases hr'
    | incomplete hr' hf =>
      rw [hr] at hr'
      cases hr'
      refine ⟨_, rfl, ?_, fun hsound => absurd hs.arguments hsound.arguments_ne_nil⟩
      rw [erase, erase, Located.map_erase_inj.2 hres, hs.arguments, Located.erase, hkw]
      rfl
    | parsed hr' ha hb' =>
      rw [hr] at hr'
      cases hr'
      -- a statement that is complete has arguments, and a bare one spells none
      obtain ⟨hsound, hw'⟩ := sound_of_readArguments hl hr ha default
      rw [hw, words, words, hs.arguments, hres, hkw] at hw'
      have hlist := List.cons.inj (List.append_cancel_left hw')
      have hnil := Word.list_eq_list_nil hlist.2.symm
      exact absurd (List.map_eq_nil_iff.1 hnil) hsound.arguments_ne_nil

end ShapeAssembly.Statement
