import ShapeAssembly.Proofs.Ordering
import ShapeAssembly.Proofs.Reports

namespace ShapeAssembly

/-- Whether a diagnostic is the one of a text without a header. -/
def Diagnostic.isMissingEntry (d : Diagnostic) : Bool :=
  d.code = .structural && d.message = StructureFault.missingEntry.message

namespace Fault

def inOrder (fs : List Fault) : List Fault :=
  stableSort (fun a b => a.span.start ≤ b.span.start) fs

theorem inOrder_append {fs gs : List Fault}
    (h : ∀ f ∈ fs, ∀ g ∈ gs, f.span.start ≤ g.span.start) :
    inOrder (fs ++ gs) = inOrder fs ++ inOrder gs :=
  stableSort_append fun f hf g hg => decide_eq_true (h f hf g hg)

theorem start_total (a b : Fault) :
    decide (a.span.start ≤ b.span.start) ∨ decide (b.span.start ≤ a.span.start) := by
  simpa only [decide_eq_true_eq] using Nat.le_total _ _

theorem start_trans (a b c : Fault) : decide (a.span.start ≤ b.span.start) →
    decide (b.span.start ≤ c.span.start) → decide (a.span.start ≤ c.span.start) := by
  simpa only [decide_eq_true_eq] using Nat.le_trans

theorem pairwise_inOrder (fs : List Fault) :
    (inOrder fs).Pairwise fun a b => a.span.start ≤ b.span.start :=
  (pairwise_stableSort start_total start_trans fs).imp of_decide_eq_true

theorem filter_inOrder (p : Fault → Bool) (fs : List Fault) :
    (inOrder fs).filter p = inOrder (fs.filter p) :=
  filter_stableSort start_total start_trans p fs

theorem mem_inOrder {f : Fault} {fs : List Fault} : f ∈ inOrder fs ↔ f ∈ fs :=
  (stableSort_perm _ fs).mem_iff

/-- A fault that has nothing to do with the division into blocks. -/
def IsPlain (f : Fault) : Prop := f.code ≠ .structural

theorem IsPlain.isMissingEntry {f : Fault} (h : f.IsPlain) :
    f.diagnostic.isMissingEntry = false := by
  rw [Diagnostic.isMissingEntry, Bool.and_eq_false_iff]
  exact .inl (decide_eq_false h)

theorem isPlain_syntax (s : SyntaxFault) (span : Span) : (ofSyntax s span).IsPlain := by
  intro h
  cases h

end Fault

section

variable {source : Excerpt} {scope : Scope}

namespace RawArgument

theorem isPlain_ofSegments (segment : List Token) (more : List (Token × List Token)) :
    Ends (ofSegments source segment more) (fun _ => True) Fault.IsPlain := by
  induction more generalizing segment with
  | nil => cases segment <;> trivial
  | cons p more ih =>
    obtain ⟨comma, next⟩ := p
    cases segment with
    | nil => exact Fault.isPlain_syntax _ _
    | cons t ts =>
      rw [ofSegments]
      split
      · exact Fault.isPlain_syntax _ _
      · exact (ih next).map fun _ _ => trivial

theorem code_of_scopeCause? {name : String} {kind : Kind} {cause : Cause}
    (h : scopeCause? scope name kind = some cause) : cause.code ≠ .structural := by
  cases kind with
  | existingVariable | newVariable =>
    rw [scopeCause?] at h
    split at h <;> cases h
    exact fun hc => by cases hc
  | float | bool | axis | face | identifier => cases h

theorem isPlain_coerce (keyword : String) (position : Nat) (kind : Kind) (a : RawArgument) :
    Ends (a.coerce keyword position kind scope) (fun _ => True) Fault.IsPlain := by
  rw [coerce]
  split
  · exact fun h => by cases h
  · split
    · rename_i cause hc
      exact code_of_scopeCause? hc
    · trivial

theorem isPlain_coerceFrom (keyword : String) (position : Nat) (as : List RawArgument)
    (kinds : Signature) :
    Ends (coerceFrom keyword position scope as kinds) (fun _ => True) Fault.IsPlain := by
  induction as generalizing position kinds with
  | nil => trivial
  | cons a as ih =>
    cases kinds with
    | nil => trivial
    | cons kind kinds =>
      rw [coerceFrom]
      exact (isPlain_coerce keyword position kind a).bind fun _ _ =>
        (ih (position + 1) kinds).bind fun _ _ => trivial

end RawArgument

theorem Call.isPlain_read (head : Span) (ts : List Token) :
    Ends (read source head ts) (fun _ => True) Fault.IsPlain := by
  cases ts with
  | nil => exact Fault.isPlain_syntax _ _
  | cons t ts =>
    rw [read]
    split
    · exact Fault.isPlain_syntax _ _
    · split
      · exact Fault.isPlain_syntax _ _
      · split
        · exact Fault.isPlain_syntax _ _
        · exact Fault.isPlain_syntax _ _
        · exact (RawArgument.isPlain_ofSegments _ _).map fun _ _ => trivial

theorem Schema.isPlain_validate (schema : Schema) (args : List RawArgument) (list : Span) :
    Ends (schema.validate args list scope) (fun _ => True) Fault.IsPlain := by
  rw [validate]
  split
  · exact RawArgument.isPlain_coerceFrom _ _ _ _
  · exact fun h => by cases h

namespace Statement

theorem Head.isPlain_checkResult (h : Head) :
    Ends (h.checkResult scope) (fun _ => True) Fault.IsPlain := by
  rw [checkResult]
  split
  · trivial
  · split
    · exact fun h => by cases h
    · split
      · exact fun h => by cases h
      · trivial

theorem Head.isPlain_readArguments (h : Head) (ts : List Token) :
    Ends (h.readArguments source scope ts) (fun _ => True) Fault.IsPlain := by
  rw [readArguments]
  apply (Call.isPlain_read _ ts).bind
  intro call _
  dsimp only
  split
  · exact Fault.isPlain_syntax _ _
  · exact (Schema.isPlain_validate _ _ _).bind fun _ _ =>
      h.isPlain_checkResult.bind fun _ _ => trivial

theorem isPlain_splitResult (ts : List Token) :
    Ends (splitResult ts) (fun _ => True) Fault.IsPlain := by
  match ts with
  | [] | [t] => trivial
  | t :: eq :: rest =>
    rw [splitResult]
    split
    · trivial
    · split
      · exact Fault.isPlain_syntax _ _
      · split
        · exact Fault.isPlain_syntax _ _
        · trivial

/-- No keyword is missing an entry. -/
theorem headerKeyword_message_ne (keyword : String) :
    (StructureFault.headerKeyword keyword).message ≠ StructureFault.missingEntry.message := by
  intro h
  have hhead := congrArg (·.toList.head?) h
  simp [StructureFault.message, toString] at hhead

theorem isMissingEntry_readHead (ts : List Token) :
    Ends (readHead ts) (fun _ => True) fun f => f.diagnostic.isMissingEntry = false := by
  rw [readHead]
  have hsplit : Ends (splitResult ts) (fun _ => True) fun f =>
      f.diagnostic.isMissingEntry = false := by
    have h := isPlain_splitResult ts
    cases hs : splitResult ts with
    | error f => exact (h.fault hs).isMissingEntry
    | ok p => trivial
  apply hsplit.bind
  rintro ⟨result, rest⟩ -
  cases rest with
  | nil => exact (Fault.isPlain_syntax _ _).isMissingEntry
  | cons k call =>
    have hk : Ends (readKeyword k) (fun _ => True) fun f =>
        f.diagnostic.isMissingEntry = false := by
      rw [readKeyword]
      split
      · exact (Fault.isPlain_syntax _ _).isMissingEntry
      · split
        · rfl
        · split
          · rw [Ends, Diagnostic.isMissingEntry, Bool.and_eq_false_iff]
            exact .inr (decide_eq_false (headerKeyword_message_ne _))
          · trivial
    exact hk.bind fun _ _ => trivial

theorem isMissingEntry_of_parse {ts : List Token} {f : Fault}
    (hf : (parse source scope ts).1.fault? = some f) : f.diagnostic.isMissingEntry = false := by
  rw [parse] at hf
  split at hf
  · rename_i e he
    cases hf
    exact (isMissingEntry_readHead ts).fault he
  · rename_i head call _
    split at hf
    · rename_i e he
      cases hf
      exact ((head.isPlain_readArguments call).fault he).isMissingEntry
    · rename_i args ha
      obtain ⟨-, -, -, -, hcheck⟩ := Head.readArguments_eq_ok.1 ha
      obtain ⟨scope', hb⟩ := Head.exists_bind hcheck
      rw [hb] at hf
      cases hf

end Statement

theorem Header.isPlain_readParameters (h : Header) :
    Ends (h.readParameters source) (fun _ => True) Fault.IsPlain := by
  rw [readParameters]
  exact (Call.isPlain_read _ _).bind fun _ _ =>
    (Schema.isPlain_validate _ _ _).bind fun _ _ => trivial

theorem Header.isMissingEntry_of_nameFault? {h : Header} {isEntry : Bool} {earlier : List String}
    {f : Fault} (hf : h.nameFault? isEntry earlier = some f) :
    f.diagnostic.isMissingEntry = false := by
  rw [nameFault?] at hf
  split at hf
  · split at hf
    · cases hf
      rfl
    · split at hf
      · cases hf
        rfl
      · cases hf
  · split at hf
    · cases hf
    · cases hf
      rfl

end

/-- No line reports that the entry is missing. -/
theorem IsReport.isMissingEntry {before : List Excerpt} {line : Excerpt} {report : List Fault}
    (h : IsReport before line report) : ∀ f ∈ report, f.diagnostic.isMissingEntry = false := by
  intro f hf
  cases h with
  | unreadable | loose =>
    obtain rfl := List.mem_singleton.1 hf
    rfl
  | blank => cases hf
  | statement => exact Statement.isMissingEntry_of_parse (Option.mem_toList.1 hf)
  | @header h hh =>
    rw [List.mem_append, List.mem_append] at hf
    rcases hf with (hf | hf) | hf
    · exact Header.isMissingEntry_of_nameFault? (Option.mem_toList.1 hf)
    · have hf := Option.mem_toList.1 hf
      rw [Header.listFault?] at hf
      split at hf
      · cases hf
      · rename_i hr
        cases hf
        exact (h.isPlain_readParameters.fault hr).isMissingEntry
    · obtain ⟨n, -, rfl⟩ := List.mem_map.1 hf
      rfl

theorem Reports.exists_isReport {before lines : List Excerpt} {reports : List (List Fault)}
    (h : Reports before lines reports) {f : Fault} (hf : f ∈ reports.flatten) :
    ∃ earlier, ∃ line ∈ lines, ∃ report, IsReport earlier line report ∧ f ∈ report := by
  induction h with
  | nil => cases hf
  | @cons before lines line report reports h hin hs ih =>
    rw [List.flatten_cons, List.mem_append] at hf
    rcases hf with hf | hf
    · exact ⟨before, line, List.mem_cons_self, report, h, hf⟩
    · obtain ⟨earlier, l, hl, report, h, hf⟩ := ih hf
      exact ⟨earlier, l, List.mem_cons_of_mem line hl, report, h, hf⟩

theorem Reports.of_mem {before lines : List Excerpt} {reports : List (List Fault)}
    (h : Reports before lines reports) {f : Fault} (hf : f ∈ reports.flatten) :
    (∃ line ∈ lines, f.span.Within line.span) ∧ f.diagnostic.isMissingEntry = false := by
  obtain ⟨earlier, line, hl, report, h, hf⟩ := h.exists_isReport hf
  exact ⟨⟨line, hl, h.within f hf⟩, h.isMissingEntry f hf⟩

def Context.diagnostics (c : Context) (lines : List Excerpt) : List Diagnostic :=
  (Fault.inOrder (c.reports (lines.map Line.ofExcerpt)).flatten).map Fault.diagnostic

namespace Program

/-- The diagnostics are those of the lines and that of a missing entry, in the order of their
places. -/
theorem diagnostics_parse (text : String) :
    let lines := (Excerpt.whole text).lines
    (parse text).diagnostics =
      (Fault.inOrder (((Context.after []).reports (lines.map Line.ofExcerpt)).flatten ++
        missingEntry lines)).map Fault.diagnostic := by
  have h : (parse text).diagnostics =
      (ofLines ((Excerpt.whole text).lines.map Line.ofExcerpt)).2.map Fault.diagnostic := rfl
  rw [h, faults_ofLines]
  rfl

/-- The missing entry aside, the diagnostics are those of the lines. -/
theorem filter_diagnostics (text : String) :
    (parse text).diagnostics.filter (!·.isMissingEntry) =
      (Context.after []).diagnostics (Excerpt.whole text).lines := by
  have hlines : ∀ f ∈ ((Context.after []).reports
      ((Excerpt.whole text).lines.map Line.ofExcerpt)).flatten, !f.diagnostic.isMissingEntry := by
    intro f hf
    rw [((reports_after [] _).of_mem hf).2]
    rfl
  have hentry : (missingEntry (Excerpt.whole text).lines).filter (!·.diagnostic.isMissingEntry) =
      [] := by
    rw [missingEntry]
    split <;> rfl
  rw [diagnostics_parse, List.filter_map, Function.comp_def, Fault.filter_inOrder,
    List.filter_append, List.filter_eq_self.2 hlines, hentry, List.append_nil]
  rfl

theorem diagnostics_of_header {text : String}
    (h : ∃ line ∈ (Excerpt.whole text).lines, line.isHeader) :
    (parse text).diagnostics = (Context.after []).diagnostics (Excerpt.whole text).lines := by
  have hentry : missingEntry (Excerpt.whole text).lines = [] :=
    if_pos (List.any_eq_true.2 h)
  rw [diagnostics_parse, hentry, List.append_nil]
  rfl

end Program

end ShapeAssembly
