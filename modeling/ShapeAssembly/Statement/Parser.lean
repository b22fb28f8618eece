import ShapeAssembly.Call

namespace ShapeAssembly

/-- What became of the tokens of a statement. Without a known keyword it has failed; a statement
with a keyword is incomplete, and keeps no argument, if anything else in it is wrong. -/
inductive Outcome where
  | parsed (statement : Statement)
  | incomplete (statement : Statement) (fault : Fault)
  | failed (fault : Fault)
  deriving DecidableEq

namespace Outcome

def statement? : Outcome → Option Statement
  | parsed s => some s
  | incomplete s _ => some s
  | failed _ => none

def fault? : Outcome → Option Fault
  | parsed _ => none
  | incomplete _ f => some f
  | failed f => some f

end Outcome

namespace Statement

/-- What stands before the list of arguments. -/
structure Head where
  result : Option Name
  keyword : Name
  schema : Schema
  binding : ResultBinding
  deriving DecidableEq

/-- The assigned name, if there is one, and the tokens after it and its equals sign. -/
def splitResult : List Token → Except Fault (Option Name × List Token)
  | t :: eq :: rest =>
    if eq.kind ≠ .eq then .ok (none, t :: eq :: rest)
    else if t.kind ≠ .ident then .error (.ofSyntax .resultExpected t.span)
    else if rest.isEmpty then .error (.ofSyntax .keywordMissing eq.span)
    else .ok (some t.name, rest)
  | ts => .ok (none, ts)

/-- The schema of a keyword that may start a statement. -/
def readKeyword (t : Token) : Except Fault (Schema × ResultBinding) :=
  if t.kind ≠ .ident then .error (.ofSyntax (.keywordExpected t.kind) t.span)
  else match Schema.lookup? t.text with
    | none => .error ⟨.unknownKeyword t.text, t.span⟩
    | some schema =>
      match schema.binding? with
      | none => .error (.ofStructure (.headerKeyword schema.name) t.span)
      | some binding => .ok (schema, binding)

/-- The head of a statement and the tokens after it. -/
def readHead (ts : List Token) : Except Fault (Head × List Token) := do
  let (result, rest) ← splitResult ts
  match rest with
  | [] => throw (.ofSyntax .emptyStatement default)
  | k :: call =>
    let (schema, binding) ← readKeyword k
    return (⟨result, k.name, schema, binding⟩, call)

namespace Head

/-- The result of a statement is a fresh name that is not reserved. -/
def checkResult (h : Head) (scope : Scope) : Except Fault Unit :=
  match h.result with
  | none => .ok ()
  | some r =>
    if isReserved r.val then .error ⟨.invalidName .newVariable r.val, r.span⟩
    else if scope.contains r.val then .error ⟨.duplicateDefinition r.val, r.span⟩
    else .ok ()

def readArguments (h : Head) (source : Excerpt) (scope : Scope) (ts : List Token) :
    Except Fault (List Argument) := do
  let call ← Call.read source h.keyword.span ts
  if h.binding = .required ∧ h.result = none then
    throw (.ofSyntax (.resultRequired h.schema.name) h.keyword.span)
  let args ← h.schema.validate call.arguments call.span scope
  h.checkResult scope
  return args

def bind (h : Head) (scope : Scope) : Except Fault Scope :=
  match h.result with
  | none => .ok scope
  | some r => scope.define r (.result h.schema.name)

end Head

/-- Reads the tokens of one statement. Only a parsed statement binds its result. -/
def parse (source : Excerpt) (scope : Scope) (ts : List Token) : Outcome × Scope :=
  match readHead ts with
  | .error fault => (.failed fault, scope)
  | .ok (head, call) =>
    let statement args : Statement := ⟨head.keyword, head.result, args, Token.spanOf ts⟩
    match head.readArguments source scope call with
    | .error fault => (.incomplete (statement []) fault, scope)
    | .ok args =>
      match head.bind scope with
      | .error fault => (.incomplete (statement []) fault, scope)
      | .ok scope' => (.parsed (statement args), scope')

end Statement

end ShapeAssembly
