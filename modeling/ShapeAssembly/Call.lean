import ShapeAssembly.RawArgument

namespace ShapeAssembly

namespace Token

/-- The tokens before the first comma outside of parentheses, and each such comma with the tokens
up to the next. A closing parenthesis without an opening one does not count. -/
def splitAtCommas : Nat → List Token → List Token × List (Token × List Token)
  | _, [] => ([], [])
  | depth, t :: ts =>
    if t.kind = .comma ∧ depth = 0 then
      let (segment, more) := splitAtCommas depth ts
      ([], (t, segment) :: more)
    else
      let depth := match t.kind with
        | .openParen => depth + 1
        | .closeParen => depth - 1
        | _ => depth
      let (segment, more) := splitAtCommas depth ts
      (t :: segment, more)

/-- The tokens inside a parenthesis that is open already, the one that closes it, and the rest. -/
def splitAtClose? : Nat → List Token → Option (List Token × Token × List Token)
  | _, [] => none
  | depth, t :: ts =>
    if t.kind = .closeParen ∧ depth = 0 then some ([], t, ts)
    else
      let depth := match t.kind with
        | .openParen => depth + 1
        | .closeParen => depth - 1
        | _ => depth
      (splitAtClose? depth ts).map fun (inner, close, rest) => (t :: inner, close, rest)

end Token

namespace RawArgument

/-- The arguments of a segment and of the segments after it. An empty segment is a fault of the
comma that ends it, the last one of the comma before it. -/
def ofSegments (source : Excerpt) (segment : List Token) :
    List (Token × List Token) → Except Fault (List RawArgument)
  | [] =>
    match segment with
    | [] => .ok []
    | t :: ts => .ok [ofTokens source t ts]
  | (comma, next) :: more =>
    match segment with
    | [] => .error (.ofSyntax .emptyArgument comma.span)
    | t :: ts =>
      if next.isEmpty ∧ more.isEmpty then .error (.ofSyntax .emptyArgument comma.span)
      else (ofTokens source t ts :: ·) <$> ofSegments source next more

/-- The arguments between the commas outside of parentheses; without a token there are none. -/
def split (source : Excerpt) (ts : List Token) : Except Fault (List RawArgument) :=
  let (segment, more) := Token.splitAtCommas 0 ts
  ofSegments source segment more

end RawArgument

/-- A parenthesised list of arguments. -/
structure Call where
  arguments : List RawArgument
  span : Span
  deriving DecidableEq

/-- Reads one balanced list that makes up all the tokens after a head. -/
def Call.read (source : Excerpt) (head : Span) : List Token → Except Fault Call
  | [] => .error (.ofSyntax .openParenMissing head)
  | t :: ts =>
    if t.kind ≠ .openParen then .error (.ofSyntax (.openParenExpected t.kind) t.span)
    else match Token.splitAtClose? 0 ts with
      | none => .error (.ofSyntax .unclosedParen (t.reach ts))
      | some (inner, close, rest) =>
        match inner.find? (·.kind = .error), rest with
        | some bad, _ => .error (.ofSyntax (.unexpected bad.kind) bad.span)
        | none, r :: rs => .error (.ofSyntax (.afterCloseParen r.kind) (r.reach rs))
        | none, [] =>
          (fun args => ⟨args, t.span.merge close.span⟩) <$> RawArgument.split source inner

end ShapeAssembly
