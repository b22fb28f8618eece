import ShapeAssembly.Grapheme.Table

namespace ShapeAssembly

/-- What decides whether a character forms one sign with its neighbours. -/
inductive GraphemeClass where
  | control
  | mark
  | spacingMark
  | joiner
  | prepended
  | pictograph
  | regional
  | consonant
  | hangulLead
  | hangulVowel
  | hangulTail
  | hangulOpen
  | hangulClosed
  | other
  deriving DecidableEq

namespace GraphemeClass

def inRanges (n : Nat) (ranges : List (Nat × Nat)) : Bool :=
  ranges.any fun (first, last) => first ≤ n && n ≤ last

/-- The class of a code point. -/
def ofCode (n : Nat) : GraphemeClass :=
  if n < 0x20 then .control
  else if n < 0x7f then .other
  else if n < 0xa0 then .control
  else if n = 0x200d then .joiner
  else if inRanges n [(0xac00, 0xd7a3)] then
    if (n - 0xac00) % 28 = 0 then .hangulOpen else .hangulClosed
  else if inRanges n [(0x1100, 0x115f), (0xa960, 0xa97c)] then .hangulLead
  else if inRanges n [(0x11a8, 0x11ff), (0xd7cb, 0xd7fb)] then .hangulTail
  else if inRanges n [(0x1f1e6, 0x1f1ff)] then .regional
  else if inRanges n Grapheme.vowelRanges then .hangulVowel
  else if inRanges n Grapheme.controlRanges then .control
  else if inRanges n Grapheme.markRanges then .mark
  else if inRanges n Grapheme.spacingMarkRanges then .spacingMark
  else if inRanges n Grapheme.prependedRanges then .prepended
  else if inRanges n Grapheme.pictographRanges then .pictograph
  else if inRanges n Grapheme.consonantRanges then .consonant
  else .other

def ofChar (c : Char) : GraphemeClass := ofCode c.toNat

end GraphemeClass

namespace Grapheme

/-- Whether the characters before a joiner, the nearest first, are an emoji with its marks. -/
def endsInPictograph (before : List Char) : Bool :=
  match before.dropWhile (GraphemeClass.ofChar · = .mark) with
  | c :: _ => GraphemeClass.ofChar c = .pictograph
  | [] => false

/-- Whether the last flag letter waits for another: two of them are one flag. -/
def endsInHalfFlag (before : List Char) : Bool :=
  (before.takeWhile (GraphemeClass.ofChar · = .regional)).length % 2 = 1

/-- Whether a consonant before this character may still form a conjunct with one after it. The
zero-width non-joiner is the one mark that prevents it. -/
def isConjunctMark (c : Char) : Bool :=
  match GraphemeClass.ofChar c with
  | .mark => c.toNat ≠ 0x200c
  | .joiner => true
  | _ => false

/-- Whether the characters, the nearest first, are a consonant and a linker among its marks. -/
def endsInLinked (before : List Char) : Bool :=
  (before.takeWhile isConjunctMark).any (linkers.contains ·.toNat) &&
    match before.dropWhile isConjunctMark with
    | c :: _ => GraphemeClass.ofChar c = .consonant
    | [] => false

/-- Whether a character belongs to the sign before it, of which the last character comes first. -/
def joins (c : Char) : List Char → Bool
  | [] => false
  | b :: before =>
    match GraphemeClass.ofChar b, GraphemeClass.ofChar c with
    | .control, _ => b = '\r' ∧ c = '\n'
    | _, .control => false
    | _, .mark | _, .spacingMark | _, .joiner => true
    | .prepended, _ => true
    | .hangulLead, .hangulLead | .hangulLead, .hangulVowel => true
    | .hangulLead, .hangulOpen | .hangulLead, .hangulClosed => true
    | .hangulOpen, .hangulVowel | .hangulOpen, .hangulTail => true
    | .hangulVowel, .hangulVowel | .hangulVowel, .hangulTail => true
    | .hangulClosed, .hangulTail | .hangulTail, .hangulTail => true
    | .joiner, .pictograph => endsInPictograph before
    | .regional, .regional => endsInHalfFlag (b :: before)
    | _, .consonant => endsInLinked (b :: before)
    | _, _ => false

/-- The signs of a text after a sign that has begun, of which the last character comes first. -/
def splitAfter (sign : List Char) : List Char → List (List Char)
  | [] => [sign.reverse]
  | c :: cs => if joins c sign then splitAfter (c :: sign) cs else sign.reverse :: splitAfter [c] cs

/-- The signs that a reader sees in a text: its extended grapheme clusters. -/
def split : List Char → List (List Char)
  | [] => []
  | c :: cs => splitAfter [c] cs

end Grapheme

end ShapeAssembly
