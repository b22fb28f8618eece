import ShapeAssembly.Block
import ShapeAssembly.ParseResult
import ShapeAssembly.Sorting

namespace ShapeAssembly

namespace Program

/-- The entry is the first block, named or not. Without a block it is empty and stands where the
text starts to have content. -/
def readBlocks (loose : List BodyLine) : List Block → Program × List Fault
  | [] =>
    let span := (loose.findSome? BodyLine.contentSpan?).getD default
    (⟨.empty ⟨span.start, span.start⟩, []⟩, [.ofStructure .missingEntry span])
  | entry :: rest =>
    let result := entry.read true []
    let (subfunctions, faults) := Block.readLater entry.opening.nameText?.toList rest
    (⟨result.definition, subfunctions⟩, result.faults ++ faults)

/-- The program of some lines, and the faults in ascending order of place. -/
def ofLines (lines : List Line) : Program × List Fault :=
  let (loose, blocks) := Block.group lines
  let (program, faults) := readBlocks loose blocks
  (program, stableSort (fun a b => a.span.start ≤ b.span.start)
    (loose.filterMap BodyLine.looseFault? ++ faults))

/-- Reads any text. Every line that is not accepted is reported. -/
def parse (text : String) : ParseResult :=
  let (program, faults) := ofLines ((Excerpt.whole text).lines.map Line.ofExcerpt)
  ⟨program, faults.map Fault.diagnostic⟩

end Program

end ShapeAssembly
