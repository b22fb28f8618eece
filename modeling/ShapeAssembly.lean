import ShapeAssembly.Json.Reader
import ShapeAssembly.Main
import ShapeAssembly.Proofs.Language
import ShapeAssembly.Proofs.RoundTrip
import ShapeAssembly.Proofs.Sections
import ShapeAssembly.Proofs.Places
import ShapeAssembly.Proofs.Contexts
import ShapeAssembly.Proofs.Reports
import ShapeAssembly.Proofs.Scoping
import ShapeAssembly.Proofs.HeaderRecognition
import ShapeAssembly.Proofs.Ordering
import ShapeAssembly.Proofs.RelocatedLines
import ShapeAssembly.Proofs.Layout
import ShapeAssembly.Proofs.Extents
import ShapeAssembly.Proofs.MissingEntry
import ShapeAssembly.Proofs.LineDiagnostics
import ShapeAssembly.Proofs.BodyStatements
import ShapeAssembly.Proofs.Appending
import ShapeAssembly.Proofs.Insertion
import ShapeAssembly.Proofs.BodyReplacement
import ShapeAssembly.Proofs.HeaderNames
import ShapeAssembly.Proofs.Slices
import ShapeAssembly.Proofs.TokenPlaces
import ShapeAssembly.Proofs.Nesting
import ShapeAssembly.Proofs.ClassSpans
import ShapeAssembly.Proofs.HighlightRanges
import ShapeAssembly.Proofs.AddedLine
import ShapeAssembly.Proofs.ReplSession
import ShapeAssembly.Proofs.CheckedProgram
import ShapeAssembly.Proofs.DiagnosticPlaces
import ShapeAssembly.Proofs.Typing
import ShapeAssembly.Proofs.RespelledLines
import ShapeAssembly.Proofs.Rounding
import ShapeAssembly.Proofs.ShortestDecimal
import ShapeAssembly.Proofs.DecimalText
import ShapeAssembly.Proofs.JsonText
import ShapeAssembly.Proofs.JsonRoundTrip
import ShapeAssembly.Proofs.Encodings
import ShapeAssembly.Proofs.Patterns
import ShapeAssembly.Proofs.MaximalMunch
import ShapeAssembly.Proofs.TokenReading
import ShapeAssembly.Proofs.WholeText
import ShapeAssembly.Proofs.StatementOutcomes
import ShapeAssembly.Proofs.IndexedScope
import ShapeAssembly.Proofs.Declarations
import ShapeAssembly.Proofs.Columns
import ShapeAssembly.Proofs.LineViews
import ShapeAssembly.Proofs.IndexedSchema
import ShapeAssembly.Proofs.ValidationOrder
import ShapeAssembly.Proofs.BalancedLists
import ShapeAssembly.Proofs.HeaderLists
import ShapeAssembly.Proofs.Commuting
import ShapeAssembly.Proofs.Identifiers
import ShapeAssembly.Proofs.NameClasses
import ShapeAssembly.Proofs.NumberLiterals
import ShapeAssembly.Proofs.LinePositions
import ShapeAssembly.Proofs.ArgumentSegments
import ShapeAssembly.Proofs.FileVerdicts
