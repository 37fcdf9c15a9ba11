import EventCuts.Command.Options
import EventCuts.Command.Run
import EventCuts.Compile
import EventCuts.Description
import EventCuts.Expr.Basic
import EventCuts.Expr.Name
import EventCuts.Json.Number
import EventCuts.Json.Reader
import EventCuts.Json.Writer
import EventCuts.Kind
import EventCuts.Lexeme
import EventCuts.Log
import EventCuts.Main
import EventCuts.NameTable
import EventCuts.Number.Decimal
import EventCuts.Number.Exact
import EventCuts.Number.Format
import EventCuts.Number.Literal
import EventCuts.Number.Reading
import EventCuts.Operator
import EventCuts.ParseError
import EventCuts.Record.Basic
import EventCuts.Reduction
import EventCuts.Schema
import EventCuts.Session
import EventCuts.Text.Blank
import EventCuts.Text.Printable
import EventCuts.Text.Quoted
import EventCuts.Token
import EventCuts.Value
import EventCuts.Proofs.Grammar
import EventCuts.Proofs.Outcome
import EventCuts.Proofs.Coherence
import EventCuts.Proofs.Soundness
import EventCuts.Proofs.Completeness
import EventCuts.Proofs.Acceptance
import EventCuts.Proofs.Meaning
import EventCuts.Proofs.Lexing
import EventCuts.Proofs.Agreement
import EventCuts.Proofs.Inlining
import EventCuts.Proofs.Floats
import EventCuts.Proofs.Numerals
import EventCuts.Proofs.Lifting
import EventCuts.Proofs.Sessions
import EventCuts.Proofs.Alike
import EventCuts.Proofs.Bytes
import EventCuts.Proofs.Guards
import EventCuts.Proofs.Decimals
import EventCuts.Proofs.FloatTexts
import EventCuts.Proofs.Names
import EventCuts.Proofs.Munch
import EventCuts.Proofs.Provenance
import EventCuts.Proofs.Reach
import EventCuts.Proofs.Reporting
import EventCuts.Proofs.Brackets
import EventCuts.Proofs.Refusals
import EventCuts.Proofs.Rewriting
import EventCuts.Proofs.SourceTexts
import EventCuts.Proofs.Pieces
import EventCuts.Proofs.Blame
import EventCuts.Proofs.Blocks
import EventCuts.Proofs.Spacing
import EventCuts.Proofs.FileNames
import EventCuts.Proofs.Locality
import EventCuts.Proofs.Duality
import EventCuts.Proofs.Composition
import EventCuts.Proofs.Spelling
import EventCuts.Proofs.Readings
import EventCuts.Proofs.Patterns
import EventCuts.Proofs.Conversion
import EventCuts.Proofs.Positions
import EventCuts.Proofs.Unions
import EventCuts.Proofs.Matching
import EventCuts.Proofs.Positional
