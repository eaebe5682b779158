import RequestDoc.Document.Shift
import RequestDoc.Grammar.Definition
import RequestDoc.Lexeme.Run
import RequestDoc.Number.Shortest.Layout
import RequestDoc.Parse
import RequestDoc.Text.Nesting
import RequestDoc.Value.Contents
import RequestDoc.Value.Members.Lemmas
import RequestDoc.Value.Printer
import RequestDoc.Proofs.Cursor.Reads
import RequestDoc.Proofs.Lexeme.Exact
import RequestDoc.Proofs.Rule.Ahead
import RequestDoc.Proofs.Text.Brackets
import RequestDoc.Proofs.Text.Settled
import RequestDoc.Proofs.Text.Slice
import RequestDoc.Proofs.Text.Bytes
import RequestDoc.Proofs.Number.Bytes
import RequestDoc.Proofs.Number.Expression
import RequestDoc.Proofs.Number.Longest
import RequestDoc.Proofs.Text.Decoder
import RequestDoc.Proofs.Text.Faults
import RequestDoc.Proofs.Cursor.Bytes
import RequestDoc.Proofs.Lexeme.Bytes
import RequestDoc.Proofs.Lexeme.Number
import RequestDoc.Proofs.Lexeme.Name
import RequestDoc.Proofs.Lexeme.Quoted
import RequestDoc.Proofs.Rule.First
import RequestDoc.Proofs.Rule.Rounds
import RequestDoc.Proofs.Rule.Levels
import RequestDoc.Proofs.Rule.First.Grammar
import RequestDoc.Proofs.Parse.Progress
import RequestDoc.Proofs.Error.Merge
import RequestDoc.Proofs.Error.Sequence
import RequestDoc.Proofs.Rule.Reorder
import RequestDoc.Proofs.Parse.Order
import RequestDoc.Proofs.Cursor.Sound
import RequestDoc.Proofs.Cursor.Session
import RequestDoc.Proofs.Cursor.Placement
import RequestDoc.Proofs.Rule.Dispatch
import RequestDoc.Proofs.Rule.Commit.Grammar
import RequestDoc.Proofs.Rule.Carries
import RequestDoc.Proofs.Rule.Carries.Grammar
import RequestDoc.Proofs.Rule.Nests
import RequestDoc.Proofs.Rule.Script
import RequestDoc.Proofs.Parse.Backtracking
import RequestDoc.Proofs.Parse.Depth
import RequestDoc.Proofs.Parse.Sound
import RequestDoc.Proofs.Parse.ReadBack
import RequestDoc.Proofs.Literal.Sound
import RequestDoc.Proofs.Literal.Complete
import RequestDoc.Proofs.Literal.Exact
import RequestDoc.Proofs.Literal.Contents
import RequestDoc.Proofs.TypeRef.Exact
import RequestDoc.Proofs.Document.Sound
import RequestDoc.Proofs.Document.Complete
import RequestDoc.Proofs.Document.Exact
import RequestDoc.Proofs.Document.Append
import RequestDoc.Proofs.Value.Printed
import RequestDoc.Proofs.Value.RoundTrip
import RequestDoc.Proofs.Value.Equality
import RequestDoc.Proofs.Value.Unambiguous
import RequestDoc.Proofs.Value.History
import RequestDoc.Proofs.Document.Places
import RequestDoc.Proofs.Document.Brackets
import RequestDoc.Proofs.Document.Log
import RequestDoc.Proofs.Rule.Exceeds
import RequestDoc.Proofs.Document.Pieces
import RequestDoc.Proofs.Rule.Viable
import RequestDoc.Proofs.Literal.Viable
import RequestDoc.Proofs.Document.Viable
import RequestDoc.Proofs.Parse.Viable
import RequestDoc.Proofs.Literal.Demand
import RequestDoc.Proofs.TypeRef.Demand
import RequestDoc.Proofs.Document.Demand
import RequestDoc.Proofs.Rule.Dropped
import RequestDoc.Proofs.Parse.Expected
