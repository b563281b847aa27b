import Scim.Error
import Scim.Error.Report
import Scim.Filter
import Scim.Filter.Build
import Scim.Filter.Compare
import Scim.Filter.Evaluate
import Scim.Filter.Parse
import Scim.Filter.Render
import Scim.Filter.Same
import Scim.Flag
import Scim.Instant
import Scim.Json
import Scim.Json.Copy
import Scim.Json.Field
import Scim.Json.InLine
import Scim.Json.Location
import Scim.Json.Object
import Scim.Json.Parse
import Scim.Json.Same
import Scim.Log
import Scim.Log.Entry
import Scim.Number
import Scim.Number.Numeral
import Scim.Number.Shortest
import Scim.Options
import Scim.Options.Check
import Scim.Options.Environment
import Scim.Patch.Apply
import Scim.Patch.Journal
import Scim.Patch.Member
import Scim.Patch.Operation
import Scim.Patch.Request
import Scim.Patch.Wire
import Scim.Path.Parse
import Scim.Path.Resolve
import Scim.Path.Target
import Scim.Proofs.Filter.Anchored
import Scim.Proofs.Filter.Coherent
import Scim.Proofs.Filter.Congruence
import Scim.Proofs.Filter.Containment
import Scim.Proofs.Filter.Grammar
import Scim.Proofs.Filter.LetterCase
import Scim.Proofs.Filter.Parse
import Scim.Proofs.Filter.Same
import Scim.Proofs.Filter.Unassigned
import Scim.Proofs.Filter.Written
import Scim.Proofs.Instant.Calendar
import Scim.Proofs.Instant.Format
import Scim.Proofs.Instant.LetterCase
import Scim.Proofs.Instant.Order
import Scim.Proofs.Instant.Written
import Scim.Proofs.Json.Field
import Scim.Proofs.Json.Inside
import Scim.Proofs.Json.Local
import Scim.Proofs.Json.Same
import Scim.Proofs.Json.SameOn
import Scim.Proofs.Json.Sorted
import Scim.Proofs.Json.Unambiguous
import Scim.Proofs.Number.Digits
import Scim.Proofs.Number.Layout
import Scim.Proofs.Number.Nearest
import Scim.Proofs.Number.Numeral
import Scim.Proofs.Number.Rounding
import Scim.Proofs.Number.Shortest
import Scim.Proofs.Options.Unit
import Scim.Proofs.Patch.Absorbed
import Scim.Proofs.Patch.Accepted
import Scim.Proofs.Patch.Additive
import Scim.Proofs.Patch.Addressing
import Scim.Proofs.Patch.Along
import Scim.Proofs.Patch.Booked
import Scim.Proofs.Patch.Bookkeeping
import Scim.Proofs.Patch.Changes
import Scim.Proofs.Patch.CoreSchema
import Scim.Proofs.Patch.Elementwise
import Scim.Proofs.Patch.Failure
import Scim.Proofs.Patch.Idempotent
import Scim.Proofs.Patch.Independent
import Scim.Proofs.Patch.ListedMembers
import Scim.Proofs.Patch.Listing
import Scim.Proofs.Patch.MemberList
import Scim.Proofs.Patch.MemberOrder
import Scim.Proofs.Patch.Members
import Scim.Proofs.Patch.Message
import Scim.Proofs.Patch.ReadBack
import Scim.Proofs.Patch.Refused
import Scim.Proofs.Patch.Rejected
import Scim.Proofs.Patch.Removal
import Scim.Proofs.Patch.Repeated
import Scim.Proofs.Patch.ReplacedTwice
import Scim.Proofs.Patch.Reserved
import Scim.Proofs.Patch.SelectedAdd
import Scim.Proofs.Patch.Settled
import Scim.Proofs.Patch.Unambiguous
import Scim.Proofs.Patch.Wire
import Scim.Proofs.Patch.WriteOrder
import Scim.Proofs.Patch.WrittenTwice
import Scim.Proofs.Path.Addressed
import Scim.Proofs.Path.Anchored
import Scim.Proofs.Path.Bracket
import Scim.Proofs.Path.Candidates
import Scim.Proofs.Path.Created
import Scim.Proofs.Path.Extended
import Scim.Proofs.Path.Parse
import Scim.Proofs.Path.Selection
import Scim.Proofs.Path.Target
import Scim.Proofs.Path.Walk
import Scim.Proofs.Path.Word
import Scim.Proofs.Path.Written
import Scim.Proofs.Text.Blank
import Scim.Proofs.Text.LetterCase
import Scim.Proofs.Text.LowerCase
import Scim.Proofs.Text.Lowering
import Scim.Proofs.Text.Pieces
import Scim.Proofs.Text.Quoted
import Scim.Proofs.Text.Split
import Scim.Proofs.Token.Anchored
import Scim.Proofs.Token.Extended
import Scim.Proofs.Token.Integer
import Scim.Proofs.Token.LetterCase
import Scim.Proofs.Token.Lossless
import Scim.Proofs.Token.Range
import Scim.Proofs.Token.Scan
import Scim.Proofs.Token.Spelled
import Scim.Proofs.Token.Tiling
import Scim.Proofs.Token.Written
import Scim.Resource
import Scim.Schema
import Scim.Schema.Root
import Scim.Shape
import Scim.Syntax.Fault
import Scim.Text
import Scim.Text.Blank
import Scim.Text.Letter
import Scim.Text.LowerCase
import Scim.Text.Quoted
import Scim.Text.UpperCase
import Scim.Token
