import NestedData.Access.Assign
import NestedData.Access.Edit
import NestedData.Access.Erase
import NestedData.Access.Error
import NestedData.Access.Select
import NestedData.Access.Visit
import NestedData.Binary64.Basic
import NestedData.Binary64.Rounding
import NestedData.Comparison
import NestedData.Decimal.Layout
import NestedData.Decimal.Numeral
import NestedData.Decimal.Shortest
import NestedData.Entries
import NestedData.Error
import NestedData.Json.Reader
import NestedData.Json.Token
import NestedData.Json.Tree
import NestedData.Json.Writer
import NestedData.Kind
import NestedData.Location
import NestedData.Path.Basic
import NestedData.Path.Error
import NestedData.Path.Parser
import NestedData.Path.Render
import NestedData.Path.Slice
import NestedData.Path.Split
import NestedData.Proofs.Access.Assigning
import NestedData.Proofs.Access.Commuting
import NestedData.Proofs.Access.Conforming
import NestedData.Proofs.Access.Deletions
import NestedData.Proofs.Access.Editing
import NestedData.Proofs.Access.Erasing
import NestedData.Proofs.Access.Faults
import NestedData.Proofs.Access.Growing
import NestedData.Proofs.Access.Idle
import NestedData.Proofs.Access.Matching
import NestedData.Proofs.Access.Moving
import NestedData.Proofs.Access.Nesting
import NestedData.Proofs.Access.Obstacles
import NestedData.Proofs.Access.Overlapping
import NestedData.Proofs.Access.PutGet
import NestedData.Proofs.Access.ReadOnly
import NestedData.Proofs.Access.Reassigning
import NestedData.Proofs.Access.Repeating
import NestedData.Proofs.Access.Reselection
import NestedData.Proofs.Access.Resolving
import NestedData.Proofs.Access.Revisiting
import NestedData.Proofs.Access.Room
import NestedData.Proofs.Access.Searching
import NestedData.Proofs.Access.Selecting
import NestedData.Proofs.Access.Settling
import NestedData.Proofs.Access.Sought
import NestedData.Proofs.Access.Sparing
import NestedData.Proofs.Access.Stopping
import NestedData.Proofs.Access.Surviving
import NestedData.Proofs.Access.Untouched
import NestedData.Proofs.Access.Upholding
import NestedData.Proofs.Access.Vacating
import NestedData.Proofs.Access.Visits
import NestedData.Proofs.Binary64.Integers
import NestedData.Proofs.Binary64.Ratios
import NestedData.Proofs.Comparison.Laws
import NestedData.Proofs.Comparison.Nearness
import NestedData.Proofs.Decimal.ReadBack
import NestedData.Proofs.Json.Cutting
import NestedData.Proofs.Json.Documents
import NestedData.Proofs.Json.Numbers
import NestedData.Proofs.Json.RoundTrip
import NestedData.Proofs.Json.Trees
import NestedData.Proofs.Outcome
import NestedData.Proofs.Path.Canonical
import NestedData.Proofs.Path.Derivation
import NestedData.Proofs.Path.RoundTrip
import NestedData.Proofs.Path.Selectors
import NestedData.Proofs.Path.SliceWords
import NestedData.Proofs.Path.Splitting
import NestedData.Proofs.Schema.Acceptance
import NestedData.Proofs.Schema.DeclaredKeys
import NestedData.Proofs.Schema.Decoding
import NestedData.Proofs.Schema.Describing
import NestedData.Proofs.Schema.Everywhere
import NestedData.Proofs.Schema.Idempotence
import NestedData.Proofs.Schema.Integers
import NestedData.Proofs.Schema.KeptEntries
import NestedData.Proofs.Schema.Locating
import NestedData.Proofs.Schema.Shapes
import NestedData.Proofs.Schema.Soundness
import NestedData.Proofs.Schema.Tolerance
import NestedData.Proofs.Schema.UnionNames
import NestedData.Proofs.Schema.Validity
import NestedData.Proofs.Schema.ZeroValues
import NestedData.Proofs.Text.Numbers
import NestedData.Proofs.Text.Spellings
import NestedData.Proofs.Value.Assembly
import NestedData.Proofs.Value.Bulk
import NestedData.Proofs.Value.Places
import NestedData.Proofs.Value.Pruning
import NestedData.Proofs.Value.Rebuild
import NestedData.Proofs.Value.Repruning
import NestedData.Proofs.Value.WellFormed
import NestedData.Proofs.Views.HiddenFields
import NestedData.Proofs.Views.References
import NestedData.Record
import NestedData.Schema.Basic
import NestedData.Schema.Coercion
import NestedData.Schema.Conversion
import NestedData.Schema.Description
import NestedData.Schema.Error
import NestedData.Schema.Lookup
import NestedData.Schema.Node
import NestedData.Schema.Shaping
import NestedData.Schema.Union
import NestedData.Schema.Validation
import NestedData.Schema.Zero
import NestedData.Sequence
import NestedData.Text.Blank
import NestedData.Text.Integer
import NestedData.Text.Letter
import NestedData.Text.Truth
import NestedData.Value.Basic
import NestedData.Value.Conversion
import NestedData.Value.Display
import NestedData.Value.Document
import NestedData.Value.Error
import NestedData.Value.Identity
import NestedData.Value.Zero
