import TreeDelta.Json.Value
import TreeDelta.Json.Numeral
import TreeDelta.Json.Reader
import TreeDelta.Json.Writer
import TreeDelta.Text.Blank
import TreeDelta.Text.Unmarked
import TreeDelta.Text.Quoted
import TreeDelta.Text.Position
import TreeDelta.Tree.Basic
import TreeDelta.Tree.Place
import TreeDelta.Tree.Comparison
import TreeDelta.Violation
import TreeDelta.Location
import TreeDelta.Node
import TreeDelta.Exchange.Error
import TreeDelta.Exchange.Decode
import TreeDelta.Exchange.Encode
import TreeDelta.Span
import TreeDelta.Outline
import TreeDelta.Pairing
import TreeDelta.Address
import TreeDelta.Slot
import TreeDelta.Edit
import TreeDelta.Correspondence
import TreeDelta.Extraction
import TreeDelta.Alignment.Cost
import TreeDelta.Alignment.Numbering
import TreeDelta.Alignment.Table
import TreeDelta.Alignment.Distance
import TreeDelta.Alignment.Outcome
import TreeDelta.LineDiff.Script
import TreeDelta.LineDiff.Snake
import TreeDelta.LineDiff.Matching
import TreeDelta.LineDiff.Compaction
import TreeDelta.LineDiff.Hunk
import TreeDelta.LineDiff.Text
import TreeDelta.Document.Basic
import TreeDelta.Document.Surgery
import TreeDelta.Document.Editing
import TreeDelta.Proofs.Alignment.NumberedTree
import TreeDelta.Proofs.Alignment.TableEntries
import TreeDelta.Proofs.SlotDifference
import TreeDelta.Proofs.Alignment.ExactCost
import TreeDelta.Proofs.Alignment.ForestMapping
import TreeDelta.Proofs.Alignment.LeastCost
import TreeDelta.Proofs.Alignment.ForestTable
import TreeDelta.Proofs.Alignment.DistanceTable
import TreeDelta.Proofs.Alignment.TreeDistance
import TreeDelta.Proofs.Alignment.Accounts
import TreeDelta.Proofs.Alignment.Outcomes
import TreeDelta.Proofs.Pairing
import TreeDelta.Proofs.PairingRelation
import TreeDelta.Proofs.Alignment.KeptPairs
import TreeDelta.Proofs.Alignment.OrderedCorrespondence
import TreeDelta.Proofs.Alignment.CorrespondenceCost
import TreeDelta.Proofs.Alignment.Diagonal
import TreeDelta.Proofs.SharedIds
import TreeDelta.Proofs.AddressResolution
import TreeDelta.Proofs.SlotBalance
import TreeDelta.Proofs.SlotResolution
import TreeDelta.Proofs.OwnSlots
import TreeDelta.Proofs.Tree.Corresponding
import TreeDelta.Proofs.CorrespondingSlots
import TreeDelta.Proofs.EqualTrees
import TreeDelta.Proofs.MaskedContents
import TreeDelta.Proofs.EditCounts
import TreeDelta.Proofs.EarliestMatch
import TreeDelta.Proofs.ScriptOrder
import TreeDelta.Proofs.CounterpartAddresses
import TreeDelta.Proofs.RepeatedAddresses
import TreeDelta.Proofs.Document.Rows
import TreeDelta.Proofs.Document.Surgery
import TreeDelta.Proofs.Document.Lineage
import TreeDelta.Proofs.Document.Preservation
import TreeDelta.Proofs.Document.Numbered
import TreeDelta.Proofs.Document.Steps
import TreeDelta.Proofs.Document.Operations
import TreeDelta.Proofs.Document.Reachable
import TreeDelta.Proofs.Document.Refusals
import TreeDelta.Proofs.Document.Relocation
import TreeDelta.Proofs.Document.Addressed
import TreeDelta.Proofs.Document.Identified
import TreeDelta.Proofs.OneMove
import TreeDelta.Proofs.LastChildMove
import TreeDelta.Proofs.Tree.Additions
import TreeDelta.Proofs.Document.Appended
import TreeDelta.Proofs.AppendedSubtree
import TreeDelta.Proofs.Tree.TopDown
import TreeDelta.Proofs.Exchange.RoundTrip
import TreeDelta.Proofs.Json.Layout
import TreeDelta.Proofs.Json.Symbols
import TreeDelta.Proofs.Json.ReadBack
import TreeDelta.Proofs.Json.Admitted
import TreeDelta.Proofs.Exchange.Written
import TreeDelta.Proofs.Exchange.OwnFields
import TreeDelta.Proofs.Exchange.OneLevel
import TreeDelta.Proofs.Exchange.NodeObjects
import TreeDelta.Proofs.Exchange.Rewritten
import TreeDelta.Proofs.UnnamedTrees
import TreeDelta.Proofs.Document.Parents
import TreeDelta.Proofs.Document.Links
import TreeDelta.Proofs.Document.AddedChild
import TreeDelta.Proofs.Document.Replacement
import TreeDelta.Proofs.Document.ReplacedNode
import TreeDelta.Proofs.Document.TopmostRoot
import TreeDelta.Proofs.Alignment.ComposedMappings
import TreeDelta.Proofs.Alignment.FreeMappings
import TreeDelta.Proofs.Alignment.Metric
import TreeDelta.Proofs.Tree.Fingerprint
import TreeDelta.Proofs.Exchange.Refused
import TreeDelta.Proofs.Document.Copies
import TreeDelta.Proofs.LineDiff.Scripts
import TreeDelta.Proofs.LineDiff.Listing
import TreeDelta.Proofs.LineDiff.Excerpt
import TreeDelta.Proofs.LineDiff.Outlines
import TreeDelta.Proofs.RelatedPlaces
import TreeDelta.Proofs.LastingPairs
import TreeDelta.Proofs.RepeatedIds
import TreeDelta.Proofs.Span.Starts
import TreeDelta.Proofs.Tree.Around
import TreeDelta.Proofs.Document.Relabelled
import TreeDelta.Proofs.Span.Ends
import TreeDelta.Proofs.Document.FilledIds
import TreeDelta.Proofs.Text.Bytes
import TreeDelta.Proofs.Text.Lines
import TreeDelta.Proofs.Text.Positions
import TreeDelta.Proofs.Span.Slices
import TreeDelta.Proofs.Outline.Labels
import TreeDelta.Proofs.Outline.ReadBack
import TreeDelta.Proofs.Outline.Writing
import TreeDelta.Proofs.Outline.Indented
import TreeDelta.Proofs.Document.Restored
import TreeDelta.Proofs.Document.Undone
import TreeDelta.Proofs.Json.ToldApart
import TreeDelta.Proofs.EditTexts
import TreeDelta.Proofs.Document.Walks
import TreeDelta.Proofs.Alignment.LeftSiblings
import TreeDelta.Proofs.Document.FreshKeys
import TreeDelta.Proofs.Alignment.CheckedTables
import TreeDelta.Proofs.Alignment.CheckedRules
import TreeDelta.Proofs.Alignment.InPlace
import TreeDelta.Proofs.Alignment.Turns
import TreeDelta.Proofs.Alignment.Backtrace
