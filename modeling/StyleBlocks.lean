import StyleBlocks.Location.Agreement
import StyleBlocks.Document.Edit
import StyleBlocks.Main
import StyleBlocks.Proofs.Block.ContentRecovery
import StyleBlocks.Proofs.Block.HoleToken
import StyleBlocks.Proofs.Block.Lookups
import StyleBlocks.Proofs.Block.Placement
import StyleBlocks.Proofs.Checked.Documents
import StyleBlocks.Proofs.Document.ChangedText
import StyleBlocks.Proofs.Document.CommentedHoles
import StyleBlocks.Proofs.Document.EditedText
import StyleBlocks.Proofs.Document.EscapedFragments
import StyleBlocks.Proofs.Document.Expressions
import StyleBlocks.Proofs.Document.Fates
import StyleBlocks.Proofs.Document.HostAccount
import StyleBlocks.Proofs.Document.InsertedPlaceholders
import StyleBlocks.Proofs.Document.NodeRanges
import StyleBlocks.Proofs.Document.RoundTrip
import StyleBlocks.Proofs.Location.ByteCount
import StyleBlocks.Proofs.Rendering.OutlineTrees
import StyleBlocks.Proofs.Sheet.Boundaries
import StyleBlocks.Proofs.Sheet.Brackets
import StyleBlocks.Proofs.Sheet.BuiltSheets
import StyleBlocks.Proofs.Sheet.DialectOrder
import StyleBlocks.Proofs.Sheet.Lossless
import StyleBlocks.Proofs.Sheet.QuotedAddress
import StyleBlocks.Proofs.Sheet.Removal
import StyleBlocks.Proofs.Template.CallArguments
import StyleBlocks.Proofs.Template.EscapeClosure
import StyleBlocks.Proofs.Template.LeadingComments
import StyleBlocks.Proofs.Template.NextStatement
import StyleBlocks.Proofs.Template.ReadBack
import StyleBlocks.Proofs.Template.TypeArguments
