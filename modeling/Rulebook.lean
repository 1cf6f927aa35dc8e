import Rulebook.Main
import Rulebook.Proofs.Reading
import Rulebook.Proofs.Words
import Rulebook.Proofs.Cutting
import Rulebook.Proofs.Declarations
import Rulebook.Proofs.Definitions
import Rulebook.Proofs.Language
import Rulebook.Proofs.Operands
import Rulebook.Proofs.Loading
import Rulebook.Proofs.OpenFiles
import Rulebook.Proofs.Targets
import Rulebook.Proofs.Bodies
import Rulebook.Proofs.Drawing
import Rulebook.Proofs.Names
import Rulebook.Proofs.Directory
import Rulebook.Proofs.Renumbering
import Rulebook.Proofs.Session
import Rulebook.Proofs.BuiltinGrammar
import Rulebook.Proofs.Meanings
import Rulebook.Proofs.Sharing
import Rulebook.Proofs.References
import Rulebook.Proofs.Generating
import Rulebook.Proofs.Reordering
import Rulebook.Proofs.Reprinting
import Rulebook.Proofs.Anchors
import Rulebook.Proofs.Sections
import Rulebook.Proofs.Failures
import Rulebook.Proofs.Overlays
import Rulebook.Proofs.Batches
import Rulebook.Proofs.Commands
import Rulebook.Proofs.Yield
import Rulebook.Proofs.Escapes
import Rulebook.Proofs.Quoting
import Rulebook.Proofs.Joining
import Rulebook.Proofs.Complaints
import Rulebook.Proofs.LineBreaks
import Rulebook.Proofs.Messages
import Rulebook.Proofs.HeadComments
import Rulebook.Proofs.Qualifiers
import Rulebook.Proofs.EscapedNames
import Rulebook.Proofs.Actions
import Rulebook.Proofs.Layout
import Rulebook.Proofs.FewestParentheses
import Rulebook.Proofs.Pictures
import Rulebook.Proofs.Deduplication
import Rulebook.Proofs.UsedNames
import Rulebook.Proofs.Ink
import Rulebook.Proofs.Rewriting
import Rulebook.Proofs.Pages
import Rulebook.Proofs.ShownComments
import Rulebook.Proofs.CodeBlocks
import Rulebook.Proofs.Registrations
import Rulebook.Proofs.RuleDocuments
import Rulebook.Proofs.ContentsTable
import Rulebook.Proofs.ExampleBlocks
import Rulebook.Proofs.Progress
import Rulebook.Proofs.Preorder
