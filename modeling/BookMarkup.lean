import BookMarkup.Publisher.Publish
import BookMarkup.Proofs.Rule.Failure
import BookMarkup.Proofs.Rule.Conservation
import BookMarkup.Proofs.Document.RoundTrip
import BookMarkup.Proofs.Rule.CodeBlock
import BookMarkup.Proofs.Rule.Stages
import BookMarkup.Proofs.Rule.Schema
import BookMarkup.Proofs.Rule.LooseContent
import BookMarkup.Proofs.Document.Reads
import BookMarkup.Proofs.Publisher.Intake
import BookMarkup.Proofs.Publisher.Standalone
import BookMarkup.Proofs.Document.CharacterData
import BookMarkup.Proofs.Document.Acceptance
import BookMarkup.Proofs.Publisher.Stability
import BookMarkup.Proofs.Rule.Idempotent
import BookMarkup.Proofs.Rule.Labels
import BookMarkup.Proofs.Rule.Encased
import BookMarkup.Proofs.Rule.Prefaced
import BookMarkup.Proofs.Rule.Attached
import BookMarkup.Proofs.Rule.Promoted
import BookMarkup.Proofs.Rule.Relieved
import BookMarkup.Proofs.Rule.Announced
import BookMarkup.Proofs.Rule.Condensed
import BookMarkup.Proofs.Rule.Purged
import BookMarkup.Proofs.Rule.Retagged
import BookMarkup.Proofs.Tree.Removal
import BookMarkup.Proofs.Tree.Renamed
import BookMarkup.Proofs.Tree.Relocated
import BookMarkup.Proofs.Tree.Refused
import BookMarkup.Proofs.Document.Spaced
import BookMarkup.Proofs.Document.Numbered
import BookMarkup.Proofs.Document.Outlined
import BookMarkup.Proofs.Text.Reference
import BookMarkup.Proofs.Document.References
import BookMarkup.Proofs.Document.Same
import BookMarkup.Proofs.Publisher.Framed
import BookMarkup.Proofs.Tree.Traversal
import BookMarkup.Proofs.Selector
import BookMarkup.Proofs.Publisher.Akin
