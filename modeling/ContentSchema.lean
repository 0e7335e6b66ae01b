import ContentSchema.Document.ModelWriter
import ContentSchema.Document.PrimaryField
import ContentSchema.Loader
import ContentSchema.Proofs.Document.Announced
import ContentSchema.Proofs.Document.Bases
import ContentSchema.Proofs.Document.Canonical
import ContentSchema.Proofs.Document.EntryKeys
import ContentSchema.Proofs.Document.FaultPlace
import ContentSchema.Proofs.Document.Foreign
import ContentSchema.Proofs.Document.Grouping
import ContentSchema.Proofs.Document.Hoisting
import ContentSchema.Proofs.Document.KeptValues
import ContentSchema.Proofs.Document.MissingValue
import ContentSchema.Proofs.Document.RangeField
import ContentSchema.Proofs.Document.Reordered
import ContentSchema.Proofs.Document.Vocabulary
import ContentSchema.Proofs.Document.WordedModel
import ContentSchema.Proofs.Document.WrittenForm
import ContentSchema.Proofs.Field.TermText
import ContentSchema.Proofs.Field.Times
import ContentSchema.Proofs.Field.Validate
import ContentSchema.Proofs.Loader
import ContentSchema.Proofs.Markup.Balance
import ContentSchema.Proofs.Markup.Prefix
import ContentSchema.Proofs.Markup.StartLine
import ContentSchema.Proofs.Schema.MergedBases
import ContentSchema.Proofs.Schema.Views
import ContentSchema.Proofs.Vocabulary.Grammar
