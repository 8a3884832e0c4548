import ExplicitNull.FileSystem.Edit
import ExplicitNull.Main
import ExplicitNull.Proofs.ExactPatch
import ExplicitNull.Proofs.InsertionQueue
import ExplicitNull.Proofs.Settling
import ExplicitNull.Proofs.Restoring
import ExplicitNull.Proofs.Characters
import ExplicitNull.Proofs.MarkedTypes
import ExplicitNull.Proofs.Attributes
import ExplicitNull.Proofs.CommentedTypes
import ExplicitNull.Proofs.Untouched
import ExplicitNull.Proofs.Requests
import ExplicitNull.Proofs.Outcomes
import ExplicitNull.Proofs.Survival
import ExplicitNull.Proofs.Previews
import ExplicitNull.Proofs.UnionParts
import ExplicitNull.Proofs.Parts
import ExplicitNull.Proofs.SecondRuns
import ExplicitNull.Proofs.ScanReports
import ExplicitNull.Proofs.Occurrences
import ExplicitNull.Proofs.Separators
import ExplicitNull.Proofs.QuotedStrings
import ExplicitNull.Proofs.Heredocs
import ExplicitNull.Proofs.CodeSections
import ExplicitNull.Proofs.Bystanders
import ExplicitNull.Proofs.BackupFailures
import ExplicitNull.Proofs.ValidatedSettings
import ExplicitNull.Proofs.Extensions
import ExplicitNull.Proofs.JsonReports
