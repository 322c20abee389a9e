import Realign.Text.Class
import Realign.Text.Cut
import Realign.Table
import Realign.Json.Number
import Realign.Json.Value
import Realign.Json.Printer
import Realign.Json.Reader
import Realign.Version.Split
import Realign.Version.Basic
import Realign.Version.Osgi
import Realign.Version.Suffix
import Realign.Coordinate
import Realign.WildcardTable
import Realign.Relocation
import Realign.Target
import Realign.Policy
import Realign.Property.Placeholder
import Realign.Document
import Realign.Policy.Document
import Realign.Module
import Realign.Module.Document
import Realign.Forest
import Realign.Property.Resolution
import Realign.Property.Declaration
import Realign.Alignment.Strict
import Realign.Alignment.Error
import Realign.Property.Update
import Realign.Alignment.Ledger
import Realign.Alignment.Proposal
import Realign.Alignment.Walk
import Realign.Alignment.Pass
import Realign.Alignment.Journal
import Realign.Report
import Realign.Session
import Realign.CommandLine.Arguments
import Realign.CommandLine.FilePath
import Realign.CommandLine.Program
import Realign.CommandLine.FileTree
import Realign.Main
import Realign.Proofs.Table
import Realign.Proofs.Text
import Realign.Proofs.WildcardTable
import Realign.Proofs.Version.Scan
import Realign.Proofs.Version.Numbers
import Realign.Proofs.Version.Suffix
import Realign.Proofs.Version.OsgiForm
import Realign.Proofs.Version.Stamped
import Realign.Proofs.Alignment.Compatibility
import Realign.Proofs.Forest.Entry
import Realign.Proofs.Forest.Change
import Realign.Proofs.Property.Lookup
import Realign.Proofs.Property.Unfolding
import Realign.Proofs.Property.Nesting
import Realign.Proofs.Property.Reference
import Realign.Proofs.Property.Revision
import Realign.Proofs.Alignment.Ledger
import Realign.Proofs.Alignment.Walk
import Realign.Proofs.Alignment.Proposal
import Realign.Proofs.Alignment.Wishes
import Realign.Proofs.Alignment.Clash
import Realign.Proofs.Forest.Slots
import Realign.Proofs.Forest.Frame
import Realign.Proofs.Forest.Enumeration
import Realign.Proofs.Forest.Ancestry
import Realign.Proofs.Forest.Admission
import Realign.Proofs.Alignment.Preparation
import Realign.Proofs.Alignment.CarryOut
import Realign.Proofs.Alignment.Run
import Realign.Proofs.Alignment.Frame
import Realign.Proofs.Alignment.Slots
import Realign.Proofs.Alignment.Injection
import Realign.Proofs.Alignment.Strictness
import Realign.Proofs.Alignment.Delivery
import Realign.Proofs.Alignment.Changes
import Realign.Proofs.Alignment.Verification
import Realign.Proofs.Alignment.Alike
import Realign.Proofs.Alignment.Rest
import Realign.Proofs.Alignment.Completion
import Realign.Proofs.Alignment.Repetition
import Realign.Proofs.Alignment.Record
import Realign.Proofs.Property.Agreement
import Realign.Proofs.Property.Update
import Realign.Proofs.Alignment.Exclusion
import Realign.Proofs.Relocation
import Realign.Proofs.Report.Lineage
import Realign.Proofs.Report.Unchanged
import Realign.Proofs.Report.Relocation
import Realign.Proofs.Document
import Realign.Proofs.Module.Document
import Realign.Proofs.Property.Landing
import Realign.Proofs.Alignment.Viewpoint
import Realign.Proofs.Alignment.Fault
import Realign.Proofs.Alignment.History
import Realign.Proofs.Property.Reading
import Realign.Proofs.Property.Settlement
import Realign.Proofs.Version.Layout
import Realign.Proofs.Version.Numeral
import Realign.Proofs.Version.Release
import Realign.Proofs.Version.Bare
import Realign.Proofs.Version.Qualifier
import Realign.Proofs.Version.BuildNumber
import Realign.Proofs.Version.Appending
import Realign.Proofs.Version.Decomposition
import Realign.Proofs.Alignment.Acceptance
import Realign.Proofs.Alignment.Succession
import Realign.Proofs.Alignment.Marker
