import SettingsOverlay.Fallible
import SettingsOverlay.Text.Utf8
import SettingsOverlay.Text.ControlSequence
import SettingsOverlay.Keyed
import SettingsOverlay.Json.Number
import SettingsOverlay.Json.Value
import SettingsOverlay.Json.Equality
import SettingsOverlay.Json.Fault
import SettingsOverlay.Json.Reader.Number
import SettingsOverlay.Json.Reader.Quoted
import SettingsOverlay.Json.Reader.Basic
import SettingsOverlay.Json.Reader.Array
import SettingsOverlay.Json.Reader.WrappedNumber
import SettingsOverlay.Json.Reader.Object
import SettingsOverlay.Json.Reader.Value
import SettingsOverlay.Json.Layout
import SettingsOverlay.Document
import SettingsOverlay.Disk.Path
import SettingsOverlay.Disk.Fault
import SettingsOverlay.Disk.Tree
import SettingsOverlay.Disk.Resolution
import SettingsOverlay.Log
import SettingsOverlay.Notice
import SettingsOverlay.Host
import SettingsOverlay.Files
import SettingsOverlay.Passed
import SettingsOverlay.Overlay
import SettingsOverlay.Arguments
import SettingsOverlay.Command
import SettingsOverlay.Main
import SettingsOverlay.Proofs.Text.Utf8
import SettingsOverlay.Proofs.Json.Grammar
import SettingsOverlay.Proofs.Json.Strings
import SettingsOverlay.Proofs.Json.Numbers
import SettingsOverlay.Proofs.Json.Completeness
import SettingsOverlay.Proofs.Json.Soundness
import SettingsOverlay.Proofs.Json.Locality
import SettingsOverlay.Proofs.Json.Stages
import SettingsOverlay.Proofs.Json.Uniqueness
import SettingsOverlay.Proofs.Json.Objects
import SettingsOverlay.Proofs.Json.Canonical
import SettingsOverlay.Proofs.Json.Writing
import SettingsOverlay.Proofs.Document
import SettingsOverlay.Proofs.Document.Joining
import SettingsOverlay.Proofs.Json.Addresses
import SettingsOverlay.Proofs.Json.Brackets
import SettingsOverlay.Proofs.Json.Depth
import SettingsOverlay.Proofs.Json.Layout
import SettingsOverlay.Proofs.Json.Equality
import SettingsOverlay.Proofs.Document.Equality
import SettingsOverlay.Proofs.Document.Depth
import SettingsOverlay.Proofs.Document.Blocks
import SettingsOverlay.Proofs.Json.Sources
import SettingsOverlay.Proofs.Json.Literals
import SettingsOverlay.Proofs.Json.Decimals
import SettingsOverlay.Proofs.Document.Numbers
import SettingsOverlay.Proofs.Document.Values
import SettingsOverlay.Proofs.Document.Positions
import SettingsOverlay.Proofs.Disk.Growth
import SettingsOverlay.Proofs.Disk.Operations
import SettingsOverlay.Proofs.Disk.Parents
import SettingsOverlay.Proofs.Files
import SettingsOverlay.Proofs.Files.Writing
import SettingsOverlay.Proofs.Disk.Presence
import SettingsOverlay.Proofs.Disk.Descent
import SettingsOverlay.Proofs.Files.Parents
import SettingsOverlay.Proofs.Overlay
import SettingsOverlay.Proofs.Overlay.Failure
import SettingsOverlay.Proofs.Overlay.Refusal
import SettingsOverlay.Proofs.Overlay.Repetition
import SettingsOverlay.Proofs.Overlay.Succession
import SettingsOverlay.Proofs.Overlay.Journal
import SettingsOverlay.Proofs.Overlay.Indifference
import SettingsOverlay.Proofs.Overlay.Preservation
import SettingsOverlay.Proofs.Overlay.Spelling
import SettingsOverlay.Proofs.Log
import SettingsOverlay.Proofs.Report
import SettingsOverlay.Proofs.Command
import SettingsOverlay.Proofs.Session
import SettingsOverlay.Proofs.Arguments
import SettingsOverlay.Proofs.Terminal
import SettingsOverlay.Proofs.Command.Presentation
