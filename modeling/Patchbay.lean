import Patchbay.Traced
import Patchbay.OrderedMap
import Patchbay.Double
import Patchbay.Double.Shortest
import Patchbay.Double.Layout
import Patchbay.Json.Basic
import Patchbay.Json.Writer
import Patchbay.Json.Numeral
import Patchbay.Json.Reader
import Patchbay.Diagnostic
import Patchbay.Log
import Patchbay.Document.Tag
import Patchbay.Document.Basic
import Patchbay.Document.Field
import Patchbay.Document.Format
import Patchbay.Document.Load
import Patchbay.Graph
import Patchbay.RuntimeType
import Patchbay.Destination
import Patchbay.Blueprint
import Patchbay.RuntimeNode
import Patchbay.Settings
import Patchbay.Settings.Reader
import Patchbay.Report
import Patchbay.Proofs.Routes
import Patchbay.Proofs.Delivery
import Patchbay.Proofs.Diagnosis
import Patchbay.Proofs.Strictness
import Patchbay.Proofs.Fields
import Patchbay.Proofs.RoundTrip
import Patchbay.Proofs.Layers
import Patchbay.Proofs.Seams
import Patchbay.Proofs.Grouping
import Patchbay.Proofs.Reordering
import Patchbay.Proofs.Intake
import Patchbay.Proofs.Parts
import Patchbay.Proofs.Tolerance
import Patchbay.Proofs.Frame
import Patchbay.Proofs.Renaming
import Patchbay.Proofs.EntryPoints
import Patchbay.Proofs.Spelling
import Patchbay.Proofs.Respelling
import Patchbay.Proofs.Tokens
import Patchbay.Proofs.Derivation
import Patchbay.Proofs.Nesting
import Patchbay.Proofs.Rereading
import Patchbay.Proofs.Saving
import Patchbay.Proofs.Combining
import Patchbay.Proofs.Numbering
import Patchbay.Proofs.Grounding
import Patchbay.Proofs.Silence
import Patchbay.Proofs.Regrouping
import Patchbay.Proofs.InputTypes
import Patchbay.Proofs.NodeTable
import Patchbay.Proofs.Overrides
import Patchbay.Proofs.Skipping
import Patchbay.Proofs.Switches
