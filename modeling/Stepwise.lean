import Stepwise.Bindings
import Stepwise.Check
import Stepwise.Command
import Stepwise.Command.Flag
import Stepwise.Config.Decoding
import Stepwise.Config.Timestamp
import Stepwise.Config.Value
import Stepwise.Config.Yaml
import Stepwise.Config.Yaml.Cursor
import Stepwise.Config.Yaml.Event
import Stepwise.Config.Yaml.Input
import Stepwise.Config.Yaml.Property
import Stepwise.Config.Yaml.Scalar
import Stepwise.Config.Yaml.Scan
import Stepwise.Config.Yaml.Token
import Stepwise.Console
import Stepwise.Debugger
import Stepwise.Diagnostic
import Stepwise.Diagnostic.Excerpt
import Stepwise.Evaluation
import Stepwise.Failure
import Stepwise.File.Disk
import Stepwise.File.Path
import Stepwise.File.Tree
import Stepwise.History
import Stepwise.Host
import Stepwise.Location
import Stepwise.Main
import Stepwise.Manifest
import Stepwise.Manifest.Decode
import Stepwise.Manifest.Load
import Stepwise.Number.Binary64
import Stepwise.Number.Decimal
import Stepwise.Number.Duration
import Stepwise.Number.Literal
import Stepwise.Number.Shortest
import Stepwise.Proofs.Alarms
import Stepwise.Proofs.Coherence
import Stepwise.Proofs.Composition
import Stepwise.Proofs.Confinement
import Stepwise.Proofs.Coverage
import Stepwise.Proofs.Depth
import Stepwise.Proofs.Derivation
import Stepwise.Proofs.Descent
import Stepwise.Proofs.Endings
import Stepwise.Proofs.Equivalence
import Stepwise.Proofs.Execution
import Stepwise.Proofs.Faults
import Stepwise.Proofs.Findings
import Stepwise.Proofs.Fitting
import Stepwise.Proofs.Frames
import Stepwise.Proofs.Grammar
import Stepwise.Proofs.Indifference
import Stepwise.Proofs.Inspection
import Stepwise.Proofs.Itinerary
import Stepwise.Proofs.Keeping
import Stepwise.Proofs.Lexical
import Stepwise.Proofs.Linkage
import Stepwise.Proofs.Locality
import Stepwise.Proofs.Lockstep
import Stepwise.Proofs.Machine
import Stepwise.Proofs.Moments
import Stepwise.Proofs.Names
import Stepwise.Proofs.Patience
import Stepwise.Proofs.Position
import Stepwise.Proofs.Progress
import Stepwise.Proofs.Reading
import Stepwise.Proofs.Rollback
import Stepwise.Proofs.Sandbox
import Stepwise.Proofs.Scratch
import Stepwise.Proofs.Sessions
import Stepwise.Proofs.Shelter
import Stepwise.Proofs.Spelling
import Stepwise.Proofs.Staleness
import Stepwise.Proofs.Store
import Stepwise.Proofs.Suspension
import Stepwise.Proofs.Termination
import Stepwise.Proofs.Terms
import Stepwise.Proofs.Tracing
import Stepwise.Proofs.Unison
import Stepwise.Proofs.Unrolling
import Stepwise.Proofs.Visits
import Stepwise.Proofs.Writing
import Stepwise.Session
import Stepwise.Shape
import Stepwise.Span
import Stepwise.Stepping
import Stepwise.Store
import Stepwise.Target
import Stepwise.Text.Base64
import Stepwise.Text.Blank
import Stepwise.Text.Bytes
import Stepwise.Text.Json
import Stepwise.Text.Printable
import Stepwise.Text.Quoted
import Stepwise.Text.Utf8
import Stepwise.Token
import Stepwise.Token.Scan
import Stepwise.Tree
import Stepwise.Tree.Json
import Stepwise.Tree.Node
import Stepwise.Tree.Read
import Stepwise.Value
import Stepwise.Proofs.Certainty
import Stepwise.Proofs.Knowledge
import Stepwise.Proofs.Sites
import Stepwise.Proofs.Neighbours
import Stepwise.Proofs.Renewal
import Stepwise.Proofs.Tour
import Stepwise.Proofs.Discretion
import Stepwise.Proofs.Cutoff
import Stepwise.Proofs.Branches
import Stepwise.Proofs.Partition
import Stepwise.Proofs.Parts
import Stepwise.Proofs.Excerpts
import Stepwise.Proofs.Cancellation
import Stepwise.Proofs.StepCount
import Stepwise.Proofs.Conversion
import Stepwise.Proofs.Symbols
import Stepwise.Proofs.Underlining
import Stepwise.Proofs.Stops
import Stepwise.Proofs.Waypoints
import Stepwise.Proofs.Rules
import Stepwise.Proofs.Numerals
import Stepwise.Proofs.Tracking
import Stepwise.Proofs.Division
