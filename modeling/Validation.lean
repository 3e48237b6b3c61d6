import Validation.Catalog.Builtin
import Validation.Criterion.Labelled
import Validation.Outline.Schema
import Validation.Json.Config
import Validation.Json.Value
import Validation.Session
import Validation.Proofs.Compile.Siblings
import Validation.Proofs.Compile.Counters
import Validation.Proofs.Engine.Delegation
import Validation.Proofs.Engine.Modes
import Validation.Proofs.Path.Located
import Validation.Proofs.Interning.History
import Validation.Proofs.Descent.Evaluation
import Validation.Proofs.Tour.Cover
import Validation.Proofs.Declared.Blind
import Validation.Proofs.Interning.Instances
import Validation.Proofs.Checks
import Validation.Proofs.Applicability
import Validation.Proofs.Engine.Coherence
import Validation.Proofs.Delivery
import Validation.Proofs.Interning.Replay
import Validation.Proofs.Engine.Requests
import Validation.Proofs.Simplified.Normal
import Validation.Proofs.Messages
import Validation.Proofs.Projections
import Validation.Proofs.Simplified.Composition
import Validation.Proofs.Simplified.Lifting
import Validation.Proofs.Verdict.Numbers
import Validation.Proofs.Declared.Optional
import Validation.Proofs.Template
import Validation.Proofs.Resolution
import Validation.Proofs.Declared.Placement
import Validation.Proofs.Declared.Effective
import Validation.Proofs.Declared.Depth
import Validation.Proofs.Declared.Locations
import Validation.Proofs.Domain.Integers
import Validation.Proofs.Range
import Validation.Proofs.Card.Checked
import Validation.Proofs.Card.Detection
import Validation.Proofs.Compile.Aggregate
import Validation.Proofs.Compile.Shapes
import Validation.Proofs.Json.Integers
import Validation.Proofs.Verdict.Widths
