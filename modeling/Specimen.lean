import Specimen.Json.Printer
import Specimen.Json.Reader
import Specimen.Random.Draw
import Specimen.Spec.Reader
import Specimen.Spec.Registry
import Specimen.Text.Blank
import Specimen.Text.CaseFold
import Specimen.Text.WordChar
import Specimen.Params
import Specimen.Counter.Conversion
import Specimen.Counter.Scope
import Specimen.Text.Alphabet
import Specimen.Text.Encoding
import Specimen.Regex.Reader
import Specimen.Regex.Writer
import Specimen.Regex.Acceptance.Checker
import Specimen.Regex.Synthesizer
import Specimen.Provider.Basic
import Specimen.Generator
import Specimen.Handler.Scripted
import Specimen.Document
import Specimen.Toml.Reader
import Specimen.Main
import Specimen.Proofs.Engine.Children
import Specimen.Proofs.Engine.Evaluator
import Specimen.Proofs.Engine.Generation
import Specimen.Proofs.Engine.Move
import Specimen.Proofs.Engine.Orderly
import Specimen.Proofs.Engine.Refinement
import Specimen.Proofs.Engine.Response
import Specimen.Proofs.Engine.Turn
import Specimen.Proofs.Record.Plan
import Specimen.Proofs.Engine.Turns
import Specimen.Proofs.Engine.Lifecycle
import Specimen.Proofs.Engine.Budget
import Specimen.Proofs.Random.Range
import Specimen.Proofs.Regex.Language
import Specimen.Proofs.Regex.WellFormed
import Specimen.Proofs.Regex.Characters
import Specimen.Proofs.Regex.Soundness
import Specimen.Proofs.Engine.Slack
import Specimen.Proofs.Random.Words
import Specimen.Proofs.Engine.Termination
import Specimen.Proofs.Engine.Conformance
import Specimen.Proofs.Engine.Transparency
import Specimen.Proofs.Handler.Leaf
import Specimen.Proofs.Spec.FromJson
import Specimen.Proofs.Spec.Alike
import Specimen.Proofs.Engine.Bisimulation
import Specimen.Proofs.Spec.Graft
import Specimen.Proofs.Random.Reach
import Specimen.Proofs.Regex.Completeness
import Specimen.Proofs.Engine.Counting
import Specimen.Proofs.Regex.RoundTrip
import Specimen.Proofs.Regex.Numbering
import Specimen.Proofs.Engine.Synonyms
import Specimen.Proofs.Regex.Memory
import Specimen.Proofs.Engine.History
import Specimen.Proofs.Counter.Numeral
import Specimen.Proofs.Engine.Certain
import Specimen.Proofs.Engine.Nesting
import Specimen.Proofs.Engine.Numbered
import Specimen.Proofs.Json.Fields
import Specimen.Proofs.Spec.Fields
import Specimen.Proofs.Spec.Sites
import Specimen.Proofs.Spec.Chains
import Specimen.Proofs.Regex.Groups
import Specimen.Proofs.Regex.Requests
import Specimen.Proofs.Command.Settings
import Specimen.Proofs.Command.Output
import Specimen.Proofs.Regex.Repetitions
import Specimen.Proofs.Regex.Verbatim
import Specimen.Proofs.Regex.Conditionals
import Specimen.Proofs.Regex.Enclosure
import Specimen.Proofs.Regex.Attempts
import Specimen.Proofs.Counter.Spelling
import Specimen.Proofs.Counter.Scan
import Specimen.Proofs.Regex.Trace
import Specimen.Proofs.Regex.Replay
import Specimen.Proofs.Regex.Account
import Specimen.Proofs.Regex.Anchors
import Specimen.Proofs.Regex.Boundaries
import Specimen.Proofs.Counter.Layout
import Specimen.Proofs.Engine.Exits
import Specimen.Proofs.Engine.Balance
import Specimen.Proofs.Engine.Dropped
import Specimen.Proofs.Decimal.Nearest
import Specimen.Proofs.Json.Integers
import Specimen.Proofs.Params
import Specimen.Proofs.Handler.Text
import Specimen.Proofs.Engine.Conditional
import Specimen.Proofs.Guarded.Engine
import Specimen.Proofs.Descent.Tree
