import TreeScript.Analysis.Elimination
import TreeScript.Analysis.Liveness
import TreeScript.Analysis.Purity
import TreeScript.Arena.Outline
import TreeScript.Arena.Tree
import TreeScript.Build
import TreeScript.Command.Arguments
import TreeScript.Command.Run
import TreeScript.Compiler
import TreeScript.Decimal.Double
import TreeScript.Decimal.Shortest
import TreeScript.Decoding.Fields
import TreeScript.Decoding.Flaw
import TreeScript.Decoding.Program
import TreeScript.Decoding.Term
import TreeScript.Diagnostic
import TreeScript.Files.Access
import TreeScript.Files.Disk
import TreeScript.Json.Reader
import TreeScript.Json.Scalar
import TreeScript.Json.Value
import TreeScript.Main
import TreeScript.Path
import TreeScript.Proofs.Arena.Integrity
import TreeScript.Proofs.Arena.Layout
import TreeScript.Proofs.Arena.Lowering
import TreeScript.Proofs.Arena.Outline
import TreeScript.Proofs.Arena.Session
import TreeScript.Proofs.Arena.Trail
import TreeScript.Proofs.Arena.Unfolding
import TreeScript.Proofs.Build.Accounting
import TreeScript.Proofs.Build.Outputs
import TreeScript.Proofs.Command.Items
import TreeScript.Proofs.Compilation
import TreeScript.Proofs.Decimal.Rounding
import TreeScript.Proofs.Decoding.Detection
import TreeScript.Proofs.Decoding.Flaws
import TreeScript.Proofs.Decoding.Refusal
import TreeScript.Proofs.Decoding.Rendering
import TreeScript.Proofs.Decoding.RootTerm
import TreeScript.Proofs.Decoding.Shapes
import TreeScript.Proofs.Decoding.Truncation
import TreeScript.Proofs.Decoding.UnknownKinds
import TreeScript.Proofs.Elimination.Binders
import TreeScript.Proofs.Elimination.Guards
import TreeScript.Proofs.Elimination.Meaning
import TreeScript.Proofs.Elimination.Progress
import TreeScript.Proofs.Elimination.Pruning
import TreeScript.Proofs.Elimination.Report
import TreeScript.Proofs.Elimination.Thinning
import TreeScript.Proofs.Evaluation
import TreeScript.Proofs.Files.Following
import TreeScript.Proofs.Files.Laws
import TreeScript.Proofs.Json.Extension.Scalars
import TreeScript.Proofs.Json.Extension.Values
import TreeScript.Proofs.Json.Range
import TreeScript.Proofs.Json.Scalars
import TreeScript.Proofs.Json.Values
import TreeScript.Proofs.Json.Writing
import TreeScript.Proofs.Path.Components
import TreeScript.Proofs.Purity.Chains
import TreeScript.Proofs.Purity.Runs
import TreeScript.Proofs.Purity.Silence
import TreeScript.Proofs.Script.CallSites
import TreeScript.Proofs.Script.Capture
import TreeScript.Proofs.Script.Containment
import TreeScript.Proofs.Script.Grammar
import TreeScript.Proofs.Script.Identifier
import TreeScript.Proofs.Script.Legality
import TreeScript.Proofs.Script.Lexing
import TreeScript.Proofs.Script.Literals
import TreeScript.Proofs.Script.Memoization
import TreeScript.Proofs.Script.Reading
import TreeScript.Proofs.Script.Scanning
import TreeScript.Proofs.Script.Tails
import TreeScript.Proofs.Script.Tokens
import TreeScript.Proofs.Script.Translation
import TreeScript.Report.Console
import TreeScript.Report.Messages
import TreeScript.Script.Emission
import TreeScript.Script.Identifier
import TreeScript.Script.Literal
import TreeScript.Script.Support
import TreeScript.Script.Tail
import TreeScript.Settings.Basic
import TreeScript.Settings.Reading
import TreeScript.Term
import TreeScript.Text.Position
import TreeScript.Text.Quoted
import TreeScript.Text.Visible
import TreeScript.Toml.Document
import TreeScript.Toml.Scalar
import TreeScript.Toml.Value
