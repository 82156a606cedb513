import SecureArith.Double.Decimal
import SecureArith.Double.Text
import SecureArith.Json.Reader
import SecureArith.Json.Writer
import SecureArith.Json.Decoder
import SecureArith.Operator
import SecureArith.Program.Text
import SecureArith.Description.Lowering
import SecureArith.Expr.Tree
import SecureArith.Journal
import SecureArith.Expr.Typing
import SecureArith.Forest.Basic
import SecureArith.Expr.Build
import SecureArith.Pass.Factoring
import SecureArith.Pass.Power
import SecureArith.Pass.Priority
import SecureArith.Pass.Emission
import SecureArith.Encoding.Encode
import SecureArith.Encoding.Decode
import SecureArith.Optimizer
import SecureArith.Main
import SecureArith.Proofs.Ends
import SecureArith.Proofs.Span
import SecureArith.Proofs.WellFormed
import SecureArith.Proofs.Meaning.Program
import SecureArith.Proofs.Meaning.Tree
import SecureArith.Proofs.Meaning.Leaves
import SecureArith.Proofs.Copy
import SecureArith.Proofs.Typing
import SecureArith.Proofs.Ends.Work
import SecureArith.Proofs.Build
import SecureArith.Proofs.Expansion
import SecureArith.Proofs.Graft
import SecureArith.Proofs.Typing.Leading
import SecureArith.Proofs.Power
import SecureArith.Proofs.Power.Exactness
import SecureArith.Proofs.Factoring
import SecureArith.Proofs.Priority
import SecureArith.Proofs.Priority.Fixpoint
import SecureArith.Proofs.Priority.Pairing
import SecureArith.Proofs.Priority.Rearrangement
import SecureArith.Proofs.Linking
import SecureArith.Proofs.Emission
import SecureArith.Proofs.Emission.Faithful
import SecureArith.Proofs.Registry
import SecureArith.Proofs.Minimize
import SecureArith.Proofs.Lowering
import SecureArith.Proofs.Lowering.Independence
import SecureArith.Proofs.Lowering.Faithful
import SecureArith.Proofs.Preservation
import SecureArith.Proofs.Dispatch
import SecureArith.Proofs.Coherence
import SecureArith.Proofs.Series
import SecureArith.Proofs.Encode
import SecureArith.Proofs.Unfolding
import SecureArith.Proofs.RoundTrip
import SecureArith.Proofs.Planted
import SecureArith.Proofs.Ownership
import SecureArith.Proofs.Arboreal
import SecureArith.Proofs.Copy.Disjoint
import SecureArith.Proofs.Expansion.Substitution
import SecureArith.Proofs.Traversal
import SecureArith.Proofs.MatrixChain
import SecureArith.Proofs.Meaning.Chain
import SecureArith.Proofs.Atomicity
import SecureArith.Proofs.Alike
import SecureArith.Proofs.Renaming
import SecureArith.Proofs.Renaming.Passes
import SecureArith.Proofs.Renaming.Program
import SecureArith.Proofs.Renaming.Chain
import SecureArith.Proofs.MatrixChain.Exhaustion
import SecureArith.Proofs.Renaming.Function
import SecureArith.Proofs.Renaming.Text
import SecureArith.Proofs.Renaming.Halfway
import SecureArith.Proofs.Verdict
import SecureArith.Proofs.Isolation
import SecureArith.Proofs.Safety
import SecureArith.Proofs.Refusal
import SecureArith.Proofs.Meaning.Outline
import SecureArith.Proofs.Factoring.Normal
import SecureArith.Proofs.Factoring.Saving
import SecureArith.Proofs.Equality
import SecureArith.Proofs.Factoring.Pairs
import SecureArith.Proofs.Factoring.Profit
import SecureArith.Proofs.Remaking
import SecureArith.Proofs.Multiplications
import SecureArith.Proofs.Stationary
import SecureArith.Proofs.Retention
import SecureArith.Proofs.Serving
import SecureArith.Proofs.Repetition
import SecureArith.Proofs.Numbering
import SecureArith.Proofs.Decoding
import SecureArith.Proofs.Json.Reading
import SecureArith.Proofs.OutputFormat
import SecureArith.Proofs.Persistence
