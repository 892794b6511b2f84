import DataBinding.Proofs.CachedTexts
import DataBinding.Proofs.Compilation
import DataBinding.Proofs.ComputedReads
import DataBinding.Proofs.Convergence
import DataBinding.Proofs.Divergence
import DataBinding.Proofs.EarlyStop
import DataBinding.Proofs.FaultIsolation
import DataBinding.Proofs.FreshLiterals
import DataBinding.Proofs.Injectivity
import DataBinding.Proofs.IsolatedCopies
import DataBinding.Proofs.NestedDigests
import DataBinding.Proofs.Newcomers
import DataBinding.Proofs.NormalForm
import DataBinding.Proofs.ParseErrors
import DataBinding.Proofs.Parsing
import DataBinding.Proofs.RoundTrip
import DataBinding.Proofs.SettledExpressions
import DataBinding.Proofs.SingleAssignment
import DataBinding.Proofs.StructuralEquality
