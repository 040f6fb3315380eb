import SparsePoly.Binary64.Bits
import SparsePoly.Poly.Arithmetic
import SparsePoly.Poly.Dense
import SparsePoly.Poly.Eval
import SparsePoly.Proofs.Coefficients
import SparsePoly.Proofs.DenseRows
import SparsePoly.Proofs.Incremental
import SparsePoly.Proofs.IntegerValues
import SparsePoly.Proofs.LimitedSinks
import SparsePoly.Proofs.Malformed
import SparsePoly.Proofs.Monomials
import SparsePoly.Proofs.Monotone
import SparsePoly.Proofs.NormalForm
import SparsePoly.Proofs.OperandOrder
import SparsePoly.Proofs.OppositeInfinities
import SparsePoly.Proofs.OppositeTexts
import SparsePoly.Proofs.Overflow
import SparsePoly.Proofs.Persistence
import SparsePoly.Proofs.Products
import SparsePoly.Proofs.Reflection
import SparsePoly.Proofs.RoundTrip
import SparsePoly.Proofs.RunningSums
import SparsePoly.Proofs.Sessions
import SparsePoly.Proofs.TokenRows
import SparsePoly.Proofs.UnitPoints
import SparsePoly.Storage.File
import SparsePoly.Proofs.ScratchSpace
