import SymbolicAlgebra.Expr.Walk
import SymbolicAlgebra.Main
import SymbolicAlgebra.Proofs.Canonical.Idempotent
import SymbolicAlgebra.Proofs.Canonical.Reordered
import SymbolicAlgebra.Proofs.Exact.Canonical
import SymbolicAlgebra.Proofs.ParseTree.Language
import SymbolicAlgebra.Proofs.Decimal.Numeral
import SymbolicAlgebra.Proofs.Scalar.Signed
import SymbolicAlgebra.Proofs.Scalar.Text
import SymbolicAlgebra.Proofs.Grammar.Expression
import SymbolicAlgebra.Proofs.Grammar.First
import SymbolicAlgebra.Proofs.Grammar.Follow
import SymbolicAlgebra.Proofs.Grammar.Predictive
import SymbolicAlgebra.Proofs.ParseTree.Entries
import SymbolicAlgebra.Proofs.ParseTree.Faithful
import SymbolicAlgebra.Proofs.Token.Lexer
import SymbolicAlgebra.Proofs.Canonical.Recovered
import SymbolicAlgebra.Proofs.Canonical.RoundTrip
import SymbolicAlgebra.Proofs.Expr.Depth
import SymbolicAlgebra.Proofs.Derivative.Basic
import SymbolicAlgebra.Proofs.ParseTree.Blame
import SymbolicAlgebra.Proofs.Canonical.Variables
import SymbolicAlgebra.Proofs.Canonical.Monotone
import SymbolicAlgebra.Proofs.Canonical.Slope
import SymbolicAlgebra.Proofs.Canonical.Terminates
import SymbolicAlgebra.Proofs.Expr.Equality
import SymbolicAlgebra.Proofs.Expr.Interchangeable
import SymbolicAlgebra.Proofs.Token.Munch
import SymbolicAlgebra.Proofs.Expr.Accepted
import SymbolicAlgebra.Proofs.Expr.Layout
import SymbolicAlgebra.Proofs.Grammar.Layout
import SymbolicAlgebra.Proofs.Reduction.Collapsed
import SymbolicAlgebra.Proofs.Expr.Undefined
import SymbolicAlgebra.Proofs.Exclusion.Preserved
import SymbolicAlgebra.Proofs.Canonical.Finite
import SymbolicAlgebra.Proofs.Reduction.Zeroless
import SymbolicAlgebra.Proofs.Exclusion.Idempotent
import SymbolicAlgebra.Proofs.Scalar.Rational
import SymbolicAlgebra.Proofs.Derivative.Denominators
import SymbolicAlgebra.Proofs.Derivative.Ends
import SymbolicAlgebra.Proofs.Derivative.Products
import SymbolicAlgebra.Proofs.Reduction.Denominators
import SymbolicAlgebra.Proofs.Reduction.Noted
import SymbolicAlgebra.Proofs.Reduction.Silent
import SymbolicAlgebra.Proofs.Session.Located
import SymbolicAlgebra.Proofs.Expr.Walk
import SymbolicAlgebra.Proofs.Expr.Negation
