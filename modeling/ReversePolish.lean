import ReversePolish.Main
import ReversePolish.Proofs.Literal.Reread
import ReversePolish.Proofs.Literal.Shaped
import ReversePolish.Proofs.Operator.PerfectSquare
import ReversePolish.Proofs.Operator.Promotion
import ReversePolish.Proofs.Session.Depth
import ReversePolish.Proofs.Session.Formatting
import ReversePolish.Proofs.Session.Locality
import ReversePolish.Proofs.Session.Narrow
import ReversePolish.Proofs.Session.Persistent
import ReversePolish.Proofs.Session.Program
import ReversePolish.Proofs.Session.Safe
import ReversePolish.Proofs.Session.Suggestion
import ReversePolish.Proofs.Terminal.Quit
import ReversePolish.Proofs.Token.Parts
import ReversePolish.Proofs.Binary64.Unpacked
import ReversePolish.Proofs.Binary64.Order
import ReversePolish.Proofs.Value.Equality
import ReversePolish.Proofs.Operator.Extreme
import ReversePolish.Proofs.Binary64.Quotient
import ReversePolish.Proofs.Operator.Inexact
import ReversePolish.Proofs.Session.Entered
import ReversePolish.Proofs.Session.Presentation
import ReversePolish.Proofs.Stack.Refinement
import ReversePolish.Proofs.Catalog.Permuted
import ReversePolish.Proofs.Completion
import ReversePolish.Proofs.Binary64.Reciprocal
import ReversePolish.Proofs.Operator.ShapedDivision
import ReversePolish.Proofs.Catalog.Categories
import ReversePolish.Proofs.Operator.Determinant
import ReversePolish.Proofs.Operator.Normalization
import ReversePolish.Proofs.Operator.VectorConversion
import ReversePolish.Proofs.Literal.Balance
