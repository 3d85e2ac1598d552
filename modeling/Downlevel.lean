import Downlevel.Main
import Downlevel.Proofs.Arrow.Settled
import Downlevel.Proofs.Block.Writes
import Downlevel.Proofs.Emit.LineComments
import Downlevel.Proofs.Emit.Once
import Downlevel.Proofs.Expression.RoundTrip
import Downlevel.Proofs.Expression.StringLiteral
import Downlevel.Proofs.Flow.Preservation
import Downlevel.Proofs.Lower.Concatenation
import Downlevel.Proofs.Lower.DefaultBinding
import Downlevel.Proofs.Lower.SuperWrite
import Downlevel.Proofs.Marks.Pass
import Downlevel.Proofs.Scope.Records
import Downlevel.Proofs.Session.History
import Downlevel.Proofs.Settled.Block
import Downlevel.Proofs.Settled.Count
