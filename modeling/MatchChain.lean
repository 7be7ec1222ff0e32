import MatchChain.Text.Interner
import MatchChain.Main
import MatchChain.Proofs.Diagnostic.Books
import MatchChain.Proofs.Token.Tiling
import MatchChain.Proofs.Match.Flattening
import MatchChain.Proofs.Match.Selections
import MatchChain.Proofs.Match.NumericKeys
import MatchChain.Proofs.Code.NullSafety
import MatchChain.Proofs.Code.Selected
import MatchChain.Proofs.Code.Calling
import MatchChain.Proofs.Code.Capture
import MatchChain.Proofs.Code.OwnFrame
import MatchChain.Proofs.Code.Keys
import MatchChain.Proofs.Code.FallThrough
import MatchChain.Proofs.Code.Refinement
import MatchChain.Proofs.Code.Rerouted
import MatchChain.Proofs.Pass.Hygiene
import MatchChain.Proofs.Eval.Cycles
import MatchChain.Proofs.Pass.Stripping
import MatchChain.Proofs.Eval.ShortCircuit
import MatchChain.Proofs.Syntax.Patterns
import MatchChain.Proofs.Text.Escapes
import MatchChain.Proofs.Token.Holes
import MatchChain.Proofs.Diagnostic.Positions
import MatchChain.Proofs.Syntax.Produced
import MatchChain.Proofs.Syntax.RoundTrip
