import DeskScript.Main
import DeskScript.Proofs.Syntax.Phrase
import DeskScript.Proofs.Token.Tiling
import DeskScript.Proofs.Syntax.PhraseTokens
import DeskScript.Proofs.Machine.Attended
import DeskScript.Proofs.Machine.Halting
import DeskScript.Proofs.Machine.Liveness
import DeskScript.Proofs.Machine.Signals
import DeskScript.Proofs.Machine.Starvation
import DeskScript.Proofs.Syntax.Giving
import DeskScript.Proofs.Syntax.PhraseChain
import DeskScript.Proofs.Syntax.RoundTrip
import DeskScript.Proofs.Machine.Atomicity
import DeskScript.Proofs.Machine.Stopping
import DeskScript.Proofs.Machine.Dealings
import DeskScript.Proofs.Machine.Orderly
import DeskScript.Proofs.Machine.Mailing
import DeskScript.Proofs.Machine.Joining
import DeskScript.Proofs.Machine.Delivery
import DeskScript.Proofs.Machine.Escaping
import DeskScript.Proofs.Machine.Enrolment
import DeskScript.Proofs.Machine.Withdrawal
import DeskScript.Proofs.Machine.Failing
import DeskScript.Proofs.Machine.Dormant
import DeskScript.Proofs.Machine.Reporting
import DeskScript.Proofs.Token.Respelling
import DeskScript.Proofs.Syntax.Surfacing
import DeskScript.Proofs.Syntax.Lines
import DeskScript.Proofs.Json.RoundTrip
import DeskScript.Proofs.Host.Paths
import DeskScript.Proofs.Host.Calls
import DeskScript.Proofs.Host.Histories
import DeskScript.Proofs.Host.State
import DeskScript.Proofs.Host.Apart
import DeskScript.Proofs.Scope.Growth
import DeskScript.Proofs.Machine.Running
import DeskScript.Proofs.Machine.Scoping
import DeskScript.Proofs.Config.Usable
import DeskScript.Proofs.Builtin.Frames
import DeskScript.Proofs.Host.Subscriptions
import DeskScript.Proofs.Value.Rendering
import DeskScript.Proofs.Value.Equality
import DeskScript.Proofs.Syntax.Interpolation
import DeskScript.Proofs.Syntax.Messages
import DeskScript.Proofs.Value.Sharing
import DeskScript.Proofs.Source.QuotedLine
import DeskScript.Proofs.Syntax.LookaheadExpression
import DeskScript.Proofs.Syntax.SpacingStatement
import DeskScript.Proofs.Syntax.Progress
import DeskScript.Proofs.Machine.CallDepth
import DeskScript.Proofs.Machine.Looping
import DeskScript.Proofs.Scope.Assignment
import DeskScript.Proofs.Machine.Expiring
import DeskScript.Proofs.Machine.Hoisting
import DeskScript.Proofs.Value.Property
import DeskScript.Proofs.Value.Wrapping
import DeskScript.Proofs.Builtin.NumberText
import DeskScript.Proofs.Builtin.Sorting
import DeskScript.Proofs.Builtin.Splitting
import DeskScript.Proofs.Builtin.Searching
import DeskScript.Proofs.Builtin.Repetitions
import DeskScript.Proofs.Text.Case
import DeskScript.Proofs.Text.Trimming
import DeskScript.Proofs.Host.NormalForm
import DeskScript.Proofs.Builtin.Flattening
