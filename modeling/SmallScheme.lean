import SmallScheme.Main
import SmallScheme.Text.Decimal.Lemmas
import SmallScheme.Text.Utf8.Lemmas
import SmallScheme.Proofs.Token.Classes
import SmallScheme.Proofs.Token.Ends
import SmallScheme.Proofs.Token.Stream
import SmallScheme.Proofs.Token.Places
import SmallScheme.Proofs.Token.Segments
import SmallScheme.Proofs.Token.Terminals
import SmallScheme.Proofs.Token.Faithful
import SmallScheme.Proofs.Reader.Grammar
import SmallScheme.Proofs.Reader.Literals
import SmallScheme.Proofs.Reader.Recognition
import SmallScheme.Proofs.Reader.Program
import SmallScheme.Proofs.Reader.Readable
import SmallScheme.Proofs.Reader.Places
import SmallScheme.Proofs.Reader.Lines
import SmallScheme.Proofs.Reader.Depth
import SmallScheme.Proofs.Reader.Pending
import SmallScheme.Proofs.Reader.Strings
import SmallScheme.Proofs.Reader.RoundTrip
import SmallScheme.Proofs.Reader.Interning
import SmallScheme.Proofs.Machine.Balance
import SmallScheme.Proofs.Environment.Captures
import SmallScheme.Proofs.Environment.WellFormed
import SmallScheme.Proofs.Machine.Footprint
import SmallScheme.Proofs.Machine.Operations
import SmallScheme.Proofs.Machine.Identity
import SmallScheme.Proofs.Machine.Locality
import SmallScheme.Proofs.Machine.Headroom
import SmallScheme.Proofs.Machine.Termination
import SmallScheme.Proofs.Machine.LoadCycle
import SmallScheme.Proofs.Machine.Waiting
import SmallScheme.Proofs.Session.Program
import SmallScheme.Proofs.Machine.Failure
import SmallScheme.Proofs.Machine.Limit
import SmallScheme.Proofs.Reader.Intact
import SmallScheme.Proofs.Safety.Access
import SmallScheme.Proofs.Safety.Lexer
import SmallScheme.Proofs.Safety.Machine
import SmallScheme.Proofs.Safety.Session
import SmallScheme.Proofs.Value.Equivalence
import SmallScheme.Proofs.Source.Positions
import SmallScheme.Proofs.Token.Layout
import SmallScheme.Proofs.Reader.Blame
import SmallScheme.Proofs.Token.Comments
import SmallScheme.Proofs.Reader.Comments
import SmallScheme.Proofs.Reader.WhiteSpace
import SmallScheme.Proofs.Environment.Scope
import SmallScheme.Proofs.Machine.Definitions
import SmallScheme.Proofs.Machine.Caller
import SmallScheme.Proofs.Value.Congruence
import SmallScheme.Proofs.Machine.Ending
import SmallScheme.Proofs.Environment.Arguments
import SmallScheme.Proofs.Machine.Application
import SmallScheme.Proofs.Machine.Formals
import SmallScheme.Proofs.Reader.Escapes
import SmallScheme.Proofs.Primitive.Pairs
import SmallScheme.Proofs.Primitive.Division
import SmallScheme.Proofs.Primitive.Sums
import SmallScheme.Proofs.Environment.Listing
import SmallScheme.Proofs.Machine.History
import SmallScheme.Proofs.Session.Completion
import SmallScheme.Proofs.Machine.Twins
import SmallScheme.Proofs.Reader.Names
import SmallScheme.Proofs.CommandLine.Expressions
import SmallScheme.Proofs.Reader.Unfinished
import SmallScheme.Proofs.Reader.Continuation
import SmallScheme.Proofs.Token.Requests
import SmallScheme.Proofs.Reader.Descent
import SmallScheme.Proofs.Reader.Methods
