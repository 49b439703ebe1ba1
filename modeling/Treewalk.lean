import Treewalk.Integer
import Treewalk.Token
import Treewalk.Token.Scan
import Treewalk.Operator
import Treewalk.Diagnostic
import Treewalk.Tree
import Treewalk.Tree.Render
import Treewalk.Tree.Equality
import Treewalk.Rules
import Treewalk.Reading
import Treewalk.Reader
import Treewalk.Parser
import Treewalk.Fault
import Treewalk.Value
import Treewalk.Value.Operate
import Treewalk.Env
import Treewalk.Eval
import Treewalk.Session
import Treewalk.Conversation
import Treewalk.CommandLine.Invocation
import Treewalk.CommandLine.Directory
import Treewalk.CommandLine.Run
import Treewalk.Main
import Treewalk.Proofs.Grammar
import Treewalk.Proofs.Grammar.Boundary
import Treewalk.Proofs.Grammar.Accepted
import Treewalk.Proofs.Grammar.Derived
import Treewalk.Proofs.Plain
import Treewalk.Proofs.Carriers
import Treewalk.Proofs.Raising
import Treewalk.Proofs.Lookahead
import Treewalk.Proofs.Lexemes
import Treewalk.Proofs.Separators
import Treewalk.Proofs.Grammar.FirstFault
import Treewalk.Proofs.Recovery
import Treewalk.Proofs.Batch
import Treewalk.Proofs.Accounting
import Treewalk.Proofs.Transcripts
import Treewalk.Proofs.Scripts
import Treewalk.Proofs.LineEnds
import Treewalk.Proofs.Rendering
import Treewalk.Proofs.Exactness
import Treewalk.Proofs.Quotation
import Treewalk.Proofs.Numerals
import Treewalk.Proofs.Braces
import Treewalk.Proofs.Dependence
import Treewalk.Proofs.Frame
import Treewalk.Proofs.Blame
import Treewalk.Proofs.WellFormed
import Treewalk.Proofs.Guests
import Treewalk.Proofs.Comparison
import Treewalk.Proofs.Registration
import Treewalk.Proofs.Supplies
import Treewalk.Proofs.Floors
import Treewalk.Proofs.EndOfInput
import Treewalk.Proofs.Blocks
import Treewalk.Proofs.Erasure
import Treewalk.Proofs.Printing
import Treewalk.Proofs.Scopes
import Treewalk.Proofs.Assembly
