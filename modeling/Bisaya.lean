import Bisaya.Main
import Bisaya.Run.Session
import Bisaya.Stmt.Agree
import Bisaya.Stmt.Printer
import Bisaya.Proofs.Text.ByteOrder
import Bisaya.Proofs.Number.Bits
import Bisaya.Proofs.Number.Nearest
import Bisaya.Proofs.Number.Notation
import Bisaya.Proofs.Token.Spelling
import Bisaya.Proofs.Token.Scanner
import Bisaya.Proofs.Token.Scanning
import Bisaya.Proofs.Token.Segments
import Bisaya.Proofs.Parse.Climbing
import Bisaya.Proofs.Parse.Composition
import Bisaya.Proofs.Parse.Equations
import Bisaya.Proofs.Parse.Grammar
import Bisaya.Proofs.Parse.Layered
import Bisaya.Proofs.Parse.Layout
import Bisaya.Proofs.Parse.Locality
import Bisaya.Proofs.Parse.Lockstep
import Bisaya.Proofs.Parse.OneLine
import Bisaya.Proofs.Parse.Outcome
import Bisaya.Proofs.Parse.Overflow
import Bisaya.Proofs.Parse.Reader
import Bisaya.Proofs.Parse.RoundTrip
import Bisaya.Proofs.Parse.Seam
import Bisaya.Proofs.Parse.Stranded
import Bisaya.Proofs.Parse.Termination
import Bisaya.Proofs.Parse.Tracing
import Bisaya.Proofs.Parse.Tree
import Bisaya.Proofs.Parse.Verdict
import Bisaya.Proofs.Parse.Walking
import Bisaya.Proofs.Parse.WellFormed
import Bisaya.Proofs.Stmt.Pieces
import Bisaya.Proofs.Run.History
import Bisaya.Proofs.Expr.Typing
import Bisaya.Proofs.Run.Soundness
import Bisaya.Proofs.Run.Entering
import Bisaya.Proofs.Run.Literals
import Bisaya.Proofs.Run.Play
import Bisaya.Proofs.Run.BigStep
import Bisaya.Proofs.Run.Adequacy
import Bisaya.Proofs.Run.Accounting
import Bisaya.Proofs.Run.Frame
import Bisaya.Proofs.Token.Lines
import Bisaya.Proofs.Token.Comments
import Bisaya.Proofs.Command.Conversation
import Bisaya.Proofs.Expr.Whole
import Bisaya.Proofs.Expr.Connectives
import Bisaya.Proofs.Run.Counting
import Bisaya.Proofs.Run.Storing
import Bisaya.Proofs.Run.Listing
import Bisaya.Proofs.Stmt.Rendering
import Bisaya.Proofs.Stmt.Shape
import Bisaya.Proofs.Run.Stepping
