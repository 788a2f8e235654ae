import DeskCalc.Proofs.Expression.Exact
import DeskCalc.Proofs.Reachable
import DeskCalc.Proofs.Layout.Braces
import DeskCalc.Proofs.Calls
import DeskCalc.Proofs.Rollback
import DeskCalc.Proofs.Linking
import DeskCalc.Proofs.Counters
import DeskCalc.Proofs.Answers
import DeskCalc.Proofs.Brackets.Accepted
import DeskCalc.Proofs.Chunks.Ahead
import DeskCalc.Proofs.Chunks.Expression
import DeskCalc.Proofs.Chunks.Statement
import DeskCalc.Proofs.Chunks.Seam
import DeskCalc.Proofs.Chunks.Items
import DeskCalc.Proofs.Chunks.Chunking
import DeskCalc.Proofs.Strictness.Modes
import DeskCalc.Proofs.Redefinition
import DeskCalc.Proofs.Reader
import DeskCalc.Proofs.Operands.Sessions
import DeskCalc.Proofs.Returns.Sessions
import DeskCalc.Proofs.Finish
import DeskCalc.Proofs.Expression.Values
import DeskCalc.Proofs.Answers.Ends
import DeskCalc.Proofs.Answers.Code
import DeskCalc.Proofs.Tables
import DeskCalc.Proofs.Instructions
import DeskCalc.Proofs.Rendering
import DeskCalc.Proofs.Continued
import DeskCalc.Proofs.Confined
import DeskCalc.Proofs.ReturnValues
import DeskCalc.Proofs.Semicolons
import DeskCalc.Proofs.Expression.Isolated
import DeskCalc.Proofs.Termination
import DeskCalc.Proofs.Listings
import DeskCalc.Proofs.Carets
