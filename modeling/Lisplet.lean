import Lisplet.Editor.Workspace
import Lisplet.Main
import Lisplet.Proofs.Balance
import Lisplet.Proofs.History
import Lisplet.Proofs.Noninterference
import Lisplet.Proofs.RoundTrip
import Lisplet.Proofs.Safety
import Lisplet.Proofs.Written
import Lisplet.Server.Connection
import Lisplet.Proofs.Replay
import Lisplet.Proofs.Framing
import Lisplet.Proofs.Headroom
import Lisplet.Proofs.Pieces
import Lisplet.Proofs.Declared
import Lisplet.Proofs.Grammar
import Lisplet.Proofs.Joining
import Lisplet.Proofs.Strictness
import Lisplet.Proofs.Echo
import Lisplet.Proofs.Answers
import Lisplet.Proofs.Batches
import Lisplet.Proofs.Logging
import Lisplet.Proofs.Conversation
import Lisplet.Proofs.TopLevel
import Lisplet.Proofs.Hover
import Lisplet.Proofs.Names
import Lisplet.Proofs.Agreement
import Lisplet.Proofs.Documents
import Lisplet.Proofs.ExactText
import Lisplet.Proofs.Resolution
import Lisplet.Proofs.Refusal
import Lisplet.Proofs.Capture
import Lisplet.Proofs.Derived
import Lisplet.Proofs.Listing
import Lisplet.Proofs.Rows
import Lisplet.Proofs.Words
import Lisplet.Proofs.SameText
import Lisplet.Proofs.Cursor
import Lisplet.Proofs.FirstMatch
import Lisplet.Proofs.LongestNumeral
