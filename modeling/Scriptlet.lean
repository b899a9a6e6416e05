import Scriptlet.Main
import Scriptlet.Proofs.Ending
import Scriptlet.Proofs.Inside
import Scriptlet.Proofs.Lowering
import Scriptlet.Proofs.Parsing
import Scriptlet.Proofs.Shapes
import Scriptlet.Proofs.Discipline
import Scriptlet.Proofs.Dispatch
import Scriptlet.Proofs.Driving
import Scriptlet.Proofs.Meaning
import Scriptlet.Proofs.Simulation
import Scriptlet.Proofs.Preservation
import Scriptlet.Proofs.Starting
import Scriptlet.Proofs.Relabeling
import Scriptlet.Proofs.Lexing
import Scriptlet.Proofs.Items
import Scriptlet.Proofs.Storing
import Scriptlet.Proofs.Numbering
import Scriptlet.Proofs.Portability
import Scriptlet.Proofs.Tables
import Scriptlet.Proofs.Restoring
import Scriptlet.Proofs.Replies
import Scriptlet.Proofs.Mirror
import Scriptlet.Proofs.Classifying
import Scriptlet.Proofs.CrashFreedom
import Scriptlet.Proofs.Fidelity
import Scriptlet.Proofs.Reloading
import Scriptlet.Proofs.Sessions
import Scriptlet.Proofs.Grammar
import Scriptlet.Proofs.Ownership
import Scriptlet.Proofs.Dangling
import Scriptlet.Proofs.Reach
import Scriptlet.Proofs.Encoding
import Scriptlet.Proofs.Spelling
import Scriptlet.Proofs.Printing
import Scriptlet.Proofs.Rereading
import Scriptlet.Proofs.RoundTrip
import Scriptlet.Proofs.Support
import Scriptlet.Proofs.Shifting
import Scriptlet.Proofs.Balance
import Scriptlet.Proofs.Seating
import Scriptlet.Proofs.Grafting
import Scriptlet.Proofs.Piecewise
import Scriptlet.Proofs.Cursor
import Scriptlet.Proofs.Rooting
import Scriptlet.Proofs.Isolation
import Scriptlet.Proofs.Literals
import Scriptlet.Proofs.Grouping
import Scriptlet.Proofs.FrontEnd
import Scriptlet.Proofs.Lookahead
import Scriptlet.Proofs.Readings
import Scriptlet.Proofs.Chains
import Scriptlet.Proofs.Layout
import Scriptlet.Proofs.Separators
import Scriptlet.Proofs.Merging
import Scriptlet.Proofs.Quitting
import Scriptlet.Proofs.Arithmetic
import Scriptlet.Proofs.Pointing
import Scriptlet.Proofs.Flattening
import Scriptlet.Proofs.Equality
import Scriptlet.Proofs.Fingerprints
import Scriptlet.Proofs.Outlining
