import Automata.Subsets
import Automata.Display.TransitionGrid
import Automata.Proofs.Gluing
import Automata.Proofs.Concatenation
import Automata.Proofs.Star
import Automata.Proofs.Union
import Automata.Proofs.Minting
import Automata.Proofs.Numbering
import Automata.Proofs.Determinization
import Automata.Proofs.Completeness
import Automata.Proofs.SubsetAutomaton
import Automata.Proofs.Traces
import Automata.Proofs.EmptyLanguage
import Automata.Proofs.NameIndependence
import Automata.Proofs.WellFormedness
import Automata.Proofs.WordAutomaton
import Automata.Proofs.Expressions
import Automata.Proofs.TrailingIgnored
import Automata.Proofs.NondetView
import Automata.Proofs.DiscoveryOrder
import Automata.Proofs.ShortlexNumbering
import Automata.Proofs.DeterministicOperand
import Automata.Proofs.TrimmedCopy
import Automata.Proofs.DanglingReferences
import Automata.Proofs.DepthFirst
import Automata.Proofs.SetMoves
import Automata.Proofs.Worklist
import Automata.Proofs.OnePass
import Automata.Proofs.PowersetBound
import Automata.Proofs.FirstFault
import Automata.Proofs.DirectRun
import Automata.Proofs.KeyedTables
import Automata.Proofs.TableHistories
import Automata.Proofs.Withdrawal
import Automata.Proofs.Monotonicity
import Automata.Proofs.UnionOutcomes
import Automata.Proofs.MintingInSequence
import Automata.Proofs.FaithfulGrid
import Automata.Proofs.Entries
import Automata.Proofs.Gaps
import Automata.Proofs.Assembly
import Automata.Proofs.Schedules
