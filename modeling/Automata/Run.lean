import Automata.Graph.Move
import Automata.Validity

/-!
# Running an automaton

A deterministic automaton follows one state and rejects where it has no target; a
nondeterministic one moves a set of states along the word.
-/

namespace Automata

def DetGraph.run? (g : DetGraph) (q : State) (w : List Char) : Option State := w.foldlM g.target? q

namespace Automaton

def accepting (a : Automaton) (s : StateSet) : Bool :=
  match a.options.trailing with
  | .follow => (a.graph.closure s).meets a.finals
  | .ignore => s.meets a.finals

/-- The closure of the initial state; nothing without an initial state. -/
def start (a : Automaton) : StateSet := a.graph.closure (.ofList a.initial.toList)

def run (a : Automaton) (w : List Char) : Bool :=
  match a.table with
  | .det g => (a.initial.bind (g.run? · w)).any (· ∈ a.finals)
  | .nondet g => a.accepting (g.walk a.start w)

def accepts (a : Automaton) (w : List Char) : Except Error Bool := do
  a.validate
  return a.run w

def acceptsAll (a : Automaton) (l : List (List Char)) : Except Error (List Bool) := l.mapM a.accepts

end Automaton

def Runnable.accepts (r : Runnable) (w : List Char) : Bool := r.automaton.run w

theorem Runnable.accepts_eq (r : Runnable) (w : List Char) : r.automaton.accepts w = .ok (r.accepts w) := by
  rw [Automaton.accepts, r.valid]; rfl

end Automata
