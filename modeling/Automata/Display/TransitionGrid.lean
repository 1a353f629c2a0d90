import Automata.Automaton
import Automata.Display.Box

/-!
# The transition grid of an automaton

An arrow marks the initial state; a star and the colour green mark the final ones. There is
a column for epsilon if some edge bears it.
-/

namespace Automata.Automaton

open Display

def columns (a : Automaton) : List Symbol :=
  a.symbols.toList.map .char ++ if a.graph.hasEpsilon then [.epsilon] else []

def stateCell (a : Automaton) (q : State) : Cell :=
  let label := (if a.initial = some q then "→" else "") ++ q.text
  if q ∈ a.finals then ⟨.green, label ++ "*"⟩ else ⟨.plain, label⟩

/-- The targets of a state on a symbol: one state in a deterministic table, else a set. -/
def targetText (a : Automaton) (q : State) (x : Symbol) : String :=
  match a.table with
  | .det g => ((x.char?.bind (g.target? q)).map State.text).getD "-"
  | .nondet g => if (g.targets q x).isEmpty then "-" else (g.targets q x).text

def grid (a : Automaton) : Grid where
  header := ⟨.bold, "State"⟩ :: a.columns.map fun x => ⟨.bold, x.text⟩
  rows := a.states.toList.map fun q => a.stateCell q :: a.columns.map fun x => ⟨.plain, a.targetText q x⟩

def text (a : Automaton) : String := Box.render a.grid

end Automata.Automaton
