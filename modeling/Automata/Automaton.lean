import Automata.Options
import Automata.Table

/-!
# Automata

Editing names declared states only: a step that names another state fails and leaves
the automaton as it was. `ofTable` checks nothing.
-/

namespace Automata

structure Automaton where
  table : Table
  initial : Option State
  finals : StateSet
  options : Options
deriving DecidableEq

structure Designation where
  initial : Bool
  accepting : Bool
deriving DecidableEq

namespace Automaton

def ofTable (t : Table) (initial : Option State) (finals : StateSet) : Automaton := ⟨t, initial, finals, default⟩

def emptyNondet : Automaton := ofTable (.nondet default) none ∅

def emptyDet : Automaton := ofTable (.det default) none ∅

instance : Inhabited Automaton := ⟨emptyNondet⟩

def states (a : Automaton) : StateSet := a.table.states

def edges (a : Automaton) : SortedSet (Edge Symbol) := a.table.edges

def symbols (a : Automaton) : Alphabet := a.table.symbols

def graph (a : Automaton) : NondetGraph := a.table.toNondet

@[simp] theorem states_graph (a : Automaton) : a.graph.states = a.states := Table.states_toNondet a.table

def size (a : Automaton) : Nat := a.states.size

section
variable {a : Automaton}

theorem graph_of_nondet {g : NondetGraph} (hg : a.table = .nondet g) : a.graph = g := by rw [graph, hg]; rfl

variable {g : DetGraph} (hg : a.table = .det g)
include hg

theorem graph_of_det : a.graph = g.toNondet := by rw [graph, hg]; rfl

theorem states_of_det : a.states = g.states := by rw [states, hg]; rfl

theorem symbols_of_det : a.symbols = g.symbols := by rw [symbols, hg]; rfl

theorem mem_edges_of_det {p q : State} {c : Char} : ⟨p, .char c, q⟩ ∈ a.edges ↔ ⟨p, c, q⟩ ∈ g.edges := by
  have he : a.edges = g.toNondet.edges := by rw [edges, hg]; rfl
  rw [he, DetGraph.mem_edges_toNondet]
  simp

end

def designation? (a : Automaton) (q : State) : Option Designation :=
  if q ∈ a.states then some ⟨a.initial = some q, q ∈ a.finals⟩ else none

/-! ## Editing -/

def addState (a : Automaton) (q : State) : Bool × Automaton := (a.table.addState q).map id ({ a with table := · })

def addStates (a : Automaton) (l : List State) : Automaton := l.foldl (fun a q => (a.addState q).2) a

def removeState (a : Automaton) (q : State) : Except Error Automaton :=
  match a.table.removeState q with
  | (false, _) => .error (.unknownState q)
  | (true, t) =>
    .ok { a with table := t, initial := if a.initial = some q then none else a.initial, finals := a.finals.erase q }

def setInitial (a : Automaton) (q : State) : Except Error Automaton := do
  a.states.require q
  return { a with initial := some q }

def dropInitial (a : Automaton) : Option State × Automaton := (a.initial, { a with initial := none })

def addFinal (a : Automaton) (q : State) : Except Error Automaton := do
  a.states.require q
  return { a with finals := a.finals.insert q }

def dropFinal (a : Automaton) (q : State) : Except Error Automaton := do
  a.states.require q
  return { a with finals := a.finals.erase q }

def addEdge (a : Automaton) (e : Edge Symbol) : Except Error Automaton := do
  return { a with table := ← a.table.addEdge e }

def setOptions (a : Automaton) (o : Options) : Automaton := { a with options := o }

end Automaton

structure Blueprint where
  det : Bool
  states : List State
  edges : List (Edge Symbol)
  initial : Option State
  finals : List State

/-- Declares the states, then adds the edges and the designations; the first refusal ends it. -/
def Blueprint.build (b : Blueprint) : Except Error Automaton := do
  let a := (if b.det then .emptyDet else .emptyNondet : Automaton).addStates b.states
  let a ← b.edges.foldlM Automaton.addEdge a
  let a ← b.initial.toList.foldlM Automaton.setInitial a
  b.finals.foldlM Automaton.addFinal a

end Automata
