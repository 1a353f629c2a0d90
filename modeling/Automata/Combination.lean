import Automata.Allocator
import Automata.Run

/-!
# Combining automata

Operands keep their states, so two operands must not share one; the result is
nondeterministic and has the options of the left operand.
-/

namespace Automata

namespace NondetGraph

/-- Goes over the states in ascending order. Another order gives the same graph, but may come upon another
undeclared state first. -/
def glue (g : NondetGraph) (s : StateSet) (target : State) : Except Error NondetGraph :=
  s.toList.foldlM (fun g q => return (← g.addEdge ⟨q, .epsilon, target⟩).2) g

end NondetGraph

namespace Automaton

/-- Refuses operands that share states, then operands without an initial state, the left one first. -/
def operands (a b : Automaton) : Except Error (State × State) :=
  match (a.states.inter b.states).size, a.initial, b.initial with
  | 0, some p, some q => .ok (p, q)
  | 0, _, _ => .error .missingInitial
  | n + 1, _, _ => .error (.sharedStates (n + 1))

/-- A run chooses an operand by the epsilon edge that it takes from the fresh initial state. -/
def union (a b : Automaton) : Minting Automaton := do
  let (p, q) ← Minting.ofExcept (operands a b)
  let g := a.graph.absorb b.graph
  let start ← Allocator.mint
  if start ∈ g.states then throw (.refused (.staleState start))
  let g ← Minting.ofExcept (NondetGraph.glue (g.declare start) (.singleton start) p)
  let g ← Minting.ofExcept (NondetGraph.glue g (.singleton start) q)
  return (ofTable (.nondet g) (some start) (a.finals ∪ b.finals)).setOptions a.options

def concat (a b : Automaton) : Except Error Automaton := do
  let (p, q) ← operands a b
  let g ← NondetGraph.glue (a.graph.absorb b.graph) a.finals q
  return (ofTable (.nondet g) (some p) b.finals).setOptions a.options

/-- A run reads words of the operand in sequence, and may also end wherever it is back at the initial state. -/
def star (a : Automaton) : Except Error Automaton :=
  match a.initial with
  | none => .error .missingInitial
  | some q => do
    let g ← a.graph.glue a.finals q
    return (ofTable (.nondet g) (some q) (a.finals.insert q)).setOptions a.options

def chainEdges : State → List (Char × State) → List (Edge Symbol)
  | _, [] => []
  | p, (c, q) :: l => ⟨p, .char c, q⟩ :: chainEdges q l

def chain (p : State) (l : List (Char × State)) : Automaton :=
  ofTable (.nondet ⟨.ofList (p :: l.map (·.2)), .ofList (chainEdges p l)⟩) (some p)
    (.singleton ((l.map (·.2)).getLastD p))

def ofWord (w : List Char) : Minting Automaton := do
  let p ← Allocator.mint
  let l ← Allocator.mintEach w.length
  return chain p (w.zip l)

end Automaton

end Automata
