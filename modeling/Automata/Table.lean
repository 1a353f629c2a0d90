import Automata.Graph.Det

/-! # Transition tables -/

namespace Automata

inductive Table where
  | det (g : DetGraph)
  | nondet (g : NondetGraph)
deriving DecidableEq

namespace Table

instance : Inhabited Table := ⟨.nondet default⟩

def isDet : Table → Bool
  | det _ => true
  | nondet _ => false

def toNondet : Table → NondetGraph
  | det g => g.toNondet
  | nondet g => g

def states : Table → StateSet
  | det g => g.states
  | nondet g => g.states

def edges (t : Table) : SortedSet (Edge Symbol) := t.toNondet.edges

def symbols : Table → Alphabet
  | det g => g.symbols
  | nondet g => g.symbols

def size : Table → Nat
  | det g => g.size
  | nondet g => g.size

@[simp] theorem states_toNondet : ∀ t : Table, t.toNondet.states = t.states
  | det _ => rfl
  | nondet _ => rfl

theorem mem_symbols {c : Char} : ∀ {t : Table}, c ∈ t.symbols ↔ ∃ p q, ⟨p, .char c, q⟩ ∈ t.toNondet.edges
  | det g => by
    simp only [symbols, DetGraph.mem_symbols, toNondet, DetGraph.mem_edges_toNondet]
    constructor
    · intro h
      obtain ⟨p, q, he⟩ := h
      exact ⟨p, q, c, rfl, he⟩
    · intro h
      obtain ⟨p, q, _, hc, he⟩ := h
      cases hc
      exact ⟨p, q, he⟩
  | nondet g => by
    simp only [symbols, NondetGraph.mem_symbols, toNondet]
    constructor
    · intro h
      obtain ⟨⟨p, x, q⟩, he, hx⟩ := h
      subst hx
      exact ⟨p, q, he⟩
    · intro h
      obtain ⟨p, q, he⟩ := h
      exact ⟨_, he, rfl⟩

/-- The targets of single edges; epsilon is a label as any other. -/
def successors (t : Table) (q : State) (x : Symbol) : StateSet :=
  match t, x with
  | det _, .epsilon => ∅
  | det g, .char c => .ofList (g.target? q c).toList
  | nondet g, x => g.targets q x

def addState : Table → State → Bool × Table
  | det g, q => (g.addState q).map id det
  | nondet g, q => (g.addState q).map id nondet

def removeState : Table → State → Bool × Table
  | det g, q => (g.removeState q).map id det
  | nondet g, q => (g.removeState q).map id nondet

def addEdge : Table → Edge Symbol → Except Error Table
  | det g, e => do return det (← g.addEdge e).2
  | nondet g, e => do return nondet (← g.addEdge e).2

end Table

end Automata
