import Automata.Error
import Automata.Graph

/-! # Nondeterministic graphs -/

namespace Automata

def StateSet.require (s : StateSet) (q : State) : Except Error Unit :=
  if q ∈ s then .ok () else .error (.unknownState q)

theorem StateSet.require_then_eq_ok {α : Type} {s : StateSet} {q : State} {x y : α} :
    (do s.require q; return x : Except Error α) = .ok y ↔ q ∈ s ∧ x = y := by
  unfold require
  by_cases hq : q ∈ s
  · simp [hq, bind, Except.bind, pure, Except.pure]
  · simp [hq, bind, Except.bind]

abbrev NondetGraph := Graph Symbol

namespace NondetGraph

def addEdge (g : NondetGraph) (e : Edge Symbol) : Except Error (Bool × NondetGraph) := do
  g.states.require e.source
  g.states.require e.target
  return (e ∉ g.edges, g.connect e)

theorem addEdge_of_within {g : NondetGraph} {e : Edge Symbol} (h : e.Within g.states) :
    g.addEdge e = .ok (decide (e ∉ g.edges), g.connect e) := by
  simp [addEdge, StateSet.require, h.1, h.2, bind, Except.bind, pure, Except.pure]

theorem addEdge_of_not_within {g : NondetGraph} {e : Edge Symbol} (h : ¬ e.Within g.states) :
    g.addEdge e = .error (.unknownState (if e.source ∈ g.states then e.target else e.source)) := by
  unfold addEdge StateSet.require
  by_cases hs : e.source ∈ g.states
  · have ht : e.target ∉ g.states := fun ht => h ⟨hs, ht⟩
    simp [hs, ht, bind, Except.bind]
  · simp [hs, bind, Except.bind]

def symbols (g : NondetGraph) : Alphabet := g.edges.filterMap fun e => e.label.char?

theorem mem_symbols {g : NondetGraph} {c : Char} : c ∈ g.symbols ↔ ∃ e ∈ g.edges, e.label = .char c := by
  simp only [symbols, SortedSet.mem_filterMap]
  constructor
  · intro h
    obtain ⟨e, he, h⟩ := h
    exact ⟨e, he, Symbol.char?_inj h⟩
  · intro h
    obtain ⟨e, he, h⟩ := h
    exact ⟨e, he, by rw [h]; rfl⟩

def hasEpsilon (g : NondetGraph) : Bool := g.edges.toList.any fun e => e.label.isEpsilon

end NondetGraph

end Automata
