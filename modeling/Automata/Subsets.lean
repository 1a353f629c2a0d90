import Automata.Combination

/-!
# The subset construction

The states of the result stand for the sets found by a breadth-first search and get their
ordinals in that order. The empty set is a state as any other.
-/

namespace Automata.Automaton

def images (a : Automaton) : StateSet → List StateSet :=
  let g := a.graph
  let cs := a.symbols.toList
  fun s => cs.map fun c => g.move s (.char c)

/-- The sets found by expanding at most the given number of them. -/
def subsets (a : Automaton) (rounds : Nat) : List StateSet := Search.search a.images [a.start] rounds

def onSubsets (a : Automaton) (l : List StateSet) (names : List State) : Automaton :=
  let g := a.graph
  let target (q : State) (c : Char) : Option State := do
    let s ← (names.zip l).lookup q
    (l.zip names).lookup (g.move s (.char c))
  let finals := (l.zip names).filterMap fun (s, q) => if a.accepting s then some q else none
  (ofTable (.det (.tabulate (.ofList names) a.symbols target)) names.head? (.ofList finals)).setOptions a.options

/-- If there are more subsets than the limit allows, so many states are minted as it allows, and if there are more than
the allocator has states left, all of those. -/
def determinize (a : Automaton) (limit : Option Nat) : Minting Automaton := do
  Minting.ofExcept a.validate
  let room := (← get).room
  match limit <|> a.options.maxSubsets with
  | none =>
    let l := a.subsets room
    return a.onSubsets l (← Allocator.mintEach l.length)
  | some n =>
    let l := a.subsets (min n room)
    let names ← Allocator.mintEach (min n l.length)
    if n < l.length then throw (.refused (.tooManyStates n))
    return a.onSubsets l names

end Automata.Automaton
