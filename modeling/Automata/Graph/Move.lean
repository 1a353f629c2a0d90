import Automata.Graph.Path
import Automata.Search

/-!
# Closures and moves

The result of a move is not closed again, so a walk along a word closes before each
character and never after the last.
-/

namespace Automata.NondetGraph

variable (g : NondetGraph)

def epsilonTargets (q : State) : List State := (g.targets q .epsilon).toList

/-- All that epsilon edges lead to from the set: no more states than the set and the targets of
edges, which bounds the search. -/
def closure (s : StateSet) : StateSet := .ofList (Search.search g.epsilonTargets s.toList (s.size + g.size))

def move (s : StateSet) : Symbol → StateSet
  | .epsilon => g.closure s
  | .char c => g.image (g.closure s) (.char c)

def walk (s : StateSet) (w : List Char) : StateSet := w.foldl (fun s c => g.move s (.char c)) s

def trail (s : StateSet) : List Char → List StateSet
  | [] => [s]
  | c :: w => s :: trail (g.move s (.char c)) w

variable {g} {s : StateSet} {p q r : State} {c : Char}

theorem mem_epsilonTargets : q ∈ g.epsilonTargets p ↔ ⟨p, .epsilon, q⟩ ∈ g.edges := Graph.mem_targets

theorem reachable_iff_path :
    Search.Reachable g.epsilonTargets s.toList q ↔ ∃ p ∈ s, g.Path p [] q := by
  constructor
  · intro h
    induction h with
    | start h => exact ⟨_, h, .nil _⟩
    | step _ he ih =>
      obtain ⟨p, hp, h⟩ := ih
      exact ⟨p, hp, h.trans (.of_epsilon (mem_epsilonTargets.mp he))⟩
  · intro h
    obtain ⟨p, hp, h⟩ := h
    have hr : Search.Reachable g.epsilonTargets s.toList p := .start hp
    clear hp
    generalize hw : [] = w at h
    induction h with
    | nil => exact hr
    | epsilon he _ ih => exact ih (hr.step (mem_epsilonTargets.mpr he)) hw
    | char => cases hw

theorem length_search_le (n : Nat) : (Search.search g.epsilonTargets s.toList n).length ≤ s.size + g.size := by
  have h : s.size + g.size = (s.toList ++ g.edges.toList.map Edge.target).length := by
    rw [List.length_append, List.length_map]; rfl
  rw [h]
  refine List.Nodup.length_le_of_subset Search.nodup_search fun q hq => ?_
  rw [List.mem_append, List.mem_map]
  cases Search.search_reachable hq with
  | start h => exact .inl h
  | step _ h => exact .inr ⟨_, mem_epsilonTargets.mp h, rfl⟩

theorem mem_closure : q ∈ g.closure s ↔ ∃ p ∈ s, g.Path p [] q := by
  rw [closure, SortedSet.mem_ofList, Search.mem_search (length_search_le _), reachable_iff_path]

theorem closure_closure : g.closure (g.closure s) = g.closure s := by
  apply SortedSet.ext
  intro r
  rw [mem_closure]
  refine ⟨fun h => ?_, fun h => ⟨r, h, .nil r⟩⟩
  obtain ⟨q, hq, hr⟩ := h
  obtain ⟨p, hp, hq⟩ := mem_closure.mp hq
  exact mem_closure.mpr ⟨p, hp, hq.trans hr⟩

theorem mem_move_char :
    r ∈ g.move s (.char c) ↔ ∃ p ∈ s, ∃ q, g.Path p [] q ∧ ⟨q, .char c, r⟩ ∈ g.edges := by
  simp only [move, Graph.mem_image, mem_closure]
  constructor
  · intro h
    obtain ⟨q, ⟨p, hp, h⟩, he⟩ := h
    exact ⟨p, hp, q, h, he⟩
  · intro h
    obtain ⟨p, hp, q, h, he⟩ := h
    exact ⟨q, ⟨p, hp, h⟩, he⟩

end Automata.NondetGraph
