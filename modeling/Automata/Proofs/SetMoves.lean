import Automata.Proofs.DepthFirst

/-!
# Moves of sets and of single states

A set of states can be moved at once, with one closure shared by all members, or state by
state. What a closure contains depends on its origins one by one (`mem_move_iff`).
-/

namespace Automata

namespace SortedSet

variable {α : Type} [Ord α] [Std.TransOrd α] [Std.LawfulEqOrd α]

def unions (l : List (SortedSet α)) : SortedSet α := l.foldr (· ∪ ·) ∅

theorem mem_unions {a : α} : ∀ {l : List (SortedSet α)}, a ∈ unions l ↔ ∃ s ∈ l, a ∈ s
  | [] => by simp [unions]
  | s :: l => by
    have hcons : unions (s :: l) = s ∪ unions l := rfl
    rw [hcons, mem_union, mem_unions]
    simp

end SortedSet

namespace NondetGraph

variable {g : NondetGraph} {s t : StateSet} {q r : State} {x : Symbol} {l : List State}

namespace TargetOrder

def transition (o : g.TargetOrder) (q : State) : Symbol → StateSet
  | .epsilon => o.closureFrom q
  | .char c => g.image (o.closureFrom q) (.char c)

def transitionSet (o : g.TargetOrder) (l : List State) : Symbol → StateSet
  | .epsilon => o.closureOf l
  | .char c => g.image (o.closureOf l) (.char c)

theorem transition_eq_move (o : g.TargetOrder) : o.transition q x = g.move (.singleton q) x := by
  cases x with
  | epsilon => exact closureFrom_eq_closure
  | char c => simp only [transition, move, closureFrom_eq_closure]

theorem transitionSet_eq_move (o : g.TargetOrder) : o.transitionSet l x = g.move (.ofList l) x := by
  cases x with
  | epsilon => exact closureOf_eq_closure
  | char c => simp only [transitionSet, move, closureOf_eq_closure]

end TargetOrder

/-! ## Moves of sets -/

theorem mem_move_iff : r ∈ g.move s x ↔ ∃ q ∈ s, r ∈ g.move (.singleton q) x := by
  cases x with
  | epsilon => simp [move, mem_closure]
  | char c => simp [mem_move_char]

theorem move_eq_unions (h : ∀ q, q ∈ l ↔ q ∈ s) : g.move s x = .unions (l.map fun q => g.move (.singleton q) x) := by
  apply SortedSet.ext
  intro r
  rw [mem_move_iff, SortedSet.mem_unions]
  simp [h]

theorem move_union : g.move (s ∪ t) x = g.move s x ∪ g.move t x := by
  apply SortedSet.ext
  intro r
  rw [SortedSet.mem_union, mem_move_iff, mem_move_iff (s := s), mem_move_iff (s := t)]
  simp [or_and_right, exists_or]

theorem move_closure : g.move (g.closure s) x = g.move s x := by
  cases x with
  | epsilon => exact closure_closure
  | char c => simp only [move, closure_closure]

/-- A set moves as its members do one by one, depth first or not and in whichever order. -/
theorem transitionSet_eq_unions (g : NondetGraph) (s : StateSet) (x : Symbol) :
    (∀ (o : g.TargetOrder) (l : List State), (∀ q, q ∈ l ↔ q ∈ s) →
      o.transitionSet l x = .unions (l.map fun q => o.transition q x) ∧ o.transitionSet l x = g.move s x ∧
        ∀ q, o.transition q x = g.move (.singleton q) x) ∧
      (∀ c, x = .char c → ∀ r, r ∈ g.move s x ↔ ∃ q ∈ s, ∃ p, g.Path q [] p ∧ ⟨p, .char c, r⟩ ∈ g.edges) ∧
      (x = .epsilon → g.move s x = g.closure s ∧ ∀ r, r ∈ g.move s x ↔ ∃ q ∈ s, g.Path q [] r) ∧
      (∀ t, g.move (s ∪ t) x = g.move s x ∪ g.move t x) ∧ g.move (g.closure s) x = g.move s x := by
  refine ⟨fun o l h => ?_, fun c hc r => ?_, fun hx => ?_, fun t => move_union, move_closure⟩
  · have hs : SortedSet.ofList l = s := SortedSet.ext fun q => SortedSet.mem_ofList.trans (h q)
    simp only [o.transitionSet_eq_move, o.transition_eq_move, hs, move_eq_unions h, implies_true, and_self]
  · subst hc
    exact mem_move_char
  · subst hx
    exact ⟨rfl, fun r => mem_closure⟩

theorem transitionSet_eq_unions_epsilonRing :
    (∀ q, q ∈ [⟨3⟩, (⟨1⟩ : State)] ↔ q ∈ SortedSet.ofList [⟨1⟩, (⟨3⟩ : State)]) ∧
      (TargetOrder.ascending epsilonRing).transitionSet [⟨3⟩, ⟨1⟩] (.char 'x') =
        .unions ([⟨3⟩, ⟨1⟩].map fun q => (TargetOrder.ascending epsilonRing).transition q (.char 'x')) ∧
      (TargetOrder.ascending epsilonRing).transitionSet [⟨3⟩, ⟨1⟩] (.char 'x') = .singleton ⟨0⟩ := by
  have hl : ∀ q, q ∈ [⟨3⟩, (⟨1⟩ : State)] ↔ q ∈ SortedSet.ofList [⟨1⟩, (⟨3⟩ : State)] := fun q => by
    simp [or_comm]
  obtain ⟨hunions, hmove, _⟩ :=
    (transitionSet_eq_unions epsilonRing (.ofList [⟨1⟩, ⟨3⟩]) (.char 'x')).1 (.ascending epsilonRing) _ hl
  exact ⟨hl, hunions, hmove.trans rfl⟩

end NondetGraph

end Automata
