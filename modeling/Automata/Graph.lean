import Automata.State

/-!
# Labelled graphs

A graph is its set of declared states and its set of edges. An edge may touch a state that
is not declared; `Closed` rules that out.
-/

namespace Automata

structure Edge (L : Type) where
  source : State
  label : L
  target : State
deriving DecidableEq

namespace Edge

variable {L : Type} [Ord L]

/-- By source, then label, then target. -/
instance : Ord (Edge L) :=
  ⟨compareLex (compareOn source) (compareLex (compareOn label) (compareOn target))⟩

instance [Std.TransOrd L] : Std.TransOrd (Edge L) :=
  inferInstanceAs (Std.TransCmp (compareLex (compareOn source) (compareLex (compareOn label) (compareOn target))))

instance [Std.TransOrd L] [Std.LawfulEqOrd L] : Std.LawfulEqOrd (Edge L) where
  eq_of_compare {e f} h := by
    obtain ⟨hs, h⟩ := compareLex_eq_eq.mp h
    obtain ⟨hl, ht⟩ := compareLex_eq_eq.mp h
    have hs := Std.LawfulEqOrd.eq_of_compare (α := State) hs
    have hl := Std.LawfulEqOrd.eq_of_compare (α := L) hl
    have ht := Std.LawfulEqOrd.eq_of_compare (α := State) ht
    cases e; cases f; simp_all

def Touches (e : Edge L) (q : State) : Prop := e.source = q ∨ e.target = q

instance (e : Edge L) (q : State) : Decidable (e.Touches q) :=
  inferInstanceAs (Decidable (e.source = q ∨ e.target = q))

def Within (e : Edge L) (s : StateSet) : Prop := e.source ∈ s ∧ e.target ∈ s

instance (e : Edge L) (s : StateSet) : Decidable (e.Within s) :=
  inferInstanceAs (Decidable (e.source ∈ s ∧ e.target ∈ s))

end Edge

structure Graph (L : Type) [Ord L] where
  states : StateSet
  edges : SortedSet (Edge L)
deriving DecidableEq

namespace Graph

variable {L : Type} [Ord L]

theorem ext [Std.TransOrd L] [Std.LawfulEqOrd L] {g h : Graph L} (hs : ∀ q, q ∈ g.states ↔ q ∈ h.states)
    (he : ∀ e, e ∈ g.edges ↔ e ∈ h.edges) : g = h := by
  obtain ⟨s, e⟩ := g; obtain ⟨s', e'⟩ := h
  obtain rfl : s = s' := SortedSet.ext hs
  obtain rfl : e = e' := SortedSet.ext he
  rfl

def ofStates (s : StateSet) : Graph L := ⟨s, ∅⟩

instance : Inhabited (Graph L) := ⟨ofStates ∅⟩

def size (g : Graph L) : Nat := g.edges.size

def Closed (g : Graph L) : Prop := ∀ e ∈ g.edges, e.Within g.states

/-! ## Declaring and withdrawing states -/

def declare (g : Graph L) (q : State) : Graph L := { g with states := g.states.insert q }

def withdraw (g : Graph L) (q : State) : Graph L :=
  ⟨g.states.erase q, g.edges.filter fun e => ¬ e.Touches q⟩

theorem mem_edges_withdraw {g : Graph L} {q : State} {e : Edge L} :
    e ∈ (g.withdraw q).edges ↔ e ∈ g.edges ∧ e.source ≠ q ∧ e.target ≠ q := by
  simp [withdraw, Edge.Touches]

def addState (g : Graph L) (q : State) : Bool × Graph L := (q ∉ g.states, g.declare q)

/-- Tells whether the state was declared. If it was not, the edges that touch it stay. -/
def removeState (g : Graph L) (q : State) : Bool × Graph L :=
  if q ∈ g.states then (true, g.withdraw q) else (false, g)

theorem removeState_of_declared {g : Graph L} {q : State} (h : q ∈ g.states) : g.removeState q = (true, g.withdraw q) :=
  if_pos h

theorem removeState_of_undeclared {g : Graph L} {q : State} (h : q ∉ g.states) : g.removeState q = (false, g) :=
  if_neg h

theorem Closed.declare {g : Graph L} (h : g.Closed) (q : State) : (g.declare q).Closed := fun e he =>
  ⟨SortedSet.mem_insert.mpr (.inr (h e he).1), SortedSet.mem_insert.mpr (.inr (h e he).2)⟩

theorem Closed.withdraw {g : Graph L} (h : g.Closed) (q : State) : (g.withdraw q).Closed := fun e he => by
  obtain ⟨he, hs, ht⟩ := mem_edges_withdraw.mp he
  exact ⟨SortedSet.mem_erase.mpr ⟨(h e he).1, hs⟩, SortedSet.mem_erase.mpr ⟨(h e he).2, ht⟩⟩

/-! ## Walking along edges -/

section
variable [DecidableEq L]

def image (g : Graph L) (s : StateSet) (x : L) : StateSet :=
  (g.edges.filter fun e => e.label = x ∧ e.source ∈ s).map Edge.target

theorem mem_image {g : Graph L} {s : StateSet} {x : L} {q : State} :
    q ∈ g.image s x ↔ ∃ p ∈ s, ⟨p, x, q⟩ ∈ g.edges := by
  simp only [image, SortedSet.mem_map, SortedSet.mem_filter, decide_eq_true_eq]
  constructor
  · intro h
    obtain ⟨⟨p, y, q⟩, ⟨he, hy, hp⟩, hq⟩ := h
    subst hy hq
    exact ⟨p, hp, he⟩
  · intro h
    obtain ⟨p, hp, he⟩ := h
    exact ⟨_, ⟨he, rfl, hp⟩, rfl⟩

def targets (g : Graph L) (p : State) (x : L) : StateSet := g.image (.singleton p) x

theorem mem_targets {g : Graph L} {p q : State} {x : L} : q ∈ g.targets p x ↔ ⟨p, x, q⟩ ∈ g.edges := by
  simp [targets, mem_image]

end

/-! ## Adding edges -/

variable [Std.TransOrd L] [Std.LawfulEqOrd L]

def connect (g : Graph L) (e : Edge L) : Graph L := { g with edges := g.edges.insert e }

theorem Closed.connect {g : Graph L} (h : g.Closed) {e : Edge L} (he : e.Within g.states) :
    (g.connect e).Closed := by
  intro f hf
  rcases SortedSet.mem_insert.mp hf with rfl | hf
  · exact he
  · exact h f hf

def absorb (g h : Graph L) : Graph L := ⟨g.states ∪ h.states, g.edges ∪ h.edges⟩

@[simp] theorem mem_states_absorb {g h : Graph L} {q : State} :
    q ∈ (g.absorb h).states ↔ q ∈ g.states ∨ q ∈ h.states :=
  SortedSet.mem_union

@[simp] theorem mem_edges_absorb {g h : Graph L} {e : Edge L} :
    e ∈ (g.absorb h).edges ↔ e ∈ g.edges ∨ e ∈ h.edges :=
  SortedSet.mem_union

end Graph

end Automata
