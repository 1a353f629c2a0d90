import Automata.Graph.Nondet

/-!
# Deterministic graphs

A state and a character have at most one target. A graph is complete for an alphabet
if each declared state has one on each of its characters.
-/

namespace Automata

structure DetGraph extends Graph Char where
  functional : ∀ e ∈ edges, ∀ f ∈ edges, e.source = f.source → e.label = f.label → e = f
deriving DecidableEq

namespace DetGraph

def ofStates (s : StateSet) : DetGraph := ⟨Graph.ofStates s, nofun⟩

instance : Inhabited DetGraph := ⟨ofStates ∅⟩

theorem ext {g h : DetGraph} (hg : g.toGraph = h.toGraph) : g = h := by
  cases g; cases h; simp_all

def target? (g : DetGraph) (q : State) (c : Char) : Option State :=
  (g.edges.least? fun e => e.source = q ∧ e.label = c).map Edge.target

theorem target?_eq_some {g : DetGraph} {p q : State} {c : Char} :
    g.target? p c = some q ↔ ⟨p, c, q⟩ ∈ g.edges := by
  rw [target?, Option.map_eq_some_iff]
  constructor
  · intro h
    obtain ⟨e, he, hq⟩ := h
    subst hq
    obtain ⟨hm, hp, _⟩ := SortedSet.least?_eq_some he
    simp only [decide_eq_true_eq] at hp
    obtain ⟨rfl, rfl⟩ := hp
    exact hm
  · intro he
    cases h : g.edges.least? fun e => e.source = p ∧ e.label = c with
    | none => exact absurd (SortedSet.least?_eq_none.mp h _ he) (by simp)
    | some f =>
      obtain ⟨hf, hp, _⟩ := SortedSet.least?_eq_some h
      simp only [decide_eq_true_eq] at hp
      exact ⟨f, rfl, by rw [g.functional f hf _ he hp.1 hp.2]⟩

theorem target?_eq_none {g : DetGraph} {p : State} {c : Char} :
    g.target? p c = none ↔ ∀ q, ⟨p, c, q⟩ ∉ g.edges := by
  rw [Option.eq_none_iff_forall_ne_some]
  exact forall_congr' fun q => not_congr target?_eq_some

def symbols (g : DetGraph) : Alphabet := g.edges.map Edge.label

theorem mem_symbols {g : DetGraph} {c : Char} : c ∈ g.symbols ↔ ∃ p q, ⟨p, c, q⟩ ∈ g.edges := by
  rw [symbols, SortedSet.mem_map]
  constructor
  · intro h
    obtain ⟨e, he, hc⟩ := h
    subst hc
    exact ⟨e.source, e.target, he⟩
  · intro h
    obtain ⟨p, q, he⟩ := h
    exact ⟨_, he, rfl⟩

/-! ## Editing -/

def declare (g : DetGraph) (q : State) : DetGraph := ⟨g.toGraph.declare q, g.functional⟩

def withdraw (g : DetGraph) (q : State) : DetGraph :=
  ⟨g.toGraph.withdraw q, fun e he f hf =>
    g.functional e (Graph.mem_edges_withdraw.mp he).1 f (Graph.mem_edges_withdraw.mp hf).1⟩

def addState (g : DetGraph) (q : State) : Bool × DetGraph := (q ∉ g.states, g.declare q)

def removeState (g : DetGraph) (q : State) : Bool × DetGraph :=
  if q ∈ g.states then (true, g.withdraw q) else (false, g)

theorem removeState_of_declared {g : DetGraph} {q : State} (h : q ∈ g.states) : g.removeState q = (true, g.withdraw q) :=
  if_pos h

theorem removeState_of_undeclared {g : DetGraph} {q : State} (h : q ∉ g.states) : g.removeState q = (false, g) :=
  if_neg h

/-- Makes the edge the only one with its source and label. -/
def direct (g : DetGraph) (e : Edge Char) : DetGraph where
  states := g.states
  edges := (g.edges.filter fun f => ¬ (f.source = e.source ∧ f.label = e.label)).insert e
  functional := by
    intro f hf f' hf' hs hl
    rw [SortedSet.mem_insert, SortedSet.mem_filter] at hf hf'
    simp only [decide_eq_true_eq] at hf hf'
    rcases hf with rfl | ⟨hf, hn⟩ <;> rcases hf' with rfl | ⟨hf', hn'⟩
    · rfl
    · exact absurd ⟨hs.symm, hl.symm⟩ hn'
    · exact absurd ⟨hs, hl⟩ hn
    · exact g.functional f hf f' hf' hs hl

theorem mem_edges_direct {g : DetGraph} {e f : Edge Char} :
    f ∈ (g.direct e).edges ↔ f = e ∨ f ∈ g.edges ∧ ¬ (f.source = e.source ∧ f.label = e.label) := by
  simp only [direct, SortedSet.mem_insert, SortedSet.mem_filter, decide_eq_true_eq]

/-- Directs the source to the target on a character and tells which target this replaces. -/
def addEdge (g : DetGraph) (e : Edge Symbol) : Except Error (Option State × DetGraph) :=
  match e.label with
  | .epsilon => .error (.epsilonInDeterministic e.source)
  | .char c => do
    g.states.require e.source
    g.states.require e.target
    return (g.target? e.source c, g.direct ⟨e.source, c, e.target⟩)

def tabulate (s : StateSet) (cs : Alphabet) (δ : State → Char → Option State) : DetGraph where
  states := s
  edges := .ofList (s.toList.flatMap fun q => cs.toList.filterMap fun c => (δ q c).map (⟨q, c, ·⟩))
  functional := by
    intro e he f hf hs hl
    simp only [SortedSet.mem_ofList, List.mem_flatMap, List.mem_filterMap, Option.map_eq_some_iff] at he hf
    obtain ⟨p, _, c, _, r, hr, rfl⟩ := he
    obtain ⟨p', _, c', _, r', hr', rfl⟩ := hf
    obtain rfl : p = p' := hs
    obtain rfl : c = c' := hl
    rw [Option.some.inj (hr.symm.trans hr')]

theorem mem_edges_tabulate {s : StateSet} {cs : Alphabet} {δ : State → Char → Option State} {p q : State}
    {c : Char} : ⟨p, c, q⟩ ∈ (tabulate s cs δ).edges ↔ p ∈ s ∧ c ∈ cs ∧ δ p c = some q := by
  simp only [tabulate, SortedSet.mem_ofList, List.mem_flatMap, List.mem_filterMap, Option.map_eq_some_iff]
  constructor
  · intro h
    obtain ⟨_, hp, _, hc, _, h, he⟩ := h
    cases he
    exact ⟨hp, hc, h⟩
  · intro h
    obtain ⟨hp, hc, h⟩ := h
    exact ⟨p, hp, c, hc, q, h, rfl⟩

/-! ## Completeness -/

def gaps (g : DetGraph) (cs : Alphabet) : List (State × Char) :=
  g.states.toList.flatMap fun q => (cs.toList.filter fun c => (g.target? q c).isNone).map (q, ·)

theorem mem_gaps {g : DetGraph} {cs : Alphabet} {q : State} {c : Char} :
    (q, c) ∈ g.gaps cs ↔ q ∈ g.states ∧ c ∈ cs ∧ g.target? q c = none := by
  simp only [gaps, List.mem_flatMap, List.mem_map, List.mem_filter, SortedSet.mem_toList, Option.isNone_iff_eq_none]
  constructor
  · intro h
    obtain ⟨_, hq, _, ⟨hc, h⟩, he⟩ := h
    cases he
    exact ⟨hq, hc, h⟩
  · intro h
    obtain ⟨hq, hc, h⟩ := h
    exact ⟨q, hq, c, ⟨hc, h⟩, rfl⟩

def requireComplete (g : DetGraph) (cs : Alphabet) : Except Error Unit :=
  match (g.gaps cs).head? with
  | some (q, c) => .error (.incompleteTable q c)
  | none => .ok ()

def isComplete (g : DetGraph) : Bool := (g.gaps g.symbols).isEmpty

theorem requireComplete_eq_ok {g : DetGraph} : g.requireComplete g.symbols = .ok () ↔ g.isComplete := by
  rw [isComplete, List.isEmpty_iff, requireComplete]
  split
  · rename_i q c h
    constructor
    · intro he; cases he
    · intro hn; rw [hn] at h; cases h
  · rename_i h
    exact iff_of_true rfl (List.head?_eq_none_iff.mp h)

theorem requireComplete_eq_error {g : DetGraph} {cs : Alphabet} {e : Error} (h : g.requireComplete cs = .error e) :
    ∃ q c, e = .incompleteTable q c := by
  unfold requireComplete at h
  split at h
  · cases h
    exact ⟨_, _, rfl⟩
  · cases h

theorem isComplete_iff {g : DetGraph} :
    g.isComplete ↔ ∀ q ∈ g.states, ∀ c ∈ g.symbols, ∃ r, g.target? q c = some r := by
  rw [isComplete, List.isEmpty_iff, List.eq_nil_iff_forall_not_mem]
  constructor
  · intro h q hq c hc
    have hn : g.target? q c ≠ none := fun hn => h (q, c) (mem_gaps.mpr ⟨hq, hc, hn⟩)
    exact Option.ne_none_iff_exists'.mp hn
  · intro h x hx
    obtain ⟨q, c⟩ := x
    obtain ⟨hq, hc, hn⟩ := mem_gaps.mp hx
    obtain ⟨r, hr⟩ := h q hq c hc
    rw [hr] at hn
    cases hn

/-! ## The nondeterministic view -/

def toNondet (g : DetGraph) : NondetGraph :=
  ⟨g.states, g.edges.map fun e => ⟨e.source, .char e.label, e.target⟩⟩

theorem mem_edges_toNondet {g : DetGraph} {p q : State} {x : Symbol} :
    ⟨p, x, q⟩ ∈ g.toNondet.edges ↔ ∃ c, x = .char c ∧ ⟨p, c, q⟩ ∈ g.edges := by
  simp only [toNondet, SortedSet.mem_map]
  constructor
  · intro h
    obtain ⟨e, he, h⟩ := h
    cases h
    exact ⟨_, rfl, he⟩
  · intro h
    obtain ⟨c, hx, he⟩ := h
    subst hx
    exact ⟨_, he, rfl⟩

end DetGraph

end Automata
