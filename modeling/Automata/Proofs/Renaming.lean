import Automata.Proofs.Numbering
import Mathlib.Logic.Embedding.Basic

/-! # Renaming the states -/

namespace Automata

variable {L : Type} [Ord L] {r : State ↪ State} {p q : State} {s : StateSet}

theorem mem_map_rename : r q ∈ s.map r ↔ q ∈ s := by
  rw [SortedSet.mem_map]
  constructor
  · intro h
    obtain ⟨p, hp, h⟩ := h
    rwa [← r.injective h]
  · intro h
    exact ⟨q, h, rfl⟩

theorem map_rename_injective : Function.Injective fun s : StateSet => s.map r := by
  intro s t h
  apply SortedSet.ext
  intro q
  have h : s.map r = t.map r := h
  rw [← mem_map_rename (r := r), h, mem_map_rename]

def Edge.rename (r : State ↪ State) (e : Edge L) : Edge L := ⟨r e.source, e.label, r e.target⟩

def Graph.rename [Std.TransOrd L] [Std.LawfulEqOrd L] (r : State ↪ State) (g : Graph L) : Graph L :=
  ⟨g.states.map r, g.edges.map (Edge.rename r)⟩

theorem Graph.mem_edges_rename [Std.TransOrd L] [Std.LawfulEqOrd L] {g : Graph L} {p' q' : State} {x : L} :
    ⟨p', x, q'⟩ ∈ (g.rename r).edges ↔ ∃ p q, ⟨p, x, q⟩ ∈ g.edges ∧ r p = p' ∧ r q = q' := by
  unfold rename
  rw [SortedSet.mem_map]
  constructor
  · intro h
    obtain ⟨e, he, h⟩ := h
    cases h
    exact ⟨e.source, e.target, he, rfl, rfl⟩
  · intro h
    obtain ⟨p, q, he, rfl, rfl⟩ := h
    exact ⟨_, he, rfl⟩

theorem Graph.exists_edge_rename [Std.TransOrd L] [Std.LawfulEqOrd L] {g : Graph L} {x : L} :
    (∃ p q, ⟨p, x, q⟩ ∈ (g.rename r).edges) ↔ ∃ p q, ⟨p, x, q⟩ ∈ g.edges := by
  constructor
  · intro h
    obtain ⟨_, _, he⟩ := h
    obtain ⟨p, q, he, _, _⟩ := mem_edges_rename.mp he
    exact ⟨p, q, he⟩
  · intro h
    obtain ⟨p, q, he⟩ := h
    exact ⟨r p, r q, mem_edges_rename.mpr ⟨p, q, he, rfl, rfl⟩⟩

def DetGraph.rename (r : State ↪ State) (g : DetGraph) : DetGraph where
  toGraph := g.toGraph.rename r
  functional := by
    intro e' he' f' hf' hs hl
    obtain ⟨e, he, rfl⟩ := SortedSet.mem_map.mp he'
    obtain ⟨f, hf, rfl⟩ := SortedSet.mem_map.mp hf'
    rw [g.functional e he f hf (r.injective hs) hl]

def Table.rename (r : State ↪ State) : Table → Table
  | .det g => .det (g.rename r)
  | .nondet g => .nondet (Graph.rename r g)

def Automaton.rename (r : State ↪ State) (a : Automaton) : Automaton :=
  ⟨a.table.rename r, a.initial.map r, a.finals.map r, a.options⟩

/-! ## Paths, closures and moves -/

namespace NondetGraph

variable {g : NondetGraph} {w : List Char} {c : Char}

theorem path_rename {q' : State} : Path (Graph.rename r g) (r p) w q' ↔ ∃ q, r q = q' ∧ g.Path p w q := by
  constructor
  · intro h
    generalize hp : r p = p' at h
    induction h generalizing p with
    | nil => exact ⟨p, hp, .nil p⟩
    | epsilon he _ ih =>
      subst hp
      obtain ⟨p₁, q₁, he, hp, hq⟩ := Graph.mem_edges_rename.mp he
      obtain ⟨q, hq', h⟩ := ih hq
      rw [r.injective hp] at he
      exact ⟨q, hq', .epsilon he h⟩
    | char he _ ih =>
      subst hp
      obtain ⟨p₁, q₁, he, hp, hq⟩ := Graph.mem_edges_rename.mp he
      obtain ⟨q, hq', h⟩ := ih hq
      rw [r.injective hp] at he
      exact ⟨q, hq', .char he h⟩
  · intro h
    obtain ⟨q, rfl, h⟩ := h
    induction h with
    | nil => exact .nil _
    | epsilon he _ ih => exact .epsilon (Graph.mem_edges_rename.mpr ⟨_, _, he, rfl, rfl⟩) ih
    | char he _ ih => exact .char (Graph.mem_edges_rename.mpr ⟨_, _, he, rfl, rfl⟩) ih

theorem closure_rename : closure (Graph.rename r g) (s.map r) = (g.closure s).map r := by
  apply SortedSet.ext
  intro q'
  rw [mem_closure, SortedSet.mem_map]
  constructor
  · intro h
    obtain ⟨p', hp', h⟩ := h
    obtain ⟨p, hp, rfl⟩ := SortedSet.mem_map.mp hp'
    obtain ⟨q, hq, h⟩ := path_rename.mp h
    exact ⟨q, mem_closure.mpr ⟨p, hp, h⟩, hq⟩
  · intro h
    obtain ⟨q, hq, hr⟩ := h
    obtain ⟨p, hp, h⟩ := mem_closure.mp hq
    exact ⟨r p, mem_map_rename.mpr hp, path_rename.mpr ⟨q, hr, h⟩⟩

theorem image_rename {x : Symbol} : (Graph.rename r g).image (s.map r) x = (g.image s x).map r := by
  apply SortedSet.ext
  intro q'
  rw [Graph.mem_image, SortedSet.mem_map]
  constructor
  · intro h
    obtain ⟨p', hp', he'⟩ := h
    obtain ⟨p, q, he, rfl, hq⟩ := Graph.mem_edges_rename.mp he'
    exact ⟨q, Graph.mem_image.mpr ⟨p, mem_map_rename.mp hp', he⟩, hq⟩
  · intro h
    obtain ⟨q, hq, hr⟩ := h
    obtain ⟨p, hp, he⟩ := Graph.mem_image.mp hq
    exact ⟨r p, mem_map_rename.mpr hp, Graph.mem_edges_rename.mpr ⟨p, q, he, rfl, hr⟩⟩

theorem move_rename : move (Graph.rename r g) (s.map r) (.char c) = (g.move s (.char c)).map r := by
  unfold move
  simp only
  rw [closure_rename, image_rename]

end NondetGraph

namespace DetGraph

variable {g : DetGraph} {c : Char}

theorem toNondet_rename : (g.rename r).toNondet = Graph.rename r g.toNondet := by
  refine Graph.ext (fun _ => Iff.rfl) fun e => ?_
  obtain ⟨p', x, q'⟩ := e
  rw [mem_edges_toNondet, Graph.mem_edges_rename]
  simp only [mem_edges_toNondet]
  constructor
  · intro h
    obtain ⟨c, hx, he⟩ := h
    obtain ⟨p, q, he, hp, hq⟩ := Graph.mem_edges_rename.mp he
    exact ⟨p, q, ⟨c, hx, he⟩, hp, hq⟩
  · intro h
    obtain ⟨p, q, ⟨c, hx, he⟩, hp, hq⟩ := h
    exact ⟨c, hx, Graph.mem_edges_rename.mpr ⟨p, q, he, hp, hq⟩⟩

theorem symbols_rename : (g.rename r).symbols = g.symbols := by
  apply SortedSet.ext
  intro c
  rw [mem_symbols, mem_symbols]
  exact Graph.exists_edge_rename

theorem isComplete_rename (h : g.isComplete) : (g.rename r).isComplete := by
  rw [isComplete_iff] at h ⊢
  intro q' hq' c hc
  rw [symbols_rename] at hc
  obtain ⟨q, hq, rfl⟩ := SortedSet.mem_map.mp hq'
  obtain ⟨t, ht⟩ := h q hq c hc
  exact ⟨r t, target?_eq_some.mpr (Graph.mem_edges_rename.mpr ⟨q, t, target?_eq_some.mp ht, rfl, rfl⟩)⟩

end DetGraph

namespace Automaton

variable {a : Automaton}

theorem graph_rename : (a.rename r).graph = Graph.rename r a.graph := by
  cases h : a.table with
  | det g =>
    have hr : (a.rename r).table = .det (g.rename r) := by rw [rename, h]; rfl
    rw [graph_of_det hr, graph_of_det h, DetGraph.toNondet_rename]
  | nondet g =>
    have hr : (a.rename r).table = .nondet (Graph.rename r g) := by rw [rename, h]; rfl
    rw [graph_of_nondet hr, graph_of_nondet h]

theorem states_rename : (a.rename r).states = a.states.map r := by
  rw [← states_graph, ← states_graph, graph_rename]
  rfl

theorem symbols_rename : (a.rename r).symbols = a.symbols := by
  apply SortedSet.ext
  intro c
  rw [mem_symbols, mem_symbols, graph_rename]
  exact Graph.exists_edge_rename

theorem Valid.rename (h : a.Valid) (r : State ↪ State) : (a.rename r).Valid where
  initial := by
    obtain ⟨p, hp, _⟩ := h.exists_initial
    simp [Automaton.rename, hp]
  finals := by
    obtain ⟨q, hq⟩ := h.finals
    exact ⟨r q, mem_map_rename.mpr hq⟩
  designated q' hq' := by
    rw [states_rename, SortedSet.mem_map]
    rcases mem_designated.mp hq' with hq' | hq'
    · obtain ⟨q, hq, hr⟩ := Option.map_eq_some_iff.mp hq'
      exact ⟨q, h.designated q (mem_designated.mpr (.inl hq)), hr⟩
    · obtain ⟨q, hq, hr⟩ := SortedSet.mem_map.mp hq'
      exact ⟨q, h.designated q (mem_designated.mpr (.inr hq)), hr⟩
  closed := by
    rw [graph_rename]
    intro e' he'
    obtain ⟨e, he, rfl⟩ := SortedSet.mem_map.mp he'
    exact ⟨mem_map_rename.mpr (h.closed e he).1, mem_map_rename.mpr (h.closed e he).2⟩
  complete g' hg' := by
    cases ht : a.table with
    | det g =>
      obtain rfl : g.rename r = g' := by simpa [Automaton.rename, ht, Table.rename] using hg'
      exact DetGraph.isComplete_rename (h.complete g ht)
    | nondet g => simp [Automaton.rename, ht, Table.rename] at hg'

end Automaton

end Automata
