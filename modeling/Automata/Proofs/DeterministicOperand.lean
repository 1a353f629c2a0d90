import Automata.Proofs.Gluing
import Automata.Proofs.ShortlexNumbering

/-!
# The subsets of a deterministic automaton

A word leads at most to one state of a deterministic automaton, so the frontiers are
singletons (`frontiers_of_det`).
-/

namespace Automata

namespace DetGraph

variable {g : DetGraph} {p q : State} {c : Char} {w : List Char} {s : StateSet}

theorem closure_toNondet : g.toNondet.closure s = s := by
  apply SortedSet.ext
  intro q
  rw [NondetGraph.mem_closure]
  simp only [path_nil_iff, exists_eq_right]

theorem move_singleton (he : ⟨p, c, q⟩ ∈ g.edges) : g.toNondet.move (.singleton p) (.char c) = .singleton q := by
  apply SortedSet.ext
  intro r
  rw [NondetGraph.mem_move_char, SortedSet.mem_singleton]
  constructor
  · intro h
    obtain ⟨p', hp', q', hq', he'⟩ := h
    obtain rfl := SortedSet.mem_singleton.mp hp'
    obtain rfl := path_nil_iff.mp hq'
    obtain ⟨b, hb, he'⟩ := mem_edges_toNondet.mp he'
    cases hb
    exact congrArg Edge.target (g.functional _ he' _ he rfl rfl)
  · intro e
    subst e
    exact ⟨p, SortedSet.mem_singleton.mpr rfl, p, .nil p, mem_edges_toNondet.mpr ⟨c, rfl, he⟩⟩

theorem walk_singleton (h : g.toNondet.Path p w q) : g.toNondet.walk (.singleton p) w = .singleton q := by
  induction h with
  | nil => rfl
  | epsilon he _ _ =>
    obtain ⟨_, hx, _⟩ := mem_edges_toNondet.mp he
    cases hx
  | char he _ ih =>
    obtain ⟨_, hx, he⟩ := mem_edges_toNondet.mp he
    cases hx
    rw [NondetGraph.walk_cons, move_singleton he, ih]

end DetGraph

theorem SortedSet.singleton_injective {α : Type} [Ord α] : Function.Injective (SortedSet.singleton (α := α)) :=
  fun _ _ h => List.singleton_injective (congrArg SortedSet.toList h)

namespace Automaton

variable {a : Automaton} {g : DetGraph} {p q : State} {c : Char} {w : List Char}

def reached (a : Automaton) : Set State := {q | ∃ w, a.Reaches w q}

theorem initial_mem_reached (hp : a.initial = some p) : p ∈ a.reached := ⟨[], p, hp, .nil p⟩

theorem mem_reached_of_path (hp : p ∈ a.reached) (h : a.graph.Path p w q) : q ∈ a.reached := by
  obtain ⟨u, p₀, hp₀, hu⟩ := hp
  exact ⟨u ++ w, p₀, hp₀, hu.trans h⟩

theorem Valid.mem_states_of_reached (hv : a.Valid) (hq : q ∈ a.reached) : q ∈ a.states := by
  obtain ⟨w, p, hp, h⟩ := hq
  rw [← states_graph]
  exact (h.confine (NondetGraph.confines_self hv.closed) (hv.initial_declared hp)).2

theorem NumberedFrom.mem_reached {m : Allocator} (h : a.NumberedFrom m) (hq : q ∈ a.states) : q ∈ a.reached := by
  obtain ⟨w, hw⟩ := h.exists_firstWord q hq
  exact ⟨w, hw.reaches⟩

theorem NumberedFrom.ncard_reached {m : Allocator} (h : a.NumberedFrom m) (hv : a.Valid) :
    a.reached.ncard = a.size := by
  have hr : a.reached = {q | q ∈ a.states.toList} :=
    Set.ext fun q => ⟨fun hq => hv.mem_states_of_reached hq, fun hq => h.mem_reached hq⟩
  rw [hr, ncard_setOf_mem a.states.nodup_toList]
  rfl

theorem mem_symbols_of_path (h : a.graph.Path p w q) : ∀ c ∈ w, c ∈ a.symbols := by
  induction h with
  | nil => exact nofun
  | epsilon _ _ ih => exact ih
  | char he _ ih => exact List.forall_mem_cons.mpr ⟨mem_symbols.mpr ⟨_, _, he⟩, ih⟩

/-! ## Frontiers of a deterministic automaton -/

section
variable (hg : a.table = .det g)
include hg

theorem move_singleton (he : ⟨p, .char c, q⟩ ∈ a.edges) : a.graph.move (.singleton p) (.char c) = .singleton q := by
  rw [graph_of_det hg]
  exact DetGraph.move_singleton ((mem_edges_of_det hg).mp he)

theorem frontier_of_reaches (h : a.Reaches w q) : a.frontier w = .singleton q := by
  obtain ⟨p, hp, h⟩ := h
  unfold frontier
  rw [start_of_initial hp]
  rw [graph_of_det hg] at h ⊢
  rw [DetGraph.closure_toNondet, DetGraph.walk_singleton h]

theorem accepting_singleton : a.accepting (.singleton q) ↔ q ∈ a.finals := by
  unfold accepting
  rw [graph_of_det hg, DetGraph.closure_toNondet]
  cases a.options.trailing <;> simp [SortedSet.meets_iff]

variable (hv : a.Valid)
include hv

theorem Valid.exists_target (hq : q ∈ a.states) (hc : c ∈ a.symbols) : ∃ r, ⟨q, .char c, r⟩ ∈ a.edges := by
  rw [states_of_det hg] at hq
  rw [symbols_of_det hg] at hc
  obtain ⟨r, hr⟩ := DetGraph.isComplete_iff.mp (hv.complete g hg) q hq c hc
  exact ⟨r, (mem_edges_of_det hg).mpr (DetGraph.target?_eq_some.mp hr)⟩

theorem Valid.exists_path : ∀ {w : List Char} {p : State}, p ∈ a.states → (∀ c ∈ w, c ∈ a.symbols) →
    ∃ q, a.graph.Path p w q
  | [], p, _, _ => ⟨p, .nil p⟩
  | c :: w, p, hp, hw => by
    obtain ⟨hc, hw⟩ := List.forall_mem_cons.mp hw
    obtain ⟨r, he⟩ := hv.exists_target hg hp hc
    have hr : r ∈ a.states := by
      rw [← states_graph]
      exact (hv.closed _ he).2
    obtain ⟨q, h⟩ := exists_path hr hw
    exact ⟨q, .char he h⟩

theorem frontiers_of_det : a.frontiers = SortedSet.singleton '' a.reached := by
  apply Set.ext
  intro s
  constructor
  · intro hs
    obtain ⟨w, hw, rfl⟩ := hs
    obtain ⟨p, hp, hps⟩ := hv.exists_initial
    rw [states_graph] at hps
    obtain ⟨q, h⟩ := hv.exists_path hg hps hw
    have hq : a.Reaches w q := ⟨p, hp, h⟩
    exact ⟨q, ⟨w, hq⟩, (frontier_of_reaches hg hq).symm⟩
  · intro hs
    obtain ⟨q, ⟨w, hq⟩, rfl⟩ := hs
    have hpath := hq
    obtain ⟨p, _, h⟩ := hpath
    exact ⟨w, mem_symbols_of_path h, frontier_of_reaches hg hq⟩

theorem ncard_frontiers_of_det : a.frontiers.ncard = a.reached.ncard := by
  rw [frontiers_of_det hg hv, Set.ncard_image_of_injective _ SortedSet.singleton_injective]

theorem bijOn_singleton : Set.BijOn SortedSet.singleton a.reached a.frontiers := by
  rw [frontiers_of_det hg hv]
  exact SortedSet.singleton_injective.injOn.bijOn_image

end

end Automaton

end Automata
