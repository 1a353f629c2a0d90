import Automata.Run
import Mathlib.Computability.Language

/-!
# Acceptance by paths

A run of either kind succeeds iff some path from the initial state to a final one spells
the word (`run_iff_spells`).
-/

namespace Automata

namespace NondetGraph

variable {g : NondetGraph} {s : StateSet} {p q r : State} {u w : List Char} {c : Char} {t : Trailing}

theorem walk_append : g.walk s (u ++ w) = g.walk (g.walk s u) w := List.foldl_append ..

theorem walk_cons : g.walk s (c :: w) = g.walk (g.move s (.char c)) w := rfl

theorem mem_closure_walk : ∀ {w : List Char} {s : StateSet},
    r ∈ g.closure (g.walk s w) ↔ ∃ p ∈ s, g.Path p w r
  | [], s => mem_closure
  | c :: w, s => by
    rw [walk_cons, mem_closure_walk]
    constructor
    · intro h
      obtain ⟨q', hq', h⟩ := h
      obtain ⟨p, hp, q, hpq, he⟩ := mem_move_char.mp hq'
      exact ⟨p, hp, hpq.trans (.char he h)⟩
    · intro h
      obtain ⟨p, hp, h⟩ := h
      obtain ⟨q, q', hpq, he, h⟩ := h.uncons
      exact ⟨q', mem_move_char.mpr ⟨p, hp, q, hpq, he⟩, h⟩

theorem mem_walk_snoc :
    r ∈ g.walk s (u ++ [c]) ↔ ∃ p ∈ s, ∃ q, g.Path p u q ∧ ⟨q, .char c, r⟩ ∈ g.edges := by
  have h : r ∈ g.walk s (u ++ [c]) ↔ ∃ q ∈ g.closure (g.walk s u), ⟨q, .char c, r⟩ ∈ g.edges := by
    rw [walk_append]; exact Graph.mem_image
  rw [h]
  constructor
  · intro h
    obtain ⟨q, hq, he⟩ := h
    obtain ⟨p, hp, hpq⟩ := mem_closure_walk.mp hq
    exact ⟨p, hp, q, hpq, he⟩
  · intro h
    obtain ⟨p, hp, q, hpq, he⟩ := h
    exact ⟨q, mem_closure_walk.mpr ⟨p, hp, hpq⟩, he⟩

/-! ## Where a word leads -/

/-- From `p` the word leads to `r`. If trailing epsilon edges are ignored, nothing follows the edge that
reads the last character; with no character to read, epsilon edges count all the same. -/
def Leads (g : NondetGraph) : Trailing → State → List Char → State → Prop
  | .follow, p, w, r => g.Path p w r
  | .ignore, p, w, r => (w = [] ∧ g.Path p [] r) ∨
      ∃ u c q, w = u ++ [c] ∧ g.Path p u q ∧ ⟨q, .char c, r⟩ ∈ g.edges

theorem leads_nil : g.Leads t p [] r ↔ g.Path p [] r := by
  cases t with
  | follow => exact Iff.rfl
  | ignore => simp [Leads]

theorem leads_ignore_snoc :
    g.Leads .ignore p (u ++ [c]) r ↔ ∃ q, g.Path p u q ∧ ⟨q, .char c, r⟩ ∈ g.edges := by
  constructor
  · intro h
    rcases h with ⟨h, _⟩ | ⟨u', c', q, h, hp, he⟩
    · simp at h
    · obtain ⟨rfl, h⟩ := List.append_inj' h rfl
      obtain rfl : c = c' := by simpa using h
      exact ⟨q, hp, he⟩
  · intro h
    obtain ⟨q, hp, he⟩ := h
    exact .inr ⟨u, c, q, rfl, hp, he⟩

theorem Leads.path (h : g.Leads t p w r) : g.Path p w r := by
  cases t with
  | follow => exact h
  | ignore =>
    rcases h with ⟨rfl, h⟩ | ⟨u, c, q, rfl, hp, he⟩
    · exact h
    · exact hp.trans (.of_char he)

theorem mem_closure_singleton : q ∈ g.closure (.singleton p) ↔ g.Path p [] q := by
  rw [mem_closure]
  simp

theorem mem_walk_closure : r ∈ g.walk (g.closure (.singleton p)) w ↔ g.Leads .ignore p w r := by
  rcases List.eq_nil_or_concat w with rfl | ⟨u, c, rfl⟩
  · rw [leads_nil]
    exact mem_closure_singleton
  rw [List.concat_eq_append, mem_walk_snoc, leads_ignore_snoc]
  constructor
  · intro h
    obtain ⟨p', hp', q, h, he⟩ := h
    exact ⟨q, (mem_closure_singleton.mp hp').trans h, he⟩
  · intro h
    obtain ⟨q, h, he⟩ := h
    exact ⟨p, mem_closure_singleton.mpr (.nil p), q, h, he⟩

theorem mem_closure_walk_closure : r ∈ g.closure (g.walk (g.closure (.singleton p)) w) ↔ g.Path p w r := by
  rw [mem_closure_walk]
  constructor
  · intro h
    obtain ⟨p', hp', h⟩ := h
    exact (mem_closure_singleton.mp hp').trans h
  · intro h
    exact ⟨p, mem_closure_singleton.mpr (.nil p), h⟩

theorem walk_empty : ∀ w : List Char, g.walk ∅ w = ∅
  | [] => rfl
  | c :: w => by
    have h : g.move ∅ (.char c) = ∅ := SortedSet.ext fun r => by simp [mem_move_char]
    rw [walk_cons, h, walk_empty w]

end NondetGraph

/-! ## Deterministic graphs -/

namespace DetGraph

variable {g : DetGraph} {p q r : State} {w : List Char} {t : Trailing}

theorem path_nil_iff : g.toNondet.Path p [] r ↔ p = r := by
  constructor
  · intro h
    cases h with
    | nil => rfl
    | epsilon he _ =>
      obtain ⟨c, h, _⟩ := mem_edges_toNondet.mp he
      cases h
  · intro h
    subst h
    exact .nil p

theorem run?_eq_some : ∀ {w : List Char} {p : State}, g.run? p w = some r ↔ g.toNondet.Path p w r
  | [], p => by rw [path_nil_iff]; simp [run?]
  | c :: w, p => by
    have hc : g.run? p (c :: w) = (g.target? p c).bind (g.run? · w) := rfl
    rw [hc, Option.bind_eq_some_iff]
    constructor
    · intro h
      obtain ⟨q, hq, h⟩ := h
      exact .char (mem_edges_toNondet.mpr ⟨c, rfl, target?_eq_some.mp hq⟩) (run?_eq_some.mp h)
    · intro h
      obtain ⟨p', q, hp, he, h⟩ := h.uncons
      obtain rfl := path_nil_iff.mp hp
      obtain ⟨c', hc', he⟩ := mem_edges_toNondet.mp he
      cases hc'
      exact ⟨q, target?_eq_some.mpr he, run?_eq_some.mpr h⟩

theorem leads_iff_path : g.toNondet.Leads t p w r ↔ g.toNondet.Path p w r := by
  refine ⟨NondetGraph.Leads.path, fun h => ?_⟩
  cases t with
  | follow => exact h
  | ignore =>
    rcases List.eq_nil_or_concat w with rfl | ⟨u, c, rfl⟩
    · exact NondetGraph.leads_nil.mpr h
    rw [List.concat_eq_append] at h ⊢
    obtain ⟨q, hu, h⟩ := h.split
    obtain ⟨q', r', hq, he, hr⟩ := h.uncons
    obtain rfl := path_nil_iff.mp hq
    obtain rfl := path_nil_iff.mp hr
    exact NondetGraph.leads_ignore_snoc.mpr ⟨q, hu, he⟩

end DetGraph

/-! ## Acceptance -/

namespace Automaton

variable {a : Automaton} {w : List Char} {t : Trailing}

/-- The word leads from the initial state to a final one. -/
def Spells (a : Automaton) (t : Trailing) (w : List Char) : Prop :=
  ∃ p, a.initial = some p ∧ ∃ q ∈ a.finals, a.graph.Leads t p w q

theorem spells_of_initial {p : State} (h : a.initial = some p) :
    a.Spells t w ↔ ∃ q ∈ a.finals, a.graph.Leads t p w q := by
  simp [Spells, h]

theorem start_of_initial {p : State} (h : a.initial = some p) :
    a.start = a.graph.closure (.singleton p) := by
  unfold start
  rw [h]
  rfl

theorem not_accepting_empty : a.accepting ∅ = false := by
  have h : a.graph.closure ∅ = ∅ := SortedSet.ext fun q => by simp [NondetGraph.mem_closure]
  unfold accepting
  cases a.options.trailing <;> simp [h, SortedSet.meets]

theorem accepting_walk_start :
    a.accepting (a.graph.walk a.start w) ↔ a.Spells a.options.trailing w := by
  cases h : a.initial with
  | none =>
    have hs : a.start = ∅ := SortedSet.ext fun q => by simp [start, h, NondetGraph.mem_closure]
    rw [hs, NondetGraph.walk_empty, not_accepting_empty]
    simp [Spells, h]
  | some p =>
    rw [spells_of_initial h, start_of_initial h]
    unfold accepting
    cases a.options.trailing with
    | follow =>
      simp only [SortedSet.meets_iff, NondetGraph.mem_closure_walk_closure, NondetGraph.Leads, and_comm]
    | ignore =>
      simp only [SortedSet.meets_iff, NondetGraph.mem_walk_closure, and_comm]

theorem run_iff_spells : a.run w ↔ a.Spells a.options.trailing w := by
  unfold run
  split
  · rename_i g hg
    simp only [Option.any_eq_true, Option.bind_eq_some_iff, decide_eq_true_eq, DetGraph.run?_eq_some]
    unfold Spells
    rw [graph_of_det hg]
    simp only [DetGraph.leads_iff_path]
    constructor
    · intro h
      obtain ⟨q, ⟨p, hp, h⟩, hq⟩ := h
      exact ⟨p, hp, q, hq, h⟩
    · intro h
      obtain ⟨p, hp, q, hq, h⟩ := h
      exact ⟨q, ⟨p, hp, h⟩, hq⟩
  · rename_i g hg
    rw [← graph_of_nondet hg]
    exact accepting_walk_start

theorem run_eq_accepting_walk : a.run w = a.accepting (a.graph.walk a.start w) := by
  rw [Bool.eq_iff_iff, run_iff_spells, accepting_walk_start]

/-- The words that the automaton accepts; there are none if it is not valid. -/
def language (a : Automaton) : Language Char := {w | a.accepts w = .ok true}

def under (a : Automaton) (t : Trailing) : Automaton := a.setOptions (a.options.withTrailing t)

theorem accepts_of_valid (h : a.Valid) (w : List Char) : a.accepts w = .ok (a.run w) := by
  unfold accepts
  rw [validate_eq_ok.mpr h]
  rfl

theorem mem_language (h : a.Valid) : w ∈ a.language ↔ a.Spells a.options.trailing w := by
  rw [← run_iff_spells]
  show a.accepts w = .ok true ↔ _
  rw [accepts_of_valid h, Except.ok.injEq]

theorem mem_language_of_follow (h : a.Valid) (ht : a.options.trailing = .follow) :
    w ∈ a.language ↔ a.Spells .follow w := by
  rw [mem_language h, ht]

theorem Valid.under (h : a.Valid) (t : Trailing) : (a.under t).Valid :=
  ⟨h.initial, h.finals, h.designated, h.closed, h.complete⟩

theorem mem_language_under (h : a.Valid) : w ∈ (a.under t).language ↔ a.Spells t w :=
  mem_language (h.under t)

end Automaton

end Automata
