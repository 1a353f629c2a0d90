import Automata.Proofs.NondetView

/-!
# The direct run of a deterministic automaton

In a valid automaton the run comes to declared states only, and these have a target on
each character of the automaton.
-/

namespace Automata

namespace DetGraph

variable {g : DetGraph} {p q r : State} {c : Char} {w : List Char}

/-- Along the word the run comes to a state without a target on the character that is next. -/
inductive Stuck (g : DetGraph) : State → List Char → Prop
  | here {p : State} {c : Char} {w : List Char} : g.target? p c = none → Stuck g p (c :: w)
  | later {p q : State} {c : Char} {w : List Char} : g.target? p c = some q → Stuck g q w → Stuck g p (c :: w)

theorem run?_cons : g.run? p (c :: w) = (g.target? p c).bind (g.run? · w) := rfl

theorem run?_eq_none : ∀ {w : List Char} {p : State}, g.run? p w = none ↔ g.Stuck p w
  | [], p => iff_of_false nofun nofun
  | c :: w, p => by
    rw [run?_cons]
    cases hc : g.target? p c with
    | none => exact iff_of_true rfl (.here hc)
    | some q =>
      refine run?_eq_none.trans ⟨.later hc, fun h => ?_⟩
      cases h with
      | here hn => cases hc.symm.trans hn
      | later hq h =>
        cases hc.symm.trans hq
        exact h

theorem target?_eq_none_iff (hc : g.isComplete) (hq : q ∈ g.states) : g.target? q c = none ↔ c ∉ g.symbols := by
  constructor
  · intro hn hs
    obtain ⟨r, hr⟩ := isComplete_iff.mp hc q hq c hs
    cases hn.symm.trans hr
  · intro hs
    refine target?_eq_none.mpr fun r he => hs ?_
    exact mem_symbols.mpr ⟨q, r, he⟩

section
variable (hcl : g.Closed)
include hcl

theorem target?_declared (h : g.target? p c = some q) : q ∈ g.states := (hcl _ (target?_eq_some.mp h)).2

theorem run?_declared : ∀ {w : List Char} {p : State}, p ∈ g.states → g.run? p w = some r → r ∈ g.states
  | [], p, hp, h => by
    cases h
    exact hp
  | c :: w, p, _, h => by
    obtain ⟨q, hq, h⟩ := Option.bind_eq_some_iff.mp (run?_cons.symm.trans h)
    exact run?_declared (target?_declared hcl hq) h

/-- Each step finds a target unless the character is foreign, and comes to a state where that is so again. -/
theorem stuck_iff_foreign (hc : g.isComplete) : ∀ {w : List Char} {p : State}, p ∈ g.states →
    (g.Stuck p w ↔ ∃ c ∈ w, c ∉ g.symbols)
  | [], p, _ => iff_of_false nofun nofun
  | c :: w, p, hp => by
    rw [List.exists_mem_cons_iff, ← run?_eq_none, run?_cons]
    cases ht : g.target? p c with
    | none => exact iff_of_true rfl (.inl ((target?_eq_none_iff hc hp).mp ht))
    | some q =>
      have hown : ¬ c ∉ g.symbols := fun hn => by
        cases ht.symm.trans ((target?_eq_none_iff hc hp).mpr hn)
      rw [or_iff_right hown]
      exact run?_eq_none.trans (stuck_iff_foreign hc (target?_declared hcl ht))

end

end DetGraph

namespace Automaton

variable {a : Automaton} {g : DetGraph} {p : State} {w : List Char}

theorem run_of_det (hg : a.table = .det g) (hp : a.initial = some p) :
    a.run w = (g.run? p w).any (· ∈ a.finals) := by
  unfold run
  rw [hg, hp]
  rfl

theorem Valid.closed_of_det (h : a.Valid) (hg : a.table = .det g) : g.Closed := by
  intro e he
  have hc := h.closed
  rw [graph_of_det hg] at hc
  exact hc ⟨e.source, .char e.label, e.target⟩ (DetGraph.mem_edges_toNondet.mpr ⟨_, rfl, he⟩)

/-- A valid deterministic automaton gets stuck on a word iff it has a character that is foreign to the automaton. -/
theorem det_stuck_iff_foreign {a : Automaton} {g : DetGraph} (hv : a.validate = .ok ()) (hg : a.table = .det g) :
    ∃ p, a.initial = some p ∧ ∀ w,
      (g.Stuck p w ↔ ∃ c ∈ w, c ∉ a.symbols) ∧
      (g.Stuck p w → a.accepts w = .ok false) ∧
      (¬ g.Stuck p w → (∀ u, u <+: w → ∃ q ∈ a.states, g.run? p u = some q) ∧
        ∃ r, g.run? p w = some r ∧ a.accepts w = .ok (decide (r ∈ a.finals))) := by
  have h := validate_eq_ok.mp hv
  obtain ⟨p, hp, hps⟩ := h.exists_initial
  rw [states_graph, states_of_det hg] at hps
  have hcl := h.closed_of_det hg
  have hstuck : ∀ u, g.Stuck p u ↔ ∃ c ∈ u, c ∉ a.symbols := fun u => by
    rw [symbols_of_det hg]
    exact DetGraph.stuck_iff_foreign hcl (h.complete g hg) hps
  refine ⟨p, hp, fun w => ⟨hstuck w, fun hw => ?_, fun hw => ?_⟩⟩
  · rw [accepts_of_valid h, run_of_det hg hp, DetGraph.run?_eq_none.mpr hw]
    rfl
  · have hread : ∀ u, u <+: w → ∃ q ∈ a.states, g.run? p u = some q := by
      intro u hu
      have hnu : g.run? p u ≠ none := fun hn => by
        obtain ⟨c, hc, hs⟩ := (hstuck u).mp (DetGraph.run?_eq_none.mp hn)
        exact hw ((hstuck w).mpr ⟨c, hu.subset hc, hs⟩)
      obtain ⟨q, hq⟩ := Option.ne_none_iff_exists'.mp hnu
      rw [states_of_det hg]
      exact ⟨q, DetGraph.run?_declared hcl hps hq, hq⟩
    obtain ⟨r, _, hr⟩ := hread w (List.prefix_refl w)
    refine ⟨hread, r, hr, ?_⟩
    rw [accepts_of_valid h, run_of_det hg hp, hr]
    rfl

theorem det_stuck_iff_foreign_oddXs :
    oddXs.validate = .ok () ∧ ∃ g, oddXs.table = .det g ∧ ∃ p, oddXs.initial = some p ∧
      (g.Stuck p ['x', 'y', 'x'] ∧ oddXs.accepts ['x', 'y', 'x'] = .ok false) ∧
      (∀ u, u <+: ['x', 'x'] → ∃ q ∈ oddXs.states, g.run? p u = some q) ∧
      ∃ r, g.run? p ['x', 'x'] = some r ∧ oddXs.accepts ['x', 'x'] = .ok (decide (r ∈ oddXs.finals)) := by
  obtain ⟨p, hp, h⟩ := det_stuck_iff_foreign (a := oddXs) rfl rfl
  obtain ⟨hiff, hreject, _⟩ := h ['x', 'y', 'x']
  obtain ⟨hiff', _, hread⟩ := h ['x', 'x']
  have hs := hiff.mpr ⟨'y', by decide, by decide⟩
  have hx : 'x' ∈ oddXs.symbols := by decide
  have hn := mt hiff'.mp (by simpa using hx)
  exact ⟨rfl, _, rfl, p, hp, ⟨hs, hreject hs⟩, hread hn⟩

end Automaton

end Automata
