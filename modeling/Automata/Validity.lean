import Automata.Automaton

/-! # Validity -/

namespace Automata

namespace Automaton

def designated (a : Automaton) : StateSet := a.finals.insertMany a.initial.toList

def validate (a : Automaton) : Except Error Unit :=
  if a.initial = none then .error .missingInitial
  else if a.finals.isEmpty then .error .noFinalStates
  else match a.designated.least? (· ∉ a.states) with
    | some q => .error (.undeclaredState q)
    | none =>
      match a.edges.least? fun e => ¬ e.Within a.states with
      | some e => .error (.undeclaredTransition e.source e.label e.target)
      | none =>
        match a.table with
        | .det g => g.requireComplete g.symbols
        | .nondet _ => .ok ()

structure Valid (a : Automaton) : Prop where
  initial : a.initial ≠ none
  finals : ∃ q, q ∈ a.finals
  designated : ∀ q ∈ a.designated, q ∈ a.states
  closed : a.graph.Closed
  complete : ∀ g, a.table = .det g → g.isComplete

theorem mem_designated {a : Automaton} {q : State} : q ∈ a.designated ↔ a.initial = some q ∨ q ∈ a.finals := by
  simp [designated]

/-! ## Well-formedness -/

/-- Nothing is designated or touched by an edge unless it is declared. -/
structure WellFormed (a : Automaton) : Prop where
  designated : ∀ q ∈ a.designated, q ∈ a.states
  closed : a.graph.Closed

theorem WellFormed.initial_declared {a : Automaton} (h : a.WellFormed) {p : State} (hp : a.initial = some p) :
    p ∈ a.graph.states := by
  rw [states_graph]
  exact h.designated p (mem_designated.mpr (.inl hp))

theorem WellFormed.final_declared {a : Automaton} (h : a.WellFormed) {q : State} (hq : q ∈ a.finals) :
    q ∈ a.graph.states := by
  rw [states_graph]
  exact h.designated q (mem_designated.mpr (.inr hq))

theorem wellFormed_of_nondet {g : NondetGraph} {p : State} {s : StateSet} {o : Options} (hp : p ∈ g.states)
    (hd : ∀ q ∈ s, q ∈ g.states) (hc : g.Closed) : (mk (.nondet g) (some p) s o).WellFormed where
  designated q hq := by
    rcases mem_designated.mp hq with h | h
    · obtain rfl : p = q := Option.some.inj h
      exact hp
    · exact hd q h
  closed := hc

theorem WellFormed.valid {a : Automaton} (h : a.WellFormed) (hi : a.initial ≠ none) (hf : ∃ q, q ∈ a.finals)
    (hc : ∀ g, a.table = .det g → g.isComplete) : a.Valid :=
  ⟨hi, hf, h.designated, h.closed, hc⟩

theorem Valid.wellFormed {a : Automaton} (h : a.Valid) : a.WellFormed := ⟨h.designated, h.closed⟩

theorem Valid.initial_declared {a : Automaton} (h : a.Valid) {p : State} (hp : a.initial = some p) :
    p ∈ a.graph.states :=
  h.wellFormed.initial_declared hp

theorem Valid.final_declared {a : Automaton} (h : a.Valid) {q : State} (hq : q ∈ a.finals) : q ∈ a.graph.states :=
  h.wellFormed.final_declared hq

theorem Valid.exists_initial {a : Automaton} (h : a.Valid) : ∃ p, a.initial = some p ∧ p ∈ a.graph.states := by
  obtain ⟨p, hp⟩ := Option.ne_none_iff_exists'.mp h.initial
  exact ⟨p, hp, h.initial_declared hp⟩

/-! ## The check -/

theorem validate_eq_ok {a : Automaton} : a.validate = .ok () ↔ a.Valid := by
  unfold validate
  split
  · rename_i hi
    constructor
    · intro h; cases h
    · intro v; exact absurd hi v.initial
  split
  · rename_i hf
    constructor
    · intro h; cases h
    · intro v
      obtain ⟨q, hq⟩ := v.finals
      exact absurd hq (SortedSet.isEmpty_iff.mp hf q)
  rename_i hi hf
  have hf : ∃ q, q ∈ a.finals := by simpa [SortedSet.isEmpty_iff] using hf
  split
  · rename_i q h
    obtain ⟨hq, hn, _⟩ := SortedSet.least?_eq_some h
    constructor
    · intro h; cases h
    · intro v; exact absurd (v.designated q hq) (by simpa using hn)
  rename_i hd
  have hd : ∀ q ∈ a.designated, q ∈ a.states := by simpa using SortedSet.least?_eq_none.mp hd
  split
  · rename_i e h
    obtain ⟨he, hn, _⟩ := SortedSet.least?_eq_some h
    have hw : ¬ e.Within a.graph.states := by
      rw [states_graph]
      exact of_decide_eq_true hn
    constructor
    · intro h; cases h
    · intro v; exact absurd (v.closed e he) hw
  rename_i he
  have hc : a.graph.Closed := fun e h => by
    rw [states_graph]
    exact Classical.not_not.mp fun hn => SortedSet.least?_eq_none.mp he e h (decide_eq_true hn)
  split
  · rename_i g hg
    rw [DetGraph.requireComplete_eq_ok]
    constructor
    · intro hcomplete
      refine ⟨hi, hf, hd, hc, fun g' hg' => ?_⟩
      cases hg.symm.trans hg'
      exact hcomplete
    · intro v; exact v.complete g hg
  · rename_i g hg
    constructor
    · intro _
      refine ⟨hi, hf, hd, hc, fun g' hg' => ?_⟩
      cases hg.symm.trans hg'
    · intro _; rfl

theorem validate_error_cases {a : Automaton} {err : Error} (h : a.validate = .error err) :
    err = .missingInitial ∨ err = .noFinalStates ∨
      (∃ q ∈ a.designated, q ∉ a.states ∧ err = .undeclaredState q) ∨
      (∃ e ∈ a.edges, ¬ e.Within a.states ∧ err = .undeclaredTransition e.source e.label e.target) ∨
      ∃ g q c, a.table = .det g ∧ err = .incompleteTable q c := by
  unfold validate at h
  split at h
  · cases h
    exact .inl rfl
  split at h
  · cases h
    exact .inr (.inl rfl)
  split at h
  · rename_i q hq
    cases h
    obtain ⟨hq, hn, _⟩ := SortedSet.least?_eq_some hq
    exact .inr (.inr (.inl ⟨q, hq, of_decide_eq_true hn, rfl⟩))
  split at h
  · rename_i e he
    cases h
    obtain ⟨he, hn, _⟩ := SortedSet.least?_eq_some he
    exact .inr (.inr (.inr (.inl ⟨e, he, of_decide_eq_true hn, rfl⟩)))
  split at h
  · rename_i g hg
    obtain ⟨q, c, rfl⟩ := DetGraph.requireComplete_eq_error h
    exact .inr (.inr (.inr (.inr ⟨g, q, c, hg, rfl⟩)))
  · cases h

theorem validate_of_no_finals {a : Automaton} (hi : a.initial ≠ none) (hf : ∀ q, q ∉ a.finals) :
    a.validate = .error .noFinalStates := by
  unfold validate
  rw [if_neg hi, if_pos (SortedSet.isEmpty_iff.mpr hf)]

end Automaton

/-- A validated automaton. It can be run and given back, but not edited. -/
structure Runnable where
  automaton : Automaton
  valid : automaton.validate = .ok ()
deriving DecidableEq

def Automaton.seal (a : Automaton) : Except Error Runnable :=
  match h : a.validate with
  | .ok () => .ok ⟨a, h⟩
  | .error e => .error e

theorem Automaton.seal_of_valid {a : Automaton} (h : a.validate = .ok ()) : a.seal = .ok ⟨a, h⟩ := by
  unfold Automaton.seal
  split
  · rfl
  · rename_i e he
    rw [h] at he
    cases he

end Automata
