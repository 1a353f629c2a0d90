import Automata.Proofs.Acceptance

/-!
# The nondeterministic view of an automaton

An automaton with a deterministic table can be run as a nondeterministic one with the same
edges, which need not be complete (`validate_of_det`).
-/

namespace Automata

namespace Automaton

variable {a : Automaton} {g : DetGraph} {w : List Char} {q : State} {c : Char}

def asNondet (a : Automaton) : Automaton :=
  (ofTable (.nondet a.table.toNondet) a.initial a.finals).setOptions a.options

theorem states_asNondet : a.asNondet.states = a.states := Table.states_toNondet a.table

theorem run_asNondet : a.asNondet.run w = a.run w := by
  rw [run_eq_accepting_walk, run_eq_accepting_walk]
  rfl

theorem validate_of_det (hg : a.table = .det g) :
    a.validate = (do a.asNondet.validate; g.requireComplete g.symbols) := by
  have hi : a.asNondet.initial = a.initial := rfl
  have hf : a.asNondet.finals = a.finals := rfl
  have hd : a.asNondet.designated = a.designated := rfl
  have he : a.asNondet.edges = a.edges := rfl
  have ht : a.asNondet.table = .nondet a.table.toNondet := rfl
  unfold validate
  rw [hi, hf, hd, he, states_asNondet, ht, hg]
  split
  · rfl
  split
  · rfl
  split
  · rfl
  split
  · rfl
  · rfl

theorem validate_of_nondet_ne {h : NondetGraph} (hh : a.table = .nondet h) :
    a.validate ≠ .error (.incompleteTable q c) := by
  intro he
  rcases validate_error_cases he with he | he | ⟨_, _, _, he⟩ | ⟨_, _, _, he⟩ | ⟨g, _, _, hg, _⟩
  · cases he
  · cases he
  · cases he
  · cases he
  · cases hh.symm.trans hg

/-! ## Acceptance -/

theorem accepts_of_error {e : Error} (h : a.validate = .error e) : a.accepts w = .error e := by
  unfold accepts
  rw [h]
  rfl

theorem accepts_eq_asNondet {a : Automaton} {g : DetGraph} (hg : a.table = .det g) (w : List Char) :
    ((∀ q c, a.accepts w ≠ .error (.incompleteTable q c)) → a.accepts w = a.asNondet.accepts w) ∧
      ∀ q c, a.accepts w = .error (.incompleteTable q c) → a.asNondet.accepts w = .ok (a.run w) := by
  have hv := validate_of_det hg
  cases hn : a.asNondet.validate with
  | error e =>
    -- both report the fault that the nondeterministic automaton has too
    have ha : a.validate = .error e := by rw [hv, hn]; rfl
    rw [accepts_of_error ha, accepts_of_error hn]
    refine ⟨fun _ => rfl, fun q c h => ?_⟩
    rw [Except.error.inj h] at hn
    exact absurd hn (validate_of_nondet_ne rfl)
  | ok _ =>
    have ha : a.validate = g.requireComplete g.symbols := by rw [hv, hn]; rfl
    have hok : a.asNondet.accepts w = .ok (a.run w) := by
      rw [accepts_of_valid (validate_eq_ok.mp hn), run_asNondet]
    refine ⟨fun h => ?_, fun _ _ _ => hok⟩
    cases hc : g.requireComplete g.symbols with
    | error e =>
      obtain ⟨q, c, rfl⟩ := DetGraph.requireComplete_eq_error hc
      exact absurd (accepts_of_error (ha.trans hc)) (h q c)
    | ok _ => rw [hok, accepts_of_valid (validate_eq_ok.mp (ha.trans hc))]

/-- Reads `x` once; no edge leaves its final state. -/
def singleX : Automaton :=
  ofTable (.det ((DetGraph.ofStates (.ofList [⟨0⟩, ⟨1⟩])).direct ⟨⟨0⟩, 'x', ⟨1⟩⟩)) (some ⟨0⟩) (.singleton ⟨1⟩)

/-- Reads an odd number of `x`, and ignores the trailing epsilon edges that it does not have. -/
def oddXs : Automaton :=
  (ofTable (.det (((DetGraph.ofStates (.ofList [⟨0⟩, ⟨1⟩])).direct ⟨⟨0⟩, 'x', ⟨1⟩⟩).direct ⟨⟨1⟩, 'x', ⟨0⟩⟩))
    (some ⟨0⟩) (.singleton ⟨1⟩)).under .ignore

theorem accepts_eq_asNondet_singleX_oddXs :
    (∃ g, singleX.table = .det g) ∧ singleX.accepts ['x'] = .error (.incompleteTable ⟨1⟩ 'x') ∧
      singleX.asNondet.accepts ['x'] = .ok (singleX.run ['x']) ∧
      (∃ g, oddXs.table = .det g) ∧ (∀ q c, oddXs.accepts ['x'] ≠ .error (.incompleteTable q c)) ∧
      oddXs.accepts ['x'] = oddXs.asNondet.accepts ['x'] := by
  have hgap : singleX.accepts ['x'] = .error (.incompleteTable ⟨1⟩ 'x') := rfl
  have hodd : oddXs.accepts ['x'] = .ok true := rfl
  have hne : ∀ q c, oddXs.accepts ['x'] ≠ .error (.incompleteTable q c) := by
    rw [hodd]
    exact nofun
  exact ⟨⟨_, rfl⟩, hgap, (accepts_eq_asNondet rfl ['x']).2 ⟨1⟩ 'x' hgap, ⟨_, rfl⟩, hne,
    (accepts_eq_asNondet rfl ['x']).1 hne⟩

end Automaton

end Automata
