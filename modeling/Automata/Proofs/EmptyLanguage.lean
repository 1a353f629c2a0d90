import Automata.Proofs.SubsetAutomaton

/-!
# Results without a final state

If a valid automaton accepts no word, its subset automaton has no final state and is
not valid. Nothing else can be wrong with a subset automaton.
-/

namespace Automata.Automaton

variable {a d : Automaton} {limit : Option Nat} {m m' : Allocator}

theorem exists_final_iff_accepts_some (h : a.determinize limit m = .ok d m') :
    (∃ q, q ∈ d.finals) ↔ ∃ w, a.accepts w = .ok true := by
  obtain ⟨hv, _⟩ := determinize_eq_ok h
  obtain ⟨f, _, hd, _⟩ := exists_isSubsetAutomaton h
  simp only [accepts_of_valid hv, Except.ok.injEq]
  constructor
  -- a state stands for the frontier of some word, which is accepted if the state is final
  · intro hf
    obtain ⟨q, hq⟩ := hf
    obtain ⟨hq, hacc⟩ := hd.mem_finals_iff.mp hq
    obtain ⟨w, _, hw⟩ := hd.bijective.mapsTo hq
    refine ⟨w, ?_⟩
    rw [run_eq_accepting_walk]
    rwa [← hw] at hacc
  · intro hw
    obtain ⟨w, hw⟩ := hw
    rw [← run_determinized h, run_iff_spells] at hw
    obtain ⟨_, _, q, hq, _⟩ := hw
    exact ⟨q, hq⟩

theorem validate_determinized_of_no_final (h : a.determinize limit m = .ok d m') (hf : ∀ q, q ∉ d.finals) :
    d.validate = .error .noFinalStates := by
  obtain ⟨_, _, hd, _⟩ := exists_isSubsetAutomaton h
  obtain ⟨_, q, _, hq, _⟩ := hd.initial
  refine validate_of_no_finals ?_ hf
  rw [hq]
  exact Option.some_ne_none q

theorem determinize_valid_iff_accepts_some {a d : Automaton} {limit : Option Nat} {m m' : Allocator}
    (h : a.determinize limit m = .ok d m') :
    (d.validate = .ok () ↔ ∃ w, a.accepts w = .ok true) ∧
      ((∀ w, a.accepts w ≠ .ok true) → d.validate = .error .noFinalStates) ∧
      ((∃ w, a.accepts w = .ok true) →
        (∀ w, d.accepts w = a.accepts w) ∧ (∃ r, d.seal = .ok r ∧ r.automaton = d) ∧
        ∀ limit m e m', d.determinize limit m = .error (.refused e) m' → e.kind ≠ .invalidMachine) := by
  have hiff := exists_final_iff_accepts_some h
  refine ⟨?_, ?_, ?_⟩
  · rw [← hiff]
    exact ⟨fun hd => (validate_eq_ok.mp hd).finals, fun hf => validate_eq_ok.mpr (valid_determinized h hf)⟩
  · intro hw
    refine validate_determinized_of_no_final h fun q hq => ?_
    obtain ⟨w, hacc⟩ := hiff.mp ⟨q, hq⟩
    exact hw w hacc
  · intro hw
    obtain ⟨hv, _⟩ := determinize_eq_ok h
    have hd : d.Valid := valid_determinized h (hiff.mpr hw)
    refine ⟨?_, ⟨_, seal_of_valid (validate_eq_ok.mpr hd), rfl⟩, ?_⟩
    · intro w
      rw [accepts_of_valid hd, accepts_of_valid hv, run_determinized h]
    · intro limit m e m' he
      obtain ⟨n, rfl⟩ := refused_of_valid hd he
      exact nofun

theorem determinize_valid_iff_accepts_some_xThenY :
    ∃ d m', xThenY.determinize (some 8) ⟨3⟩ = .ok d m' ∧ xThenY.accepts ['x', 'y'] = .ok true ∧
      (d.validate = .ok () ↔ ∃ w, xThenY.accepts w = .ok true) ∧
      ((∀ w, xThenY.accepts w ≠ .ok true) → d.validate = .error .noFinalStates) ∧
      ((∃ w, xThenY.accepts w = .ok true) →
        (∀ w, d.accepts w = xThenY.accepts w) ∧ (∃ r, d.seal = .ok r ∧ r.automaton = d) ∧
        ∀ limit m e m', d.determinize limit m = .error (.refused e) m' → e.kind ≠ .invalidMachine) := by
  have h : ∃ d m', xThenY.determinize (some 8) ⟨3⟩ = .ok d m' := ⟨_, _, rfl⟩
  obtain ⟨d, m', h⟩ := h
  exact ⟨d, m', h, rfl, determinize_valid_iff_accepts_some h⟩

/-- Reads `x` over and over at its initial state; no edge leads to its final state. -/
def xsForever : Automaton :=
  ofTable (.nondet ⟨.ofList [⟨0⟩, ⟨1⟩], .ofList [⟨⟨0⟩, .char 'x', ⟨0⟩⟩]⟩) (some ⟨0⟩) (.singleton ⟨1⟩)

theorem determinize_xsForever_invalid :
    xsForever.validate = .ok () ∧ xsForever.accepts ['x'] = .ok false ∧
      ∃ d m', xsForever.determinize none ⟨2⟩ = .ok d m' ∧ d.validate = .error .noFinalStates ∧
        d.accepts ['x'] = .error .noFinalStates :=
  ⟨rfl, rfl, _, _, rfl, rfl, rfl⟩

end Automata.Automaton
