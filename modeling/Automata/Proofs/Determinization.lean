import Automata.Proofs.Minting
import Automata.Proofs.Numbering

/-!
# Determinization keeps the language

When the subset construction succeeds, its search has found all reachable sets, and the
block of minted states numbers them (`determinize_eq_ok`).
-/

namespace Automata.Automaton

variable {a d : Automaton} {limit : Option Nat} {m m' : Allocator} {rounds : Nat}

theorem numbering_subsets (hl : (a.subsets rounds).length ≤ rounds) (hm : (a.subsets rounds).length ≤ m.room) :
    Numbering a (a.subsets rounds) (m.block (a.subsets rounds).length) where
  length_eq := Allocator.length_block
  nodup_sets := Search.nodup_search
  nodup_names := Allocator.nodup_block hm
  start := Search.head?_search
  closed s hs t ht := by
    have hr : Search.Reachable a.images [a.start] s := (Search.mem_search hl).mp hs
    exact (Search.mem_search hl).mpr (hr.step ht)

theorem determinize_of_invalid {e : Error} (hv : a.validate = .error e) :
    a.determinize limit m = .error (.refused e) m := by
  unfold determinize
  rw [hv]
  rfl

section
variable (hv : a.Valid)
include hv

theorem determinize_of_unlimited (hlim : (limit <|> a.options.maxSubsets) = none) :
    a.determinize limit m =
      (do return a.onSubsets (a.subsets m.room) (← Allocator.mintEach (a.subsets m.room).length)) m := by
  unfold determinize
  have hget : (get : Minting Allocator) m = .ok m m := rfl
  rw [validate_eq_ok.mpr hv, Minting.ofExcept_ok, pure_bind, Minting.bind_of_ok hget, hlim]

theorem determinize_of_limited {n : Nat} (hlim : (limit <|> a.options.maxSubsets) = some n) :
    a.determinize limit m =
      (do
        let names ← Allocator.mintEach (min n (a.subsets (min n m.room)).length)
        if n < (a.subsets (min n m.room)).length then throw (Fault.refused (.tooManyStates n))
        return a.onSubsets (a.subsets (min n m.room)) names) m := by
  unfold determinize
  have hget : (get : Minting Allocator) m = .ok m m := rfl
  rw [validate_eq_ok.mpr hv, Minting.ofExcept_ok, pure_bind, Minting.bind_of_ok hget, hlim]

theorem refused_of_valid {e : Error} (h : a.determinize limit m = .error (.refused e) m') :
    ∃ n, e = .tooManyStates n := by
  have hmint : ∀ {n m'}, Allocator.mintEach n m ≠ .error (.refused e) m' := by
    intro n m' he
    obtain ⟨_, he, _⟩ := Allocator.mintEach_eq_error.mp he
    cases he
  cases hlim : limit <|> a.options.maxSubsets with
  | none =>
    rw [determinize_of_unlimited hv hlim] at h
    rcases Minting.bind_eq_error.mp h with h | ⟨names, m₂, _, h⟩
    · exact absurd h hmint
    · cases h
  | some n =>
    rw [determinize_of_limited hv hlim] at h
    rcases Minting.bind_eq_error.mp h with h | ⟨names, m₂, _, h⟩
    · exact absurd h hmint
    by_cases hlt : n < (a.subsets (min n m.room)).length
    · rw [if_pos hlt] at h
      cases h
      exact ⟨n, rfl⟩
    · rw [if_neg hlt] at h
      cases h

end

theorem determinize_eq_ok (h : a.determinize limit m = .ok d m') :
    a.Valid ∧ ∃ rounds, (a.subsets rounds).length ≤ rounds ∧ (a.subsets rounds).length ≤ m.room ∧
      d = a.onSubsets (a.subsets rounds) (m.block (a.subsets rounds).length) ∧
      m' = m.advance (a.subsets rounds).length := by
  have hv : a.Valid := by
    cases hval : a.validate with
    | ok _ => exact validate_eq_ok.mp hval
    | error e =>
      rw [determinize_of_invalid hval] at h
      cases h
  refine ⟨hv, ?_⟩
  cases hlim : limit <|> a.options.maxSubsets with
  | none =>
    rw [determinize_of_unlimited hv hlim] at h
    obtain ⟨names, m₂, hmint, hret⟩ := Minting.bind_eq_ok.mp h
    obtain ⟨hroom, rfl, rfl⟩ := Allocator.mintEach_eq_ok.mp hmint
    cases hret
    exact ⟨m.room, hroom, hroom, rfl, rfl⟩
  | some n =>
    rw [determinize_of_limited hv hlim] at h
    obtain ⟨names, m₂, hmint, hret⟩ := Minting.bind_eq_ok.mp h
    obtain ⟨hroom, rfl, rfl⟩ := Allocator.mintEach_eq_ok.mp hmint
    by_cases hlt : n < (a.subsets (min n m.room)).length
    · rw [if_pos hlt] at hret
      cases hret
    · rw [if_neg hlt] at hret
      have hmin : min n (a.subsets (min n m.room)).length = (a.subsets (min n m.room)).length := by omega
      rw [hmin] at hroom hret
      cases hret
      exact ⟨min n m.room, by omega, hroom, rfl, rfl⟩

/-! ## The result -/

theorem run_determinized (h : a.determinize limit m = .ok d m') (w : List Char) : d.run w = a.run w := by
  obtain ⟨_, rounds, hl, hm, rfl, _⟩ := determinize_eq_ok h
  exact (numbering_subsets hl hm).run_eq w

theorem valid_determinized (h : a.determinize limit m = .ok d m') (hf : ∃ q, q ∈ d.finals) : d.Valid := by
  obtain ⟨_, rounds, hl, hm, rfl, _⟩ := determinize_eq_ok h
  exact (numbering_subsets hl hm).valid hf

theorem language_determinized (h : a.determinize limit m = .ok d m') (hd : d.Valid) : d.language = a.language := by
  obtain ⟨ha, _⟩ := determinize_eq_ok h
  apply Language.ext
  intro w
  show d.accepts w = .ok true ↔ a.accepts w = .ok true
  rw [accepts_of_valid hd, accepts_of_valid ha, run_determinized h]

/-- As to acceptance, the two agree if the result has a final state, and nothing is accepted if it has none. -/
theorem determinize_preserves_acceptance {a d : Automaton} {limit : Option Nat} {m m' : Allocator}
    (h : a.determinize limit m = .ok d m') :
    (∀ w, d.run w = a.run w) ∧
      ((∃ q, q ∈ d.finals) → ∀ w, d.accepts w = a.accepts w) ∧
      ((∀ q, q ∉ d.finals) → ∀ w, a.accepts w = .ok false) := by
  obtain ⟨hv, rounds, hl, hm, rfl, _⟩ := determinize_eq_ok h
  have hn := numbering_subsets hl hm
  refine ⟨hn.run_eq, ?_, ?_⟩
  · intro hf w
    rw [accepts_of_valid (hn.valid hf), accepts_of_valid hv, hn.run_eq]
  · intro hf w
    have hrun : (a.onSubsets (a.subsets rounds) (m.block (a.subsets rounds).length)).run w = false := by
      rw [Bool.eq_false_iff, ne_eq, run_iff_spells]
      intro h
      obtain ⟨_, _, q, hq, _⟩ := h
      exact hf q hq
    rw [accepts_of_valid hv, ← hn.run_eq, hrun]

/-- Its two states reach each other by epsilon edges, and the second reads `x`. Trailing epsilon edges
are ignored, so the word `x` leads to the first state alone. -/
def epsilonCycle : Automaton :=
  (ofTable (.nondet ⟨.ofList [⟨0⟩, ⟨1⟩], .ofList [⟨⟨0⟩, .epsilon, ⟨1⟩⟩, ⟨⟨1⟩, .epsilon, ⟨0⟩⟩, ⟨⟨1⟩, .char 'x', ⟨0⟩⟩]⟩)
    (some ⟨0⟩) (.singleton ⟨1⟩)).under .ignore

theorem determinize_preserves_acceptance_epsilonCycle :
    ∃ d m', epsilonCycle.determinize (some 8) ⟨0⟩ = .ok d m' ∧
      (∀ w, d.run w = epsilonCycle.run w) ∧
      ((∃ q, q ∈ d.finals) → ∀ w, d.accepts w = epsilonCycle.accepts w) ∧
      ((∀ q, q ∉ d.finals) → ∀ w, epsilonCycle.accepts w = .ok false) := by
  have h : ∃ d m', epsilonCycle.determinize (some 8) ⟨0⟩ = .ok d m' := ⟨_, _, rfl⟩
  obtain ⟨d, m', h⟩ := h
  exact ⟨d, m', h, determinize_preserves_acceptance h⟩

end Automata.Automaton
