import Automata.Proofs.Gluing

/-! # The language of a concatenation -/

namespace Automata

namespace NondetGraph

open scoped Computability

variable {g h : NondetGraph} {s : StateSet} {p q r t : State} {w : List Char}

theorem rounds_absorb_eq_zero (hg : g.Closed) (hh : h.Closed) (hd : ∀ q ∈ g.states, q ∉ h.states)
    (hs : ∀ q ∈ s, q ∈ g.states) (ht : t ∈ h.states) : rounds (g.absorb h) s t = 0 := by
  apply Language.ext
  intro w
  constructor
  · intro hw
    obtain ⟨q, hq, hw⟩ := hw
    have hq' : q ∈ h.states := (hw.confine (confines_absorb_right hg hh hd) ht).2
    exact absurd hq' (hd q (hs q hq))
  · intro hw
    exact absurd hw (Language.notMem_zero w)

/-- A path from the left graph into the right one goes over one glued edge and no more. -/
theorem path_concatenated (hg : g.Closed) (hh : h.Closed) (hd : ∀ q ∈ g.states, q ∉ h.states)
    (hs : ∀ q ∈ s, q ∈ g.states) (ht : t ∈ h.states) (hp : p ∈ g.states) (hr : r ∈ h.states) :
    (g.joined h s t).Path p w r ↔ ∃ u v, w = u ++ v ∧ (∃ q ∈ s, g.Path p u q) ∧ h.Path t v r := by
  constructor
  · intro hw
    rcases path_glued.mp hw with hw | ⟨u, x, v, rfl, ⟨q, hq, hu⟩, hx, hv⟩
    · have hr' : r ∈ g.states := (hw.confine (confines_absorb_left hg hh hd) hp).2
      exact absurd hr (hd r hr')
    · rw [rounds_absorb_eq_zero hg hh hd hs ht, kstar_zero, Language.mem_one] at hx
      subst hx
      have hu := (hu.confine (confines_absorb_left hg hh hd) hp).1
      have hv := (hv.confine (confines_absorb_right hg hh hd) ht).1
      exact ⟨u, v, rfl, ⟨q, hq, hu⟩, hv⟩
  · intro hw
    obtain ⟨u, v, hw, ⟨q, hq, hu⟩, hv⟩ := hw
    subst hw
    have hu : (g.joined h s t).Path p u t := path_of_mem_rounds ⟨q, hq, hu.mono mem_absorb_left⟩
    exact hu.trans ((hv.mono mem_absorb_right).mono mem_glued)

end NondetGraph

namespace Automaton

variable {a b : Automaton} {p q : State} {u v w : List Char}

def concatenated (a b : Automaton) (p q : State) : Automaton :=
  ⟨.nondet (a.graph.joined b.graph a.finals q), some p, b.finals, a.options⟩

theorem concat_eq_ok {c : Automaton} (h : a.concat b = .ok c) :
    ∃ p q, a.initial = some p ∧ b.initial = some q ∧ c = concatenated a b p q := by
  unfold concat at h
  cases hop : operands a b with
  | error err =>
    rw [hop] at h
    cases h
  | ok pq =>
    obtain ⟨p, q⟩ := pq
    obtain ⟨hp, hq⟩ := operands_eq_ok hop
    simp only [hop, bind, Except.bind] at h
    cases hg : NondetGraph.glue (a.graph.absorb b.graph) a.finals q with
    | error err =>
      rw [hg] at h
      cases h
    | ok g =>
      obtain ⟨_, rfl⟩ := NondetGraph.glue_eq_ok.mp hg
      rw [hg] at h
      cases h
      exact ⟨p, q, hp, hq, rfl⟩

section
variable (ha : a.Valid) (hb : b.Valid) (hd : ∀ q ∈ a.graph.states, q ∉ b.graph.states)
variable (hp : a.initial = some p) (hq : b.initial = some q)
include ha hb hp hq

theorem concat_of_valid (hd : ∀ q ∈ a.graph.states, q ∉ b.graph.states) :
    a.concat b = .ok (concatenated a b p q) := by
  have hg : NondetGraph.glue (a.graph.absorb b.graph) a.finals q = .ok (a.graph.joined b.graph a.finals q) :=
    NondetGraph.glue_of_declared (fun _ hr => Graph.mem_states_absorb.mpr (.inl (ha.final_declared hr)))
      (Graph.mem_states_absorb.mpr (.inr (hb.initial_declared hq)))
  unfold concat
  rw [operands_of_disjoint hd hp hq]
  simp only [bind, Except.bind, hg]
  rfl

omit ha hb in
theorem wellFormed_concatenated (ha : a.WellFormed) (hb : b.WellFormed) : (concatenated a b p q).WellFormed := by
  have hc : (a.graph.absorb b.graph).Closed := NondetGraph.closed_absorb ha.closed hb.closed
  refine wellFormed_of_nondet ?_ ?_ (NondetGraph.closed_glued hc ?_ ?_)
  · exact Graph.mem_states_absorb.mpr (.inl (ha.initial_declared hp))
  · exact fun r hr => Graph.mem_states_absorb.mpr (.inr (hb.final_declared hr))
  · exact fun r hr => Graph.mem_states_absorb.mpr (.inl (ha.final_declared hr))
  · exact Graph.mem_states_absorb.mpr (.inr (hb.initial_declared hq))

theorem valid_concatenated : (concatenated a b p q).Valid :=
  (wellFormed_concatenated hp hq ha.wellFormed hb.wellFormed).valid nofun hb.finals nofun

include hd in
theorem spells_concatenated :
    (concatenated a b p q).Spells .follow w ↔ ∃ u v, w = u ++ v ∧ a.Spells .follow u ∧ b.Spells .follow v := by
  have hi : (concatenated a b p q).initial = some p := rfl
  have hpath : ∀ r ∈ b.finals, (concatenated a b p q).graph.Path p w r ↔
      ∃ u v, w = u ++ v ∧ (∃ q ∈ a.finals, a.graph.Path p u q) ∧ b.graph.Path q v r := fun r hr =>
    NondetGraph.path_concatenated ha.closed hb.closed hd (fun _ => ha.final_declared) (hb.initial_declared hq)
      (ha.initial_declared hp) (hb.final_declared hr)
  simp only [spells_of_initial hi, spells_of_initial hp, spells_of_initial hq]
  constructor
  · intro hw
    obtain ⟨r, hr, hw⟩ := hw
    obtain ⟨u, v, hw, hu, hv⟩ := (hpath r hr).mp hw
    exact ⟨u, v, hw, hu, r, hr, hv⟩
  · intro hw
    obtain ⟨u, v, hw, hu, r, hr, hv⟩ := hw
    exact ⟨r, hr, (hpath r hr).mpr ⟨u, v, hw, hu, hv⟩⟩

include hd in
theorem language_concatenated (hta : a.options.trailing = .follow) (htb : b.options.trailing = .follow) :
    (concatenated a b p q).language = a.language * b.language := by
  apply Language.ext
  intro w
  rw [mem_language_of_follow (valid_concatenated ha hb hp hq) hta, spells_concatenated ha hb hd hp hq,
    Language.mem_mul]
  simp only [mem_language_of_follow ha hta, mem_language_of_follow hb htb]
  constructor
  · intro h
    obtain ⟨u, v, hw, hu, hv⟩ := h
    exact ⟨u, hu, v, hv, hw.symm⟩
  · intro h
    obtain ⟨u, hu, v, hv, hw⟩ := h
    exact ⟨u, v, hw.symm, hu, hv⟩

end

theorem concat_accepts_iff {a b : Automaton} (ha : a.validate = .ok ()) (hb : b.validate = .ok ())
    (hd : ∀ q ∈ a.states, q ∉ b.states) (ht : a.options.trailing = .follow) :
    ∃ c, a.concat b = .ok c ∧ c.validate = .ok () ∧
      ∀ w, c.accepts w = .ok true ↔
        ∃ u v, w = u ++ v ∧ a.accepts u = .ok true ∧ (b.under .follow).accepts v = .ok true := by
  have va := validate_eq_ok.mp ha
  have vb := validate_eq_ok.mp hb
  have hd : ∀ q ∈ a.graph.states, q ∉ b.graph.states := by simpa using hd
  obtain ⟨p, hp, _⟩ := va.exists_initial
  obtain ⟨q, hq, _⟩ := vb.exists_initial
  have vc := valid_concatenated va vb hp hq
  refine ⟨concatenated a b p q, concat_of_valid va vb hp hq hd, validate_eq_ok.mpr vc, fun w => ?_⟩
  have hc : (concatenated a b p q).accepts w = .ok true ↔ (concatenated a b p q).Spells a.options.trailing w :=
    mem_language vc
  have hu : ∀ u, a.accepts u = .ok true ↔ a.Spells a.options.trailing u := fun u => mem_language va
  have hv : ∀ v, (b.under .follow).accepts v = .ok true ↔ b.Spells .follow v := fun v => mem_language_under vb
  simp only [hc, hu, hv, ht]
  exact spells_concatenated va vb hd hp hq

/-- Reads `x` at least once, then any number of `y`, and has an epsilon edge back to its initial state. -/
def xsYs (p q : State) : Automaton :=
  ofTable (.nondet ⟨.ofList [p, q], .ofList [⟨p, .char 'x', q⟩, ⟨q, .char 'y', q⟩, ⟨q, .epsilon, p⟩]⟩) (some p)
    (.singleton q)

theorem concat_accepts_iff_xsYs :
    (xsYs ⟨0⟩ ⟨1⟩).validate = .ok () ∧ (xsYs ⟨2⟩ ⟨3⟩).validate = .ok () ∧
      (∀ q ∈ (xsYs ⟨0⟩ ⟨1⟩).states, q ∉ (xsYs ⟨2⟩ ⟨3⟩).states) ∧ (xsYs ⟨0⟩ ⟨1⟩).options.trailing = .follow ∧
      ∃ c, (xsYs ⟨0⟩ ⟨1⟩).concat (xsYs ⟨2⟩ ⟨3⟩) = .ok c ∧ c.validate = .ok () ∧
        ∀ w, c.accepts w = .ok true ↔ ∃ u v, w = u ++ v ∧ (xsYs ⟨0⟩ ⟨1⟩).accepts u = .ok true ∧
          ((xsYs ⟨2⟩ ⟨3⟩).under .follow).accepts v = .ok true :=
  have hd : ∀ q ∈ (xsYs ⟨0⟩ ⟨1⟩).states.toList, q ∉ (xsYs ⟨2⟩ ⟨3⟩).states := by decide
  ⟨rfl, rfl, hd, rfl, concat_accepts_iff rfl rfl hd rfl⟩

end Automaton

end Automata
