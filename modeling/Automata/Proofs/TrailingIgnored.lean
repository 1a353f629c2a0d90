import Automata.Proofs.Concatenation
import Automata.Proofs.Star
import Automata.Proofs.Union

/-!
# Combinations that ignore trailing epsilon edges

A run of a nonempty word ends with the edge that reads the last character, so what is read
behind the last glued edge is not empty (`leads_ignore_glued`).
-/

namespace Automata

namespace NondetGraph

open scoped Computability

variable {g h : NondetGraph} {s : StateSet} {p q r t : State} {u v w : List Char}

theorem leads_ignore_of_ne_nil (hw : w ≠ []) :
    g.Leads .ignore p w r ↔ ∃ v c q, w = v ++ [c] ∧ g.Path p v q ∧ ⟨q, .char c, r⟩ ∈ g.edges := by
  simp [Leads, hw]

theorem Leads.after_path (h : g.Leads .ignore q v r) (hv : v ≠ []) (hu : g.Path p u q) :
    g.Leads .ignore p (u ++ v) r := by
  obtain ⟨v, c, q', rfl, hv, he⟩ := (leads_ignore_of_ne_nil hv).mp h
  rw [← List.append_assoc]
  exact leads_ignore_snoc.mpr ⟨q', hu.trans hv, he⟩

theorem leads_ignore_glued (hw : w ≠ []) :
    (g.glued s t).Leads .ignore p w r ↔ g.Leads .ignore p w r ∨
      ∃ u x v, w = u ++ (x ++ v) ∧ v ≠ [] ∧ (∃ q ∈ s, g.Path p u q) ∧ x ∈ (g.rounds s t)∗ ∧
        g.Leads .ignore t v r := by
  constructor
  · intro h
    obtain ⟨w, c, q, rfl, hw, he⟩ := (leads_ignore_of_ne_nil hw).mp h
    have he := char_mem_edges_glued.mp he
    rcases path_glued.mp hw with hw | ⟨u, x, v, rfl, hu, hx, hv⟩
    · exact .inl (leads_ignore_snoc.mpr ⟨q, hw, he⟩)
    -- the edge that reads the last character belongs to the last stretch
    · exact .inr ⟨u, x, v ++ [c], by simp, by simp, hu, hx, leads_ignore_snoc.mpr ⟨q, hv, he⟩⟩
  · intro h
    rcases h with h | ⟨u, x, v, rfl, hv, hu, hx, h⟩
    · exact h.mono mem_glued
    · rw [← List.append_assoc]
      exact (h.mono mem_glued).after_path hv ((path_of_mem_rounds hu).trans (path_of_mem_kstar_rounds hx))

theorem leads_ignore_glued_target (hw : w ≠ []) :
    (g.glued s t).Leads .ignore t w r ↔
      ∃ x v, w = x ++ v ∧ v ≠ [] ∧ x ∈ (g.rounds s t)∗ ∧ g.Leads .ignore t v r := by
  constructor
  · intro h
    rcases (leads_ignore_glued hw).mp h with h | ⟨u, x, v, rfl, hv, hu, hx, h⟩
    · exact ⟨[], w, rfl, hw, Language.nil_mem_kstar _, h⟩
    · exact ⟨u ++ x, v, by simp, hv, append_mem_kstar (mem_kstar_of_mem hu) hx, h⟩
  · intro h
    obtain ⟨x, v, rfl, hv, hx, h⟩ := h
    exact (h.mono mem_glued).after_path hv (path_of_mem_kstar_rounds hx)

/-- The crossing lies before the last character, for that is read by an edge of the right graph. -/
theorem leads_ignore_concatenated (hg : g.Closed) (hh : h.Closed) (hd : ∀ q ∈ g.states, q ∉ h.states)
    (hs : ∀ q ∈ s, q ∈ g.states) (ht : t ∈ h.states) (hp : p ∈ g.states) (hr : r ∈ h.states) (hw : w ≠ []) :
    (g.joined h s t).Leads .ignore p w r ↔
      ∃ u v, w = u ++ v ∧ v ≠ [] ∧ (∃ q ∈ s, g.Path p u q) ∧ h.Leads .ignore t v r := by
  constructor
  · intro hl
    rcases (leads_ignore_glued hw).mp hl with hl | ⟨u, x, v, rfl, hne, ⟨q, hq, hu⟩, hx, hv⟩
    · have hr' : r ∈ g.states := (hl.confine (confines_absorb_left hg hh hd) hp).2
      exact absurd hr (hd r hr')
    · rw [rounds_absorb_eq_zero hg hh hd hs ht, kstar_zero, Language.mem_one] at hx
      subst hx
      have hu := (hu.confine (confines_absorb_left hg hh hd) hp).1
      have hv := (hv.confine (confines_absorb_right hg hh hd) ht).1
      exact ⟨u, v, rfl, hne, ⟨q, hq, hu⟩, hv⟩
  · intro hl
    obtain ⟨u, v, rfl, hne, ⟨q, hq, hu⟩, hv⟩ := hl
    have hu : (g.joined h s t).Path p u t := path_of_mem_rounds ⟨q, hq, hu.mono mem_absorb_left⟩
    exact ((hv.mono mem_absorb_right).mono mem_glued).after_path hne hu

end NondetGraph

namespace Automaton

open scoped Computability

variable {a b : Automaton} {p q : State} {w : List Char} {t : Trailing}

/-! ## The languages -/

theorem accepts_iff_of_trailing (h : a.Valid) (ht : a.options.trailing = t) : a.accepts w = .ok true ↔ a.Spells t w := by
  rw [← ht]
  exact mem_language h

theorem spells_nil : a.Spells t [] ↔ a.Spells .follow [] := by
  unfold Spells
  simp only [NondetGraph.leads_nil]

section
variable (ha : a.Valid) (hb : b.Valid) (hd : ∀ q ∈ a.graph.states, q ∉ b.graph.states)
variable (hp : a.initial = some p) (hq : b.initial = some q)
include ha hb hd hp hq

theorem spells_concatenated_nil {t' : Trailing} :
    (concatenated a b p q).Spells t [] ↔ a.Spells t [] ∧ b.Spells t' [] := by
  rw [spells_nil, spells_concatenated ha hb hd hp hq, spells_nil (a := a), spells_nil (a := b)]
  constructor
  · intro h
    obtain ⟨u, v, hw, hu, hv⟩ := h
    obtain ⟨rfl, rfl⟩ := List.append_eq_nil_iff.mp hw.symm
    exact ⟨hu, hv⟩
  · intro h
    exact ⟨[], [], rfl, h⟩

theorem spells_ignore_concatenated (hw : w ≠ []) :
    (concatenated a b p q).Spells .ignore w ↔
      ∃ u v, w = u ++ v ∧ v ≠ [] ∧ a.Spells .follow u ∧ b.Spells .ignore v := by
  have hi : (concatenated a b p q).initial = some p := rfl
  have hleads : ∀ r ∈ b.finals, (concatenated a b p q).graph.Leads .ignore p w r ↔
      ∃ u v, w = u ++ v ∧ v ≠ [] ∧ (∃ q ∈ a.finals, a.graph.Path p u q) ∧ b.graph.Leads .ignore q v r := fun r hr =>
    NondetGraph.leads_ignore_concatenated ha.closed hb.closed hd (fun _ => ha.final_declared)
      (hb.initial_declared hq) (ha.initial_declared hp) (hb.final_declared hr) hw
  simp only [spells_of_initial hi, spells_of_initial hp, spells_of_initial hq]
  constructor
  · intro h
    obtain ⟨r, hr, h⟩ := h
    obtain ⟨u, v, hw, hv, hu, h⟩ := (hleads r hr).mp h
    exact ⟨u, v, hw, hv, hu, r, hr, h⟩
  · intro h
    obtain ⟨u, v, hw, hv, hu, r, hr, h⟩ := h
    exact ⟨r, hr, (hleads r hr).mpr ⟨u, v, hw, hv, hu, h⟩⟩

end

theorem spells_starred_nil : (a.starred p).Spells t [] :=
  ⟨p, rfl, p, SortedSet.mem_insert.mpr (.inl rfl), NondetGraph.leads_nil.mpr (.nil p)⟩

theorem mem_kstar_rounds_iff (h : a.Valid) (hp : a.initial = some p) {x : List Char} :
    x ∈ (a.graph.rounds a.finals p)∗ ↔
      ∃ us : List (List Char), x = us.flatten ∧ ∀ u ∈ us, (a.under .follow).accepts u = .ok true := by
  have hu : (a.under .follow).language = a.graph.rounds a.finals p := language_eq_rounds (h.under .follow) rfl hp
  rw [← hu]
  exact Language.mem_kstar

theorem spells_ignore_starred (hw : w ≠ []) :
    (a.starred p).Spells .ignore w ↔
      ∃ x v c q r, w = x ++ (v ++ [c]) ∧ x ∈ (a.graph.rounds a.finals p)∗ ∧ a.graph.Path p v q ∧
        ⟨q, .char c, r⟩ ∈ a.graph.edges ∧ (r = p ∨ r ∈ a.finals) := by
  have hp : (a.starred p).initial = some p := rfl
  have hleads : ∀ r, (a.starred p).graph.Leads .ignore p w r ↔
      ∃ x v, w = x ++ v ∧ v ≠ [] ∧ x ∈ (a.graph.rounds a.finals p)∗ ∧ a.graph.Leads .ignore p v r := fun r =>
    NondetGraph.leads_ignore_glued_target hw
  rw [spells_of_initial hp]
  constructor
  · intro h
    obtain ⟨r, hr, h⟩ := h
    obtain ⟨x, v, rfl, hv, hx, h⟩ := (hleads r).mp h
    obtain ⟨v, c, q, rfl, hv, he⟩ := (NondetGraph.leads_ignore_of_ne_nil hv).mp h
    exact ⟨x, v, c, q, r, rfl, hx, hv, he, SortedSet.mem_insert.mp hr⟩
  · intro h
    obtain ⟨x, v, c, q, r, hw, hx, hv, he, hr⟩ := h
    have hl : a.graph.Leads .ignore p (v ++ [c]) r := NondetGraph.leads_ignore_snoc.mpr ⟨q, hv, he⟩
    exact ⟨r, SortedSet.mem_insert.mpr hr, (hleads r).mpr ⟨x, v ++ [c], hw, by simp, hx, hl⟩⟩

/-- Up to the last crossing of a glued edge, words are read with trailing epsilon edges followed; what is read behind it
is not empty. -/
theorem concat_star_accept_iff_of_ignore {a : Automaton} (ha : a.validate = .ok ())
    (ht : a.options.trailing = .ignore) :
    (∀ b : Automaton, b.validate = .ok () → (∀ q ∈ a.states, q ∉ b.states) →
      ∃ c, a.concat b = .ok c ∧ c.validate = .ok () ∧
        (c.accepts [] = .ok true ↔ a.accepts [] = .ok true ∧ b.accepts [] = .ok true) ∧
        ∀ w, w ≠ [] → (c.accepts w = .ok true ↔ ∃ u v, w = u ++ v ∧ v ≠ [] ∧
          (a.under .follow).accepts u = .ok true ∧ (b.under .ignore).accepts v = .ok true)) ∧
      ∃ p s, a.initial = some p ∧ a.star = .ok s ∧ s.validate = .ok () ∧ s.accepts [] = .ok true ∧
        ∀ w, w ≠ [] → (s.accepts w = .ok true ↔ ∃ (us : List (List Char)) (v : List Char) (c : Char) (q r : State),
          w = us.flatten ++ (v ++ [c]) ∧ (∀ u ∈ us, (a.under .follow).accepts u = .ok true) ∧
            a.graph.Path p v q ∧ ⟨q, .char c, r⟩ ∈ a.graph.edges ∧ (r = p ∨ r ∈ a.finals)) := by
  have va := validate_eq_ok.mp ha
  obtain ⟨p, hp, _⟩ := va.exists_initial
  constructor
  · intro b hb hd
    have vb := validate_eq_ok.mp hb
    have hd : ∀ q ∈ a.graph.states, q ∉ b.graph.states := by simpa using hd
    obtain ⟨q, hq, _⟩ := vb.exists_initial
    have vc := valid_concatenated va vb hp hq
    have hc : ∀ w, (concatenated a b p q).accepts w = .ok true ↔ (concatenated a b p q).Spells .ignore w :=
      fun _ => accepts_iff_of_trailing vc ht
    have hu : ∀ u, (a.under .follow).accepts u = .ok true ↔ a.Spells .follow u := fun u => mem_language_under va
    have hv : ∀ v, (b.under .ignore).accepts v = .ok true ↔ b.Spells .ignore v := fun v => mem_language_under vb
    refine ⟨concatenated a b p q, concat_of_valid va vb hp hq hd, validate_eq_ok.mpr vc, ?_, fun w hw => ?_⟩
    · have han : a.accepts [] = .ok true ↔ a.Spells .ignore [] := accepts_iff_of_trailing va ht
      have hbn : b.accepts [] = .ok true ↔ b.Spells b.options.trailing [] := mem_language vb
      rw [hc, han, hbn]
      exact spells_concatenated_nil va vb hd hp hq
    · simp only [hc, hu, hv]
      exact spells_ignore_concatenated va vb hd hp hq hw
  · have vs := va.starred hp
    have hs : ∀ w, (a.starred p).accepts w = .ok true ↔ (a.starred p).Spells .ignore w := fun _ =>
      accepts_iff_of_trailing vs ht
    refine ⟨p, a.starred p, hp, star_of_valid va hp, validate_eq_ok.mpr vs, (hs []).mpr spells_starred_nil, ?_⟩
    intro w hw
    rw [hs, spells_ignore_starred hw]
    simp only [mem_kstar_rounds_iff va hp]
    constructor
    · intro h
      obtain ⟨_, v, c, q, r, rfl, ⟨us, rfl, hus⟩, h⟩ := h
      exact ⟨us, v, c, q, r, rfl, hus, h⟩
    · intro h
      obtain ⟨us, v, c, q, r, hw, hus, h⟩ := h
      exact ⟨us.flatten, v, c, q, r, hw, ⟨us, rfl, hus⟩, h⟩

theorem concat_star_accept_iff_of_ignore_xThenEpsilon :
    xThenEpsilon.validate = .ok () ∧ xThenEpsilon.options.trailing = .ignore ∧ someYs.validate = .ok () ∧
      (∀ q ∈ xThenEpsilon.states, q ∉ someYs.states) ∧
      (∃ c, xThenEpsilon.concat someYs = .ok c ∧ c.validate = .ok () ∧
        (c.accepts [] = .ok true ↔ xThenEpsilon.accepts [] = .ok true ∧ someYs.accepts [] = .ok true) ∧
        ∀ w, w ≠ [] → (c.accepts w = .ok true ↔ ∃ u v, w = u ++ v ∧ v ≠ [] ∧
          (xThenEpsilon.under .follow).accepts u = .ok true ∧ (someYs.under .ignore).accepts v = .ok true)) ∧
      ∃ p s, xThenEpsilon.initial = some p ∧ xThenEpsilon.star = .ok s ∧ s.validate = .ok () ∧
        s.accepts [] = .ok true ∧
        ∀ w, w ≠ [] → (s.accepts w = .ok true ↔ ∃ (us : List (List Char)) (v : List Char) (c : Char) (q r : State),
          w = us.flatten ++ (v ++ [c]) ∧ (∀ u ∈ us, (xThenEpsilon.under .follow).accepts u = .ok true) ∧
            xThenEpsilon.graph.Path p v q ∧ ⟨q, .char c, r⟩ ∈ xThenEpsilon.graph.edges ∧
            (r = p ∨ r ∈ xThenEpsilon.finals)) := by
  have hd : ∀ q ∈ xThenEpsilon.states.toList, q ∉ someYs.states := by decide
  obtain ⟨hconcat, hstar⟩ := concat_star_accept_iff_of_ignore (a := xThenEpsilon) rfl rfl
  exact ⟨rfl, rfl, rfl, hd, hconcat someYs rfl hd, hstar⟩

/-- The word `x` ends before an epsilon edge that does not count, and in `xy` that edge is followed. -/
example : xThenEpsilon.accepts ['x'] = .ok false ∧
    ∃ c, xThenEpsilon.concat someYs = .ok c ∧ c.accepts ['x', 'y'] = .ok true ∧ c.accepts ['x'] = .ok false :=
  ⟨rfl, _, rfl, rfl, rfl⟩

end Automaton

end Automata
