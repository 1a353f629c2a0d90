import Automata.Proofs.Gluing
import Automata.Proofs.Minting

/-!
# The language of a union

No edge leads back to the fresh state and none from one operand to the other, so a run is
a run of one operand throughout (`leads_forked`).
-/

namespace Automata

namespace NondetGraph

variable {g h : NondetGraph} {n p q r : State} {w : List Char} {t : Trailing}

theorem path_of_epsilon_only (hn : ∀ c m, ⟨n, .char c, m⟩ ∉ g.edges) (hr : r ≠ n) :
    g.Path n w r ↔ ∃ m, ⟨n, .epsilon, m⟩ ∈ g.edges ∧ g.Path m w r := by
  constructor
  · intro hw
    cases hw with
    | nil => exact absurd rfl hr
    | epsilon he hw => exact ⟨_, he, hw⟩
    | char he _ => exact absurd he (hn _ _)
  · intro hw
    obtain ⟨m, he, hw⟩ := hw
    exact .epsilon he hw

/-- Such a state decides nothing: a word leads on from one of the states behind it. -/
theorem leads_of_epsilon_only (hn : ∀ c m, ⟨n, .char c, m⟩ ∉ g.edges) (hr : r ≠ n) :
    g.Leads t n w r ↔ ∃ m, ⟨n, .epsilon, m⟩ ∈ g.edges ∧ g.Leads t m w r := by
  cases t with
  | follow => exact path_of_epsilon_only hn hr
  | ignore =>
    rcases List.eq_nil_or_concat w with rfl | ⟨u, c, rfl⟩
    · simp only [leads_nil]
      exact path_of_epsilon_only hn hr
    simp only [List.concat_eq_append, leads_ignore_snoc]
    have hne : ∀ {q}, ⟨q, .char c, r⟩ ∈ g.edges → q ≠ n := by
      intro q he h
      subst h
      exact hn _ _ he
    constructor
    · intro hw
      obtain ⟨q, hu, he⟩ := hw
      obtain ⟨m, hm, hu⟩ := (path_of_epsilon_only hn (hne he)).mp hu
      exact ⟨m, hm, q, hu, he⟩
    · intro hw
      obtain ⟨m, hm, q, hu, he⟩ := hw
      exact ⟨q, .epsilon hm hu, he⟩

/-! ## The fork -/

/-- Both graphs, and a state `n` with epsilon edges to `p` and `q`. -/
def forked (g h : NondetGraph) (n p q : State) : NondetGraph :=
  glued (glued ((g.absorb h).declare n) (.singleton n) p) (.singleton n) q

theorem mem_states_forked : r ∈ (g.forked h n p q).states ↔ r = n ∨ r ∈ g.states ∨ r ∈ h.states := by
  simp [forked, Graph.declare]

theorem mem_edges_forked {e : Edge Symbol} :
    e ∈ (g.forked h n p q).edges ↔
      e ∈ (g.absorb h).edges ∨ e = ⟨n, .epsilon, p⟩ ∨ e = ⟨n, .epsilon, q⟩ := by
  simp [forked, mem_edges_glued, Graph.declare, or_assoc, eq_comm]

theorem fork_declared : ∀ r ∈ SortedSet.singleton n, r ∈ ((g.absorb h).declare n).states := by
  intro r hr
  rw [SortedSet.mem_singleton.mp hr]
  exact SortedSet.mem_insert.mpr (.inl rfl)

theorem left_declared (hp : p ∈ g.states) : p ∈ ((g.absorb h).declare n).states :=
  SortedSet.mem_insert.mpr (.inr (Graph.mem_states_absorb.mpr (.inl hp)))

theorem right_declared (hq : q ∈ h.states) : q ∈ ((g.absorb h).declare n).states :=
  SortedSet.mem_insert.mpr (.inr (Graph.mem_states_absorb.mpr (.inr hq)))

theorem glue_forked (hp : p ∈ g.states) (hq : q ∈ h.states) :
    glue ((g.absorb h).declare n) (.singleton n) p = .ok (glued ((g.absorb h).declare n) (.singleton n) p) ∧
      glue (glued ((g.absorb h).declare n) (.singleton n) p) (.singleton n) q = .ok (g.forked h n p q) :=
  ⟨glue_of_declared fork_declared (left_declared hp), glue_of_declared fork_declared (right_declared hq)⟩

section
variable (hg : g.Closed) (hh : h.Closed)
include hg hh

theorem closed_forked (hp : p ∈ g.states) (hq : q ∈ h.states) : (g.forked h n p q).Closed := by
  have hd : ((g.absorb h).declare n).Closed := (closed_absorb hg hh).declare n
  exact closed_glued (closed_glued hd fork_declared (left_declared hp)) fork_declared (right_declared hq)

theorem source_ne_fork (hng : n ∉ g.states) (hnh : n ∉ h.states) {e : Edge Symbol} (he : e ∈ (g.absorb h).edges) :
    e.source ≠ n := by
  intro hs
  rcases Graph.mem_edges_absorb.mp he with he | he
  · exact hng (hs ▸ (hg e he).1)
  · exact hnh (hs ▸ (hh e he).1)

variable (hd : ∀ q ∈ g.states, q ∉ h.states)
include hd

theorem confines_forked_left (hng : n ∉ g.states) : Confines g (g.forked h n p q) (· ∈ g.states) := by
  intro e he hs
  rcases mem_edges_forked.mp he with he | rfl | rfl
  · exact confines_absorb_left hg hh hd e he hs
  · exact absurd hs hng
  · exact absurd hs hng

theorem confines_forked_right (hnh : n ∉ h.states) : Confines h (g.forked h n p q) (· ∈ h.states) := by
  intro e he hs
  rcases mem_edges_forked.mp he with he | rfl | rfl
  · exact confines_absorb_right hg hh hd e he hs
  · exact absurd hs hnh
  · exact absurd hs hnh

theorem leads_forked (hp : p ∈ g.states) (hq : q ∈ h.states) (hng : n ∉ g.states) (hnh : n ∉ h.states) (hr : r ≠ n) :
    (g.forked h n p q).Leads t n w r ↔ g.Leads t p w r ∨ h.Leads t q w r := by
  have hsub : ∀ e ∈ (g.absorb h).edges, e ∈ (g.forked h n p q).edges := fun e he => mem_edges_forked.mpr (.inl he)
  have hne : ∀ {e}, e ∈ (g.absorb h).edges → e.source ≠ n := source_ne_fork hg hh hng hnh
  have hn : ∀ c m, ⟨n, .char c, m⟩ ∉ (g.forked h n p q).edges := by
    intro c m he
    rcases mem_edges_forked.mp he with he | he | he
    · exact hne he rfl
    · cases he
    · cases he
  rw [leads_of_epsilon_only hn hr]
  constructor
  · intro hw
    obtain ⟨m, hm, hw⟩ := hw
    rcases mem_edges_forked.mp hm with hm | hm | hm
    · exact absurd rfl (hne hm)
    · cases hm
      exact .inl (hw.confine (confines_forked_left hg hh hd hng) hp).1
    · cases hm
      exact .inr (hw.confine (confines_forked_right hg hh hd hnh) hq).1
  · intro hw
    rcases hw with hw | hw
    · exact ⟨p, mem_edges_forked.mpr (.inr (.inl rfl)), hw.mono fun e he => hsub e (mem_absorb_left e he)⟩
    · exact ⟨q, mem_edges_forked.mpr (.inr (.inr rfl)), hw.mono fun e he => hsub e (mem_absorb_right e he)⟩

end

end NondetGraph

namespace Automaton

variable {a b : Automaton} {n p q : State} {w : List Char} {t : Trailing} {m : Allocator}

def united (a b : Automaton) (n p q : State) : Automaton :=
  ⟨.nondet (a.graph.forked b.graph n p q), some n, a.finals ∪ b.finals, a.options⟩

theorem union_eq_ok {u : Automaton} {m' : Allocator} (h : a.union b m = .ok u m') :
    ∃ p q, a.initial = some p ∧ b.initial = some q ∧ u = united a b ⟨m.counter⟩ p q := by
  unfold union at h
  obtain ⟨⟨p, q⟩, m₁, hop, h⟩ := Minting.bind_eq_ok.mp h
  obtain ⟨hop, hm⟩ := Minting.ofExcept_eq_ok.mp hop
  obtain ⟨hp, hq⟩ := operands_eq_ok hop
  obtain ⟨n, m₂, hmint, h⟩ := Minting.bind_eq_ok.mp h
  obtain ⟨_, hfresh, _⟩ := Allocator.mint_eq_ok.mp hmint
  by_cases hn : n ∈ (a.graph.absorb b.graph).states
  · simp only [hn, if_true] at h
    cases h
  · simp only [hn, if_false] at h
    obtain ⟨g, _, hg, h⟩ := Minting.bind_eq_ok.mp h
    obtain ⟨g', _, hg', h⟩ := Minting.bind_eq_ok.mp h
    obtain ⟨_, rfl⟩ := NondetGraph.glue_eq_ok.mp (Minting.ofExcept_eq_ok.mp hg).1
    obtain ⟨_, rfl⟩ := NondetGraph.glue_eq_ok.mp (Minting.ofExcept_eq_ok.mp hg').1
    cases h
    rw [← hm, ← hfresh]
    exact ⟨p, q, hp, hq, rfl⟩

section
variable (ha : a.Valid) (hb : b.Valid) (hp : a.initial = some p) (hq : b.initial = some q)
include ha hb hp hq

theorem union_of_valid (hd : ∀ q ∈ a.graph.states, q ∉ b.graph.states) (hm : 0 < m.room)
    (hna : ⟨m.counter⟩ ∉ a.graph.states) (hnb : ⟨m.counter⟩ ∉ b.graph.states) :
    a.union b m = .ok (united a b ⟨m.counter⟩ p q) ⟨m.counter + 1⟩ := by
  have hfresh : ⟨m.counter⟩ ∉ (a.graph.absorb b.graph).states := by
    rw [Graph.mem_states_absorb]
    exact not_or.mpr ⟨hna, hnb⟩
  obtain ⟨hleft, hright⟩ :=
    NondetGraph.glue_forked (n := ⟨m.counter⟩) (ha.initial_declared hp) (hb.initial_declared hq)
  unfold union
  rw [operands_of_disjoint hd hp hq, Minting.ofExcept_ok, pure_bind]
  refine (Minting.bind_of_ok (Allocator.mint_of_room hm)).trans ?_
  simp only [if_neg hfresh, hleft, hright, Minting.ofExcept_ok, pure_bind]
  rfl

omit ha hb in
theorem union_of_exhausted (hd : ∀ q ∈ a.graph.states, q ∉ b.graph.states) (hm : m.room = 0) :
    a.union b m = .error .exhausted m := by
  unfold union
  rw [operands_of_disjoint hd hp hq, Minting.ofExcept_ok, pure_bind]
  exact Minting.bind_of_error (Allocator.mint_of_exhausted hm)

omit ha hb in
theorem wellFormed_united (ha : a.WellFormed) (hb : b.WellFormed) : (united a b n p q).WellFormed := by
  have hc := NondetGraph.closed_forked (n := n) ha.closed hb.closed (ha.initial_declared hp) (hb.initial_declared hq)
  refine wellFormed_of_nondet (NondetGraph.mem_states_forked.mpr (.inl rfl)) ?_ hc
  intro r hr
  rw [NondetGraph.mem_states_forked]
  rcases SortedSet.mem_union.mp hr with hr | hr
  · exact .inr (.inl (ha.final_declared hr))
  · exact .inr (.inr (hb.final_declared hr))

theorem valid_united : (united a b n p q).Valid := by
  obtain ⟨r, hr⟩ := ha.finals
  exact (wellFormed_united hp hq ha.wellFormed hb.wellFormed).valid nofun ⟨r, SortedSet.mem_union.mpr (.inl hr)⟩ nofun

theorem spells_united (hd : ∀ q ∈ a.graph.states, q ∉ b.graph.states) (hna : n ∉ a.graph.states)
    (hnb : n ∉ b.graph.states) : (united a b n p q).Spells t w ↔ a.Spells t w ∨ b.Spells t w := by
  have hi : (united a b n p q).initial = some n := rfl
  have hfa : ∀ {r}, r ∈ a.finals → r ∈ a.graph.states := ha.final_declared
  have hfb : ∀ {r}, r ∈ b.finals → r ∈ b.graph.states := hb.final_declared
  have hleads : ∀ {r}, r ≠ n → ((united a b n p q).graph.Leads t n w r ↔
      a.graph.Leads t p w r ∨ b.graph.Leads t q w r) :=
    NondetGraph.leads_forked ha.closed hb.closed hd (ha.initial_declared hp) (hb.initial_declared hq) hna hnb
  rw [spells_of_initial hi, spells_of_initial hp, spells_of_initial hq]
  constructor
  · intro hw
    obtain ⟨r, hr, hw⟩ := hw
    have hrn : r ≠ n := by
      intro h
      subst h
      rcases SortedSet.mem_union.mp hr with hr | hr
      · exact hna (hfa hr)
      · exact hnb (hfb hr)
    -- a run within one operand ends at a state of it, so it is that operand's final state
    rcases (hleads hrn).mp hw with hw | hw
    · have hra := (hw.confine (NondetGraph.confines_self ha.closed) (ha.initial_declared hp)).2
      rcases SortedSet.mem_union.mp hr with hr | hr
      · exact .inl ⟨r, hr, hw⟩
      · exact absurd (hfb hr) (hd r hra)
    · have hrb := (hw.confine (NondetGraph.confines_self hb.closed) (hb.initial_declared hq)).2
      rcases SortedSet.mem_union.mp hr with hr | hr
      · exact absurd hrb (hd r (hfa hr))
      · exact .inr ⟨r, hr, hw⟩
  · intro hw
    rcases hw with ⟨r, hr, hw⟩ | ⟨r, hr, hw⟩
    · have hrn : r ≠ n := fun e => hna (e ▸ hfa hr)
      exact ⟨r, SortedSet.mem_union.mpr (.inl hr), (hleads hrn).mpr (.inl hw)⟩
    · have hrn : r ≠ n := fun e => hnb (e ▸ hfb hr)
      exact ⟨r, SortedSet.mem_union.mpr (.inr hr), (hleads hrn).mpr (.inr hw)⟩

theorem language_united (hd : ∀ q ∈ a.graph.states, q ∉ b.graph.states) (hna : n ∉ a.graph.states)
    (hnb : n ∉ b.graph.states) (hta : a.options.trailing = .follow) (htb : b.options.trailing = .follow) :
    (united a b n p q).language = a.language + b.language := by
  apply Language.ext
  intro w
  rw [mem_language_of_follow (valid_united ha hb hp hq) hta, Language.mem_add, mem_language_of_follow ha hta,
    mem_language_of_follow hb htb]
  exact spells_united ha hb hp hq hd hna hnb

end

theorem union_accepts_iff {a b : Automaton} {m : Allocator} (ha : a.validate = .ok ()) (hb : b.validate = .ok ())
    (hd : ∀ q ∈ a.states, q ∉ b.states) (hm : 0 < m.room) (hna : ⟨m.counter⟩ ∉ a.states)
    (hnb : ⟨m.counter⟩ ∉ b.states) :
    ∃ u m', a.union b m = .ok u m' ∧ u.validate = .ok () ∧
      ∀ w, u.accepts w = .ok true ↔
        a.accepts w = .ok true ∨ (b.under a.options.trailing).accepts w = .ok true := by
  have va := validate_eq_ok.mp ha
  have vb := validate_eq_ok.mp hb
  have hd : ∀ q ∈ a.graph.states, q ∉ b.graph.states := by simpa using hd
  rw [← states_graph] at hna hnb
  obtain ⟨p, hp, _⟩ := va.exists_initial
  obtain ⟨q, hq, _⟩ := vb.exists_initial
  have vu : (united a b ⟨m.counter⟩ p q).Valid := valid_united va vb hp hq
  refine ⟨united a b ⟨m.counter⟩ p q, _, union_of_valid va vb hp hq hd hm hna hnb, validate_eq_ok.mpr vu, fun w => ?_⟩
  have hu : (united a b ⟨m.counter⟩ p q).accepts w = .ok true ↔
      (united a b ⟨m.counter⟩ p q).Spells a.options.trailing w := mem_language vu
  have hwa : a.accepts w = .ok true ↔ a.Spells a.options.trailing w := mem_language va
  have hwb : (b.under a.options.trailing).accepts w = .ok true ↔ b.Spells a.options.trailing w :=
    mem_language_under vb
  rw [hu, hwa, hwb]
  exact spells_united va vb hp hq hd hna hnb

/-- Reads `x` and may then take an epsilon edge, which it ignores at the end of the input. -/
def xThenEpsilon : Automaton :=
  (ofTable (.nondet ⟨.ofList [⟨0⟩, ⟨1⟩, ⟨2⟩], .ofList [⟨⟨0⟩, .char 'x', ⟨1⟩⟩, ⟨⟨1⟩, .epsilon, ⟨2⟩⟩]⟩) (some ⟨0⟩)
    (.singleton ⟨2⟩)).under .ignore

/-- Reads `y` at least once, with a deterministic table. -/
def someYs : Automaton :=
  ofTable (.det (((DetGraph.ofStates (.ofList [⟨3⟩, ⟨4⟩])).direct ⟨⟨3⟩, 'y', ⟨4⟩⟩).direct ⟨⟨4⟩, 'y', ⟨4⟩⟩))
    (some ⟨3⟩) (.singleton ⟨4⟩)

theorem union_accepts_iff_xThenEpsilon_someYs :
    xThenEpsilon.validate = .ok () ∧ someYs.validate = .ok () ∧
      (∀ q ∈ xThenEpsilon.states, q ∉ someYs.states) ∧ 0 < (Allocator.mk 5).room ∧
      (⟨5⟩ : State) ∉ xThenEpsilon.states ∧ (⟨5⟩ : State) ∉ someYs.states ∧
      ∃ u m', xThenEpsilon.union someYs ⟨5⟩ = .ok u m' ∧ u.validate = .ok () ∧
        ∀ w, u.accepts w = .ok true ↔ xThenEpsilon.accepts w = .ok true ∨
          (someYs.under xThenEpsilon.options.trailing).accepts w = .ok true :=
  have hd : ∀ q ∈ xThenEpsilon.states.toList, q ∉ someYs.states := by decide
  have hna : (⟨5⟩ : State) ∉ xThenEpsilon.states := by decide
  have hnb : (⟨5⟩ : State) ∉ someYs.states := by decide
  ⟨rfl, rfl, hd, by decide, hna, hnb, union_accepts_iff rfl rfl hd (by decide) hna hnb⟩

end Automaton

end Automata
