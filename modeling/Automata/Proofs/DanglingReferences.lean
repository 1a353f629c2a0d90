import Automata.Proofs.Concatenation
import Automata.Proofs.Union

/-!
# Dangling references

The combinators merge what their operands refer to unchecked, so a result refers to what
they refer to and declares what they declare.
-/

namespace Automata

namespace Graph

variable {L : Type} [Ord L] {g h : Graph L} {q : State}

def ends (g : Graph L) : StateSet := g.edges.map Edge.source ∪ g.edges.map Edge.target

theorem mem_ends : q ∈ g.ends ↔ ∃ e ∈ g.edges, e.Touches q := by
  simp only [ends, SortedSet.mem_union, SortedSet.mem_map, Edge.Touches, and_or_left, exists_or]

theorem closed_iff_ends : g.Closed ↔ ∀ q ∈ g.ends, q ∈ g.states := by
  refine ⟨fun hg q hq => ?_, fun hg e he => ?_⟩
  · obtain ⟨e, he, hq⟩ := mem_ends.mp hq
    rcases hq with rfl | rfl
    · exact (hg e he).1
    · exact (hg e he).2
  · have hs : e.source ∈ g.ends := mem_ends.mpr ⟨e, he, .inl rfl⟩
    have ht : e.target ∈ g.ends := mem_ends.mpr ⟨e, he, .inr rfl⟩
    exact ⟨hg _ hs, hg _ ht⟩

theorem mem_ends_absorb [Std.TransOrd L] [Std.LawfulEqOrd L] : q ∈ (g.absorb h).ends ↔ q ∈ g.ends ∨ q ∈ h.ends := by
  simp only [mem_ends, mem_edges_absorb, or_and_right, exists_or]

end Graph

namespace NondetGraph

variable {g h : NondetGraph} {s : StateSet} {n p q r t : State}

theorem mem_ends_glued : q ∈ (g.glued s t).ends ↔ q ∈ g.ends ∨ q ∈ s ∨ q = t ∧ ∃ r, r ∈ s := by
  simp only [Graph.mem_ends, mem_edges_glued, or_and_right, exists_or]
  refine or_congr_right ⟨fun h => ?_, fun h => ?_⟩
  · obtain ⟨_, ⟨r, hr, rfl⟩, hq⟩ := h
    rcases hq with rfl | rfl
    · exact .inl hr
    · exact .inr ⟨rfl, r, hr⟩
  · rcases h with hq | ⟨rfl, r, hr⟩
    · exact ⟨_, ⟨q, hq, rfl⟩, .inl rfl⟩
    · exact ⟨_, ⟨r, hr, rfl⟩, .inr rfl⟩

theorem mem_ends_forked :
    r ∈ (g.forked h n p q).ends ↔ r = n ∨ r = p ∨ r = q ∨ r ∈ g.ends ∨ r ∈ h.ends := by
  have hd : r ∈ ((g.absorb h).declare n).ends ↔ r ∈ g.ends ∨ r ∈ h.ends := Graph.mem_ends_absorb
  simp only [forked, mem_ends_glued, SortedSet.mem_singleton, hd, exists_eq, and_true]
  grind

end NondetGraph

namespace Automaton

variable {a b : Automaton} {n p q r : State} {x : Symbol}

/-! ## References -/

def references (a : Automaton) : StateSet := a.designated ∪ a.graph.ends

def dangling (a : Automaton) : StateSet := a.references.filter (· ∉ a.states)

theorem mem_references : q ∈ a.references ↔ a.initial = some q ∨ q ∈ a.finals ∨ q ∈ a.graph.ends := by
  simp [references, mem_designated, or_assoc]

theorem mem_dangling : q ∈ a.dangling ↔ q ∈ a.references ∧ q ∉ a.states := by simp [dangling]

theorem forall_dangling_iff {P : State → Prop} :
    (∀ q ∈ a.dangling, P q) ↔ ∀ q ∈ a.references, q ∈ a.states ∨ P q := by
  simp only [mem_dangling, and_imp, or_iff_not_imp_left]

theorem wellFormed_iff : a.WellFormed ↔ ∀ q ∈ a.references, q ∈ a.states := by
  simp only [references, SortedSet.mem_union, or_imp, forall_and, ← states_graph, ← Graph.closed_iff_ends]
  refine ⟨fun h => ⟨fun q hq => ?_, h.closed⟩, fun h => ⟨fun q hq => ?_, h.2⟩⟩
  · rw [states_graph]
    exact h.designated q hq
  · rw [← states_graph]
    exact h.1 q hq

theorem validate_nondet_iff {g : NondetGraph} {s : StateSet} {o : Options} :
    (mk (.nondet g) (some p) s o).validate = .ok () ↔
      (∃ q, q ∈ s) ∧ ∀ q ∈ (mk (.nondet g) (some p) s o).references, q ∈ g.states := by
  rw [validate_eq_ok]
  refine ⟨fun h => ⟨h.finals, wellFormed_iff.mp h.wellFormed⟩, fun h => ?_⟩
  exact (wellFormed_iff.mpr h.2).valid nofun h.1 nofun

/-! ## What the check reports -/

theorem undeclaredState_dangling (h : a.validate = .error (.undeclaredState q)) : q ∈ a.dangling := by
  rcases validate_error_cases h with h | h | ⟨r, hr, hn, h⟩ | ⟨_, _, _, h⟩ | ⟨_, _, _, _, h⟩
  · cases h
  · cases h
  · cases h
    exact mem_dangling.mpr ⟨SortedSet.mem_union.mpr (.inl hr), hn⟩
  · cases h
  · cases h

theorem undeclaredTransition_dangling (h : a.validate = .error (.undeclaredTransition p x q)) :
    p ∈ a.dangling ∨ q ∈ a.dangling := by
  rcases validate_error_cases h with h | h | ⟨_, _, _, h⟩ | ⟨e, he, hn, h⟩ | ⟨_, _, _, _, h⟩
  · cases h
  · cases h
  · cases h
  · cases h
    have hend : ∀ r, e.Touches r → r ∈ a.references := fun r hr =>
      SortedSet.mem_union.mpr (.inr (Graph.mem_ends.mpr ⟨e, he, hr⟩))
    by_cases hs : e.source ∈ a.states
    · exact .inr (mem_dangling.mpr ⟨hend _ (.inr rfl), fun ht => hn ⟨hs, ht⟩⟩)
    · exact .inl (mem_dangling.mpr ⟨hend _ (.inl rfl), hs⟩)
  · cases h

/-! ## Combinations -/

theorem mem_references_united (hp : a.initial = some p) (hq : b.initial = some q) :
    r ∈ (united a b n p q).references ↔ r = n ∨ r ∈ a.references ∨ r ∈ b.references := by
  have hi : (united a b n p q).initial = some n := rfl
  have hf : r ∈ (united a b n p q).finals ↔ r ∈ a.finals ∨ r ∈ b.finals := SortedSet.mem_union
  have he : r ∈ (united a b n p q).graph.ends ↔
      r = n ∨ r = p ∨ r = q ∨ r ∈ a.graph.ends ∨ r ∈ b.graph.ends := NondetGraph.mem_ends_forked
  simp only [mem_references, hi, hf, he, hp, hq, Option.some.injEq]
  grind

theorem mem_references_concatenated (hp : a.initial = some p) :
    r ∈ (concatenated a b p q).references ↔
      r ∈ a.references ∨ r ∈ b.finals ∨ r ∈ b.graph.ends ∨ r = q ∧ ∃ s, s ∈ a.finals := by
  have hi : (concatenated a b p q).initial = some p := rfl
  have hf : (concatenated a b p q).finals = b.finals := rfl
  have he : r ∈ (concatenated a b p q).graph.ends ↔
      (r ∈ a.graph.ends ∨ r ∈ b.graph.ends) ∨ r ∈ a.finals ∨ r = q ∧ ∃ s, s ∈ a.finals :=
    NondetGraph.mem_ends_glued.trans (or_congr_left Graph.mem_ends_absorb)
  simp only [mem_references, hi, hf, he, hp, Option.some.injEq]
  grind

theorem validate_united_iff (hp : a.initial = some p) (hq : b.initial = some q) :
    (united a b n p q).validate = .ok () ↔ (∃ r, r ∈ a.finals ∨ r ∈ b.finals) ∧
      (∀ r ∈ a.dangling, r ∈ b.states ∨ r = n) ∧ ∀ r ∈ b.dangling, r ∈ a.states ∨ r = n := by
  have hf : ∀ r, r ∈ a.finals ∪ b.finals ↔ r ∈ a.finals ∨ r ∈ b.finals := fun _ => SortedSet.mem_union
  have hs : ∀ r, r ∈ (a.graph.forked b.graph n p q).states ↔ r = n ∨ r ∈ a.states ∨ r ∈ b.states := fun r => by
    rw [NondetGraph.mem_states_forked, states_graph, states_graph]
  have hr : ∀ r, r ∈ (mk (.nondet (a.graph.forked b.graph n p q)) (some n) (a.finals ∪ b.finals) a.options).references ↔
      r = n ∨ r ∈ a.references ∨ r ∈ b.references := fun r => mem_references_united hp hq
  rw [united, validate_nondet_iff]
  simp only [hf, hs, hr, forall_dangling_iff]
  grind

theorem validate_concatenated_iff (hp : a.initial = some p) (hq : b.initial = some q) :
    (concatenated a b p q).validate = .ok () ↔ (∃ r, r ∈ b.finals) ∧ (∀ r ∈ a.dangling, r ∈ b.states) ∧
      ∀ r ∈ b.dangling, r ∈ a.states ∨
        r = q ∧ r ∉ b.finals ∧ r ∉ b.graph.ends ∧ ∀ s, s ∉ a.finals := by
  have hs : ∀ r, r ∈ (a.graph.joined b.graph a.finals q).states ↔ r ∈ a.states ∨ r ∈ b.states := fun r => by
    rw [NondetGraph.joined, NondetGraph.states_glued, Graph.mem_states_absorb, states_graph, states_graph]
  have hr : ∀ r, r ∈ (mk (.nondet (a.graph.joined b.graph a.finals q)) (some p) b.finals a.options).references ↔
      r ∈ a.references ∨ r ∈ b.finals ∨ r ∈ b.graph.ends ∨ r = q ∧ ∃ s, s ∈ a.finals := fun r =>
    mem_references_concatenated hp
  rw [concatenated, validate_nondet_iff]
  simp only [hs, hr, forall_dangling_iff, mem_references (a := b), hq, Option.some.injEq]
  grind

/-- The result is valid iff it has a final state and each dangling reference of an operand is captured: the other
operand declares it, or it is the state minted for the union. -/
theorem combination_valid_iff_captured {a b c : Automaton} :
    (∀ m m', a.union b m = .ok c m' →
      (c.validate = .ok () ↔ (∃ q, q ∈ a.finals ∨ q ∈ b.finals) ∧
        (∀ q ∈ a.dangling, q ∈ b.states ∨ q = ⟨m.counter⟩) ∧ ∀ q ∈ b.dangling, q ∈ a.states ∨ q = ⟨m.counter⟩)) ∧
    (a.concat b = .ok c →
      (c.validate = .ok () ↔ (∃ q, q ∈ b.finals) ∧ (∀ q ∈ a.dangling, q ∈ b.states) ∧
        ∀ q ∈ b.dangling, q ∈ a.states ∨
          b.initial = some q ∧ q ∉ b.finals ∧ q ∉ b.graph.ends ∧ ∀ r, r ∉ a.finals)) ∧
    (∀ q, a.validate = .error (.undeclaredState q) → q ∈ a.dangling) ∧
    ∀ p x q, a.validate = .error (.undeclaredTransition p x q) → p ∈ a.dangling ∨ q ∈ a.dangling := by
  refine ⟨fun m m' h => ?_, fun h => ?_, fun q => undeclaredState_dangling, fun p x q => undeclaredTransition_dangling⟩
  · obtain ⟨p, q, hp, hq, rfl⟩ := union_eq_ok h
    exact validate_united_iff hp hq
  · obtain ⟨p, q, hp, hq, rfl⟩ := concat_eq_ok h
    rw [validate_concatenated_iff hp hq, hq]
    simp only [Option.some.injEq, eq_comm (b := q)]

/-- Its only edge leads to a state that it does not declare. -/
def strayX : Automaton :=
  ofTable (.nondet ⟨.singleton ⟨0⟩, .singleton ⟨⟨0⟩, .char 'x', ⟨1⟩⟩⟩) (some ⟨0⟩) (.singleton ⟨0⟩)

/-- One state, final, without edges; `p` is to be the initial state. -/
def lone (q p : State) : Automaton := ofTable (.nondet (.ofStates (.singleton q))) (some p) (.singleton q)

theorem combination_valid_iff_captured_strayX :
    (∃ c m', strayX.union (lone ⟨1⟩ ⟨1⟩) ⟨5⟩ = .ok c m' ∧
      (c.validate = .ok () ↔ (∃ q, q ∈ strayX.finals ∨ q ∈ (lone ⟨1⟩ ⟨1⟩).finals) ∧
        (∀ q ∈ strayX.dangling, q ∈ (lone ⟨1⟩ ⟨1⟩).states ∨ q = ⟨5⟩) ∧
        ∀ q ∈ (lone ⟨1⟩ ⟨1⟩).dangling, q ∈ strayX.states ∨ q = ⟨5⟩)) ∧
    (∃ c, strayX.concat (lone ⟨1⟩ ⟨1⟩) = .ok c ∧
      (c.validate = .ok () ↔ (∃ q, q ∈ (lone ⟨1⟩ ⟨1⟩).finals) ∧
        (∀ q ∈ strayX.dangling, q ∈ (lone ⟨1⟩ ⟨1⟩).states) ∧
        ∀ q ∈ (lone ⟨1⟩ ⟨1⟩).dangling, q ∈ strayX.states ∨
          (lone ⟨1⟩ ⟨1⟩).initial = some q ∧ q ∉ (lone ⟨1⟩ ⟨1⟩).finals ∧ q ∉ (lone ⟨1⟩ ⟨1⟩).graph.ends ∧
            ∀ r, r ∉ strayX.finals)) ∧
    ((lone ⟨1⟩ ⟨7⟩).validate = .error (.undeclaredState ⟨7⟩) ∧ ⟨7⟩ ∈ (lone ⟨1⟩ ⟨7⟩).dangling) ∧
    strayX.validate = .error (.undeclaredTransition ⟨0⟩ (.char 'x') ⟨1⟩) ∧
      (⟨0⟩ ∈ strayX.dangling ∨ ⟨1⟩ ∈ strayX.dangling) := by
  obtain ⟨hunion, _, _, htransition⟩ := combination_valid_iff_captured (a := strayX) (b := lone ⟨1⟩ ⟨1⟩)
  obtain ⟨_, hconcat, _, _⟩ := combination_valid_iff_captured (a := strayX) (b := lone ⟨1⟩ ⟨1⟩)
  obtain ⟨_, _, hstate, _⟩ := combination_valid_iff_captured (a := lone ⟨1⟩ ⟨7⟩) (b := strayX) (c := strayX)
  exact ⟨⟨_, _, rfl, hunion ⟨5⟩ _ rfl⟩, ⟨_, rfl, hconcat rfl⟩, ⟨rfl, hstate ⟨7⟩ rfl⟩, rfl,
    htransition ⟨0⟩ (.char 'x') ⟨1⟩ rfl⟩

/-- The other operand declares the state, the union mints it, or the left operand has no final state. -/
theorem combination_hides_dangling :
    strayX.validate = .error (.undeclaredTransition ⟨0⟩ (.char 'x') ⟨1⟩) ∧
    (∃ c, strayX.concat (lone ⟨1⟩ ⟨1⟩) = .ok c ∧ c.validate = .ok ()) ∧
    (∃ c m', strayX.union (lone ⟨2⟩ ⟨2⟩) ⟨1⟩ = .ok c m' ∧ c.validate = .ok ()) ∧
    (lone ⟨1⟩ ⟨7⟩).validate = .error (.undeclaredState ⟨7⟩) ∧
    ∃ c, concat { lone ⟨0⟩ ⟨0⟩ with finals := ∅ } (lone ⟨1⟩ ⟨7⟩) = .ok c ∧ c.validate = .ok () :=
  ⟨rfl, ⟨_, rfl, rfl⟩, ⟨_, _, rfl, rfl⟩, rfl, _, rfl, rfl⟩

end Automaton

end Automata
