import Automata.Proofs.Concatenation
import Automata.Proofs.Edits
import Automata.Proofs.Star
import Automata.Proofs.SubsetAutomaton
import Automata.Proofs.Union

/-!
# Well-formed automata

However an automaton has come about by edits, combinations and determinizations,
everything it refers to is declared.
-/

namespace Automata

namespace Automaton

variable {a b c : Automaton} {p q : State} {m m' : Allocator} {limit : Option Nat} {e : Edit} {err : Error}

namespace WellFormed

theorem initial (h : a.WellFormed) (hp : a.initial = some p) : p ∈ a.states := by
  rw [← states_graph]
  exact h.initial_declared hp

theorem final (h : a.WellFormed) (hq : q ∈ a.finals) : q ∈ a.states := by
  rw [← states_graph]
  exact h.final_declared hq

theorem empty {t : Table} (ht : t.edges = ∅) : (ofTable t none ∅).WellFormed where
  designated q hq := by
    rcases mem_designated.mp hq with hq | hq
    · cases hq
    · exact absurd hq SortedSet.not_mem_empty
  closed e he := by
    have he : e ∈ t.edges := he
    rw [ht] at he
    exact absurd he SortedSet.not_mem_empty

theorem of_table_eq (h : a.WellFormed) (ht : b.table = a.table) (hd : ∀ q ∈ b.designated, q ∈ a.states) :
    b.WellFormed where
  designated q hq := by
    unfold states
    rw [ht]
    exact hd q hq
  closed := by
    unfold graph
    rw [ht]
    exact h.closed

theorem addState (h : a.WellFormed) : (a.addState q).2.WellFormed where
  designated r hr := by
    rw [← states_graph]
    show r ∈ (a.table.addState q).2.toNondet.states
    rw [Table.toNondet_addState]
    refine SortedSet.mem_insert.mpr (.inr ?_)
    rw [Table.states_toNondet]
    exact h.designated r hr
  closed := by
    show (a.table.addState q).2.toNondet.Closed
    rw [Table.toNondet_addState]
    exact h.closed.declare q

theorem removeState (h : a.WellFormed) (hb : a.removeState q = .ok b) : b.WellFormed := by
  unfold Automaton.removeState at hb
  by_cases hq : q ∈ a.table.states
  · obtain ⟨hfound, ht⟩ := Table.removeState_of_declared hq
    cases hr : a.table.removeState q with
    | mk found t =>
      rw [hr] at hb hfound ht
      obtain rfl : found = true := hfound
      have ht : t.toNondet = Graph.withdraw a.graph q := ht
      cases hb
      constructor
      · intro r hr
        rw [← states_graph]
        show r ∈ t.toNondet.states
        rw [ht]
        -- what is still designated was so before, and is not the withdrawn state
        have hr : r ∈ a.designated ∧ r ≠ q := by
          rcases mem_designated.mp hr with hr | hr
          · have hr : (if a.initial = some q then none else a.initial) = some r := hr
            split at hr
            · cases hr
            · rename_i hi
              exact ⟨mem_designated.mpr (.inl hr), fun e => hi (e ▸ hr)⟩
          · obtain ⟨hr, hne⟩ := SortedSet.mem_erase.mp hr
            exact ⟨mem_designated.mpr (.inr hr), hne⟩
        refine SortedSet.mem_erase.mpr ⟨?_, hr.2⟩
        rw [states_graph]
        exact h.designated r hr.1
      · show t.toNondet.Closed
        rw [ht]
        exact h.closed.withdraw q
  · rw [Table.removeState_of_undeclared hq] at hb
    cases hb

theorem addEdge {e : Edge Symbol} (h : a.WellFormed) (hb : a.addEdge e = .ok b) : b.WellFormed := by
  unfold Automaton.addEdge at hb
  cases ht : a.table.addEdge e with
  | error err =>
    rw [ht] at hb
    cases hb
  | ok t =>
    rw [ht] at hb
    cases hb
    obtain ⟨hw, hs, he⟩ := Table.addEdge_eq_ok ht
    constructor
    · intro r hr
      show r ∈ t.states
      rw [hs]
      exact h.designated r hr
    · intro f hf
      have hf : f ∈ t.toNondet.edges := hf
      show f.Within t.toNondet.states
      rw [Table.states_toNondet, hs]
      rcases he f hf with rfl | hf
      · exact hw
      · have hf : f.Within a.graph.states := h.closed f hf
        rwa [states_graph] at hf

theorem edit {e : Edit} (h : a.WellFormed) (hb : a.edit e = .ok b) : b.WellFormed := by
  cases e with
  | addState q =>
    cases hb
    exact h.addState
  | removeState q => exact h.removeState hb
  | setInitial q =>
    obtain ⟨hq, rfl⟩ := StateSet.require_then_eq_ok.mp hb
    refine h.of_table_eq rfl fun r hr => ?_
    rcases mem_designated.mp hr with hr | hr
    · obtain rfl : q = r := Option.some.inj hr
      exact hq
    · exact h.final hr
  | dropInitial =>
    cases hb
    refine h.of_table_eq rfl fun r hr => ?_
    rcases mem_designated.mp hr with hr | hr
    · cases hr
    · exact h.final hr
  | addFinal q =>
    obtain ⟨hq, rfl⟩ := StateSet.require_then_eq_ok.mp hb
    refine h.of_table_eq rfl fun r hr => ?_
    rcases mem_designated.mp hr with hr | hr
    · exact h.initial hr
    · rcases SortedSet.mem_insert.mp hr with rfl | hr
      · exact hq
      · exact h.final hr
  | dropFinal q =>
    obtain ⟨_, rfl⟩ := StateSet.require_then_eq_ok.mp hb
    refine h.of_table_eq rfl fun r hr => ?_
    rcases mem_designated.mp hr with hr | hr
    · exact h.initial hr
    · exact h.final (SortedSet.mem_erase.mp hr).1
  | addEdge e => exact h.addEdge hb
  | setOptions o =>
    cases hb
    exact h.of_table_eq rfl h.designated

/-! ## Combinations and determinizations -/

theorem union (ha : a.WellFormed) (hb : b.WellFormed) (h : a.union b m = .ok c m') : c.WellFormed := by
  obtain ⟨p, q, hp, hq, rfl⟩ := union_eq_ok h
  exact wellFormed_united hp hq ha hb

theorem concat (ha : a.WellFormed) (hb : b.WellFormed) (h : a.concat b = .ok c) : c.WellFormed := by
  obtain ⟨p, q, hp, hq, rfl⟩ := concat_eq_ok h
  exact wellFormed_concatenated hp hq ha hb

theorem star (ha : a.WellFormed) (h : a.star = .ok c) : c.WellFormed := by
  obtain ⟨p, hp, rfl⟩ := star_eq_ok h
  exact ha.starred hp

theorem determinize (h : a.determinize limit m = .ok c m') : c.WellFormed := by
  obtain ⟨f, _, hf, _⟩ := exists_isSubsetAutomaton h
  obtain ⟨_, p, _, hp, hps, _⟩ := hf.initial
  constructor
  · intro q hq
    rcases mem_designated.mp hq with hq | hq
    · rw [hp] at hq
      obtain rfl : p = q := Option.some.inj hq
      exact hps
    · exact (hf.mem_finals_iff.mp hq).1
  · intro e he
    obtain ⟨hs, ht, _⟩ := (hf.edges e.source e.label e.target).mp he
    rw [states_graph]
    exact ⟨hs, ht⟩

theorem validate_eq_error (h : a.WellFormed) (he : a.validate = .error err) :
    err = .missingInitial ∨ err = .noFinalStates ∨ ∃ q c, err = .incompleteTable q c := by
  rcases validate_error_cases he with he | he | ⟨q, hq, hn, _⟩ | ⟨e, he, hn, _⟩ | ⟨_, q, c, _, he⟩
  · exact .inl he
  · exact .inr (.inl he)
  · exact absurd (h.designated q hq) hn
  · have hw : e.Within a.graph.states := h.closed e he
    rw [states_graph] at hw
    exact absurd hw hn
  · exact .inr (.inr ⟨q, c, he⟩)

end WellFormed

/-! ## Histories -/

/-- What edits, refused ones among them, combinations and determinizations make of empty automata. -/
inductive Obtained : Automaton → Prop
  | emptyNondet : Obtained emptyNondet
  | emptyDet : Obtained emptyDet
  | edited {a b : Automaton} {e : Edit} : Obtained a → perform e a = .ok () b → Obtained b
  | refused {a b : Automaton} {e : Edit} {err : Error} : Obtained a → perform e a = .error err b → Obtained b
  | union {a b c : Automaton} {m m' : Allocator} : Obtained a → Obtained b → a.union b m = .ok c m' → Obtained c
  | concat {a b c : Automaton} : Obtained a → Obtained b → a.concat b = .ok c → Obtained c
  | star {a c : Automaton} : Obtained a → a.star = .ok c → Obtained c
  | determinize {a c : Automaton} {limit : Option Nat} {m m' : Allocator} :
    Obtained a → a.determinize limit m = .ok c m' → Obtained c

theorem Obtained.wellFormed (h : Obtained a) : a.WellFormed := by
  induction h with
  | emptyNondet => exact .empty rfl
  | emptyDet => exact .empty rfl
  | edited _ hb ih => exact ih.edit (perform_eq_ok hb)
  | refused _ hb ih =>
    rw [perform_eq_error hb]
    exact ih
  | union _ _ hc iha ihb => exact iha.union ihb hc
  | concat _ _ hc iha ihb => exact iha.concat ihb hc
  | star _ hc ih => exact ih.star hc
  | determinize _ hc _ => exact .determinize hc

/-- Validation of what was obtained in any way finds nothing but a missing initial state, no final state, or a gap in
the table. -/
theorem obtained_refers_to_declared {a : Automaton} (h : Obtained a) :
    (∀ p, a.initial = some p → p ∈ a.states) ∧ (∀ q ∈ a.finals, q ∈ a.states) ∧
      (∀ e ∈ a.edges, e.source ∈ a.states ∧ e.target ∈ a.states) ∧
      (a.table.isDet → (∀ e ∈ a.edges, e.label ≠ .epsilon) ∧
        ∀ p c q r, ⟨p, .char c, q⟩ ∈ a.edges → ⟨p, .char c, r⟩ ∈ a.edges → q = r) ∧
      (∀ e err b, perform e a = .error err b → b = a) ∧
      ∀ err, a.validate = .error err →
        err = .missingInitial ∨ err = .noFinalStates ∨ ∃ q c, err = .incompleteTable q c := by
  have hw := h.wellFormed
  refine ⟨fun _ => hw.initial, fun _ => hw.final, ?_, Table.functional_of_isDet, fun _ _ _ => perform_eq_error,
    fun _ => hw.validate_eq_error⟩
  intro e he
  have he : e.Within a.graph.states := hw.closed e he
  rwa [states_graph] at he

def performed (a : Automaton) (e : Edit) : Automaton :=
  match perform e a with
  | .ok _ b => b
  | .error _ b => b

theorem Obtained.performed (h : Obtained a) (e : Edit) : Obtained (a.performed e) := by
  unfold Automaton.performed
  split
  · rename_i hb
    exact h.edited hb
  · rename_i hb
    exact h.refused hb

theorem Obtained.foldl_performed : ∀ {l : List Edit} {a : Automaton}, Obtained a →
    Obtained (l.foldl Automaton.performed a)
  | [], _, h => h
  | e :: l, a, h => by
    rw [List.foldl_cons]
    exact foldl_performed (h.performed e)

/-- One edge on `x`, and three edits that are refused: an epsilon edge, a final state and a withdrawal. -/
def singleEdge : Automaton :=
  [.addState ⟨0⟩, .addState ⟨1⟩, .addEdge ⟨⟨0⟩, .char 'x', ⟨1⟩⟩, .addEdge ⟨⟨1⟩, .epsilon, ⟨0⟩⟩, .setInitial ⟨0⟩,
    .addFinal ⟨2⟩, .addFinal ⟨1⟩, .removeState ⟨3⟩].foldl performed emptyDet

theorem obtained_refers_to_declared_singleEdge :
    Obtained singleEdge ∧ singleEdge.validate = .error (.incompleteTable ⟨1⟩ 'x') ∧
      (∀ p, singleEdge.initial = some p → p ∈ singleEdge.states) ∧
      (∀ q ∈ singleEdge.finals, q ∈ singleEdge.states) ∧
      (∀ e ∈ singleEdge.edges, e.source ∈ singleEdge.states ∧ e.target ∈ singleEdge.states) ∧
      (singleEdge.table.isDet → (∀ e ∈ singleEdge.edges, e.label ≠ .epsilon) ∧
        ∀ p c q r, ⟨p, .char c, q⟩ ∈ singleEdge.edges → ⟨p, .char c, r⟩ ∈ singleEdge.edges → q = r) ∧
      (∀ e err b, perform e singleEdge = .error err b → b = singleEdge) ∧
      ∀ err, singleEdge.validate = .error err →
        err = .missingInitial ∨ err = .noFinalStates ∨ ∃ q c, err = .incompleteTable q c :=
  have h : Obtained singleEdge := Obtained.foldl_performed .emptyDet
  ⟨h, rfl, obtained_refers_to_declared h⟩

end Automaton

end Automata
