import Automata.Proofs.WellFormedness

/-!
# More edges, more final states

The run of an automaton with more edges and more final states holds at each character all
states that the run of the other one holds (`walk_mono`).
-/

namespace Automata

namespace NondetGraph

variable {g h : NondetGraph} {s t : StateSet} {c : Char}

section
variable (hgh : ∀ e ∈ g.edges, e ∈ h.edges)
include hgh

theorem closure_mono (hst : ∀ q ∈ s, q ∈ t) : ∀ q ∈ g.closure s, q ∈ h.closure t := by
  intro q hq
  obtain ⟨p, hp, hw⟩ := mem_closure.mp hq
  exact mem_closure.mpr ⟨p, hst p hp, hw.mono hgh⟩

theorem move_mono (hst : ∀ q ∈ s, q ∈ t) : ∀ q ∈ g.move s (.char c), q ∈ h.move t (.char c) := by
  intro r hr
  obtain ⟨p, hp, q, hw, he⟩ := mem_move_char.mp hr
  exact mem_move_char.mpr ⟨p, hst p hp, q, hw.mono hgh, hgh _ he⟩

theorem walk_mono : ∀ {w : List Char} {s t : StateSet}, (∀ q ∈ s, q ∈ t) → ∀ q ∈ g.walk s w, q ∈ h.walk t w
  | [], _, _, hst => hst
  | c :: w, s, t, hst => by
    have hmove : ∀ q ∈ g.move s (.char c), q ∈ h.move t (.char c) := move_mono hgh hst
    rw [walk_cons, walk_cons]
    exact walk_mono hmove

end

end NondetGraph

/-! ## Extensions -/

namespace Table

variable {t t' : Table} {q : State} {e : Edge Symbol}

theorem isDet_addState : ∀ {t : Table}, (t.addState q).2.isDet = t.isDet
  | det _ => rfl
  | nondet _ => rfl

theorem isDet_removeState : ∀ {t : Table}, (t.removeState q).2.isDet = t.isDet
  | det _ => rfl
  | nondet _ => rfl

theorem isDet_addEdge (h : t.addEdge e = .ok t') : t'.isDet = t.isDet := by
  cases t with
  | det g =>
    rw [addEdge] at h
    cases hg : g.addEdge e with
    | error err =>
      rw [hg] at h
      cases h
    | ok x =>
      rw [hg] at h
      cases h
      rfl
  | nondet g =>
    rw [addEdge] at h
    cases hg : g.addEdge e with
    | error err =>
      rw [hg] at h
      cases h
    | ok x =>
      rw [hg] at h
      cases h
      rfl

end Table

namespace Automaton

variable {a b c : Automaton} {q : State} {e : Edit} {w : List Char} {s t : StateSet}

theorem accepts_eq_ok_true : a.accepts w = .ok true ↔ a.validate = .ok () ∧ a.run w := by
  unfold Automaton.accepts
  cases a.validate with
  | ok _ => simp [bind, Except.bind, pure, Except.pure]
  | error err => simp [bind, Except.bind]

/-- The second automaton does all that the first one does, and may do more. -/
structure ExtendedBy (a b : Automaton) : Prop where
  initial : b.initial = a.initial
  trailing : b.options.trailing = a.options.trailing
  edges : ∀ e ∈ a.edges, e ∈ b.edges
  finals : ∀ q ∈ a.finals, q ∈ b.finals

namespace ExtendedBy

theorem refl (a : Automaton) : a.ExtendedBy a := ⟨rfl, rfl, fun _ => id, fun _ => id⟩

theorem trans (h : a.ExtendedBy b) (h' : b.ExtendedBy c) : a.ExtendedBy c where
  initial := h'.initial.trans h.initial
  trailing := h'.trailing.trans h.trailing
  edges e he := h'.edges e (h.edges e he)
  finals q hq := h'.finals q (h.finals q hq)

section
variable (h : a.ExtendedBy b)
include h

theorem start : ∀ q ∈ a.start, q ∈ b.start := by
  refine NondetGraph.closure_mono h.edges ?_
  rw [h.initial]
  exact fun _ => id

theorem accepting (hst : ∀ q ∈ s, q ∈ t) (hs : a.accepting s) : b.accepting t := by
  unfold Automaton.accepting at hs ⊢
  rw [h.trailing]
  cases ht : a.options.trailing with
  | follow =>
    simp only [ht, SortedSet.meets_iff] at hs ⊢
    obtain ⟨q, hq, hf⟩ := hs
    exact ⟨q, NondetGraph.closure_mono h.edges hst q hq, h.finals q hf⟩
  | ignore =>
    simp only [ht, SortedSet.meets_iff] at hs ⊢
    obtain ⟨q, hq, hf⟩ := hs
    exact ⟨q, hst q hq, h.finals q hf⟩

theorem run (hw : a.run w) : b.run w := by
  rw [run_eq_accepting_walk] at hw ⊢
  exact h.accepting (NondetGraph.walk_mono h.edges h.start) hw

theorem accepts (hb : b.validate = .ok ()) (hw : a.accepts w = .ok true) : b.accepts w = .ok true := by
  rw [accepts_eq_ok_true] at hw ⊢
  exact ⟨hb, h.run hw.2⟩

theorem valid (ha : a.Valid) (hb : b.WellFormed) (hn : b.table.isDet = false) : b.Valid := by
  obtain ⟨q, hq⟩ := ha.finals
  refine hb.valid ?_ ⟨q, h.finals q hq⟩ fun g hg => ?_
  · rw [h.initial]
    exact ha.initial
  · rw [hg] at hn
    cases hn

end

end ExtendedBy

/-! ## Edits -/

def Edit.Adds : Edit → Prop
  | .addState _ | .addFinal _ | .addEdge _ => True
  | .removeState _ | .setInitial _ | .dropInitial | .dropFinal _ | .setOptions _ => False

theorem performed_cases (a : Automaton) (e : Edit) : a.edit e = .ok (a.performed e) ∨ a.performed e = a := by
  unfold performed
  rw [perform_apply]
  cases a.edit e with
  | ok b => exact .inl rfl
  | error err => exact .inr rfl

theorem isDet_edit (h : a.edit e = .ok b) : b.table.isDet = a.table.isDet := by
  cases e with
  | addState q =>
    cases h
    exact Table.isDet_addState
  | removeState q =>
    have hk : (a.table.removeState q).2.isDet = a.table.isDet := Table.isDet_removeState
    have h : a.removeState q = .ok b := h
    unfold removeState at h
    cases hr : a.table.removeState q with
    | mk found t =>
      rw [hr] at h hk
      cases found with
      | false => cases h
      | true =>
        cases h
        exact hk
  | setInitial q =>
    obtain ⟨_, rfl⟩ := StateSet.require_then_eq_ok.mp h
    rfl
  | dropInitial =>
    cases h
    rfl
  | addFinal q =>
    obtain ⟨_, rfl⟩ := StateSet.require_then_eq_ok.mp h
    rfl
  | dropFinal q =>
    obtain ⟨_, rfl⟩ := StateSet.require_then_eq_ok.mp h
    rfl
  | addEdge f =>
    have h : a.addEdge f = .ok b := h
    unfold addEdge at h
    cases ht : a.table.addEdge f with
    | error err =>
      rw [ht] at h
      cases h
    | ok t =>
      rw [ht] at h
      cases h
      exact Table.isDet_addEdge ht
  | setOptions o =>
    cases h
    rfl

theorem extendedBy_addEdge {f : Edge Symbol} (hn : a.table.isDet = false) (h : a.addEdge f = .ok b) :
    a.ExtendedBy b := by
  obtain ⟨t, i, s, o⟩ := a
  cases t with
  | det g => cases hn
  | nondet g =>
    unfold addEdge Table.addEdge at h
    by_cases hw : f.Within g.states
    · simp only [NondetGraph.addEdge_of_within hw] at h
      cases h
      exact ⟨rfl, rfl, fun e he => SortedSet.mem_insert.mpr (.inr he), fun _ => id⟩
    · simp only [NondetGraph.addEdge_of_not_within hw] at h
      cases h

theorem extendedBy_edit (hn : a.table.isDet = false) (he : e.Adds) (h : a.edit e = .ok b) : a.ExtendedBy b := by
  cases e with
  | addState q =>
    cases h
    refine ⟨rfl, rfl, fun e he => ?_, fun _ => id⟩
    have hdeclare : (a.table.addState q).2.toNondet = Graph.declare a.table.toNondet q := Table.toNondet_addState
    show e ∈ (a.table.addState q).2.toNondet.edges
    rw [hdeclare]
    exact he
  | addFinal q =>
    obtain ⟨_, rfl⟩ := StateSet.require_then_eq_ok.mp h
    exact ⟨rfl, rfl, fun _ => id, fun r hr => SortedSet.mem_insert.mpr (.inr hr)⟩
  | addEdge f => exact extendedBy_addEdge hn h
  | removeState _ | setInitial _ | dropInitial | dropFinal _ | setOptions _ => cases he

theorem performed_of_adds (hv : a.Valid) (hn : a.table.isDet = false) (he : e.Adds) :
    (a.performed e).Valid ∧ (a.performed e).table.isDet = false ∧ a.ExtendedBy (a.performed e) := by
  rcases performed_cases a e with h | h
  · have hext : a.ExtendedBy (a.performed e) := extendedBy_edit hn he h
    have hn' : (a.performed e).table.isDet = false := (isDet_edit h).trans hn
    exact ⟨hext.valid hv (hv.wellFormed.edit h) hn', hn', hext⟩
  · rw [h]
    exact ⟨hv, hn, .refl a⟩

theorem foldl_performed_of_adds : ∀ {l : List Edit} {a : Automaton}, a.Valid → a.table.isDet = false →
    (∀ e ∈ l, e.Adds) → (l.foldl performed a).Valid ∧ a.ExtendedBy (l.foldl performed a)
  | [], a, hv, _, _ => ⟨hv, .refl a⟩
  | e :: l, a, hv, hn, hl => by
    obtain ⟨hv', hn', hext⟩ := performed_of_adds hv hn (hl e (List.mem_cons_self ..))
    obtain ⟨hvl, hextl⟩ := foldl_performed_of_adds hv' hn' fun f hf => hl f (List.mem_cons_of_mem _ hf)
    exact ⟨hvl, hext.trans hextl⟩

theorem performed_dropFinal : (a.performed (.dropFinal q)).ExtendedBy a := by
  rcases performed_cases a (.dropFinal q) with h | h
  · obtain ⟨_, hb⟩ := StateSet.require_then_eq_ok.mp h
    rw [← hb]
    exact ⟨rfl, rfl, fun _ => id, fun r hr => (SortedSet.mem_erase.mp hr).1⟩
  · rw [h]
    exact .refl a

theorem foldl_dropFinal : ∀ {l : List State} {a : Automaton},
    (l.foldl (fun a q => a.performed (.dropFinal q)) a).ExtendedBy a
  | [], a => .refl a
  | q :: l, a => by
    rw [List.foldl_cons]
    exact foldl_dropFinal.trans performed_dropFinal

/-- A valid nondeterministic automaton loses no word when states are declared or made final and edges are added, and
gains none when states are no longer to be final. -/
theorem accepts_of_extendedBy {a : Automaton} (hv : a.validate = .ok ()) (hn : a.table.isDet = false) :
    (∀ b, b.validate = .ok () → a.ExtendedBy b → ∀ w, a.accepts w = .ok true → b.accepts w = .ok true) ∧
    (∀ l : List Edit, (∀ e ∈ l, e.Adds) → (l.foldl performed a).validate = .ok () ∧
      ∀ w, a.accepts w = .ok true → (l.foldl performed a).accepts w = .ok true) ∧
    ∀ (l : List State) w, (l.foldl (fun a q => a.performed (.dropFinal q)) a).accepts w = .ok true →
      a.accepts w = .ok true := by
  refine ⟨fun b hb hext w => hext.accepts hb, fun l hl => ?_, fun l w => foldl_dropFinal.accepts hv⟩
  obtain ⟨hvl, hext⟩ := foldl_performed_of_adds (validate_eq_ok.mp hv) hn hl
  have hvl := validate_eq_ok.mpr hvl
  exact ⟨hvl, fun w => hext.accepts hvl⟩

/-- Reads `x` behind an epsilon edge; the epsilon edge that comes after it is ignored at the end. -/
def epsilonThenX : Automaton :=
  (ofTable (.nondet ⟨.ofList [⟨0⟩, ⟨1⟩, ⟨2⟩, ⟨3⟩],
      .ofList [⟨⟨0⟩, .epsilon, ⟨1⟩⟩, ⟨⟨1⟩, .char 'x', ⟨2⟩⟩, ⟨⟨2⟩, .epsilon, ⟨3⟩⟩]⟩)
    (some ⟨0⟩) (.singleton ⟨2⟩)).under .ignore

/-- A loop on `y`, whose epsilon edges may come last, and an edge that is refused. -/
def loopOnY : List Automaton.Edit :=
  [.addState ⟨4⟩, .addEdge ⟨⟨3⟩, .char 'y', ⟨4⟩⟩, .addEdge ⟨⟨4⟩, .epsilon, ⟨3⟩⟩, .addEdge ⟨⟨4⟩, .char 'z', ⟨9⟩⟩,
    .addFinal ⟨4⟩]

theorem accepts_of_extendedBy_epsilonThenX :
    (epsilonThenX.validate = .ok () ∧ epsilonThenX.table.isDet = false ∧
      (loopOnY.foldl performed epsilonThenX).validate = .ok () ∧
      epsilonThenX.ExtendedBy (loopOnY.foldl performed epsilonThenX) ∧ ∀ e ∈ loopOnY, e.Adds) ∧
    (∀ w, epsilonThenX.accepts w = .ok true → (loopOnY.foldl performed epsilonThenX).accepts w = .ok true) ∧
    ((loopOnY.foldl performed epsilonThenX).validate = .ok () ∧
      ∀ w, epsilonThenX.accepts w = .ok true → (loopOnY.foldl performed epsilonThenX).accepts w = .ok true) ∧
    ∀ w, ([⟨3⟩, ⟨4⟩].foldl (fun a q => a.performed (.dropFinal q)) epsilonThenX).accepts w = .ok true →
      epsilonThenX.accepts w = .ok true := by
  obtain ⟨hmore, hadd, hdrop⟩ := accepts_of_extendedBy (a := epsilonThenX) rfl rfl
  have hadds : ∀ e ∈ loopOnY, e.Adds := by simp [loopOnY, Edit.Adds]
  have hext : epsilonThenX.ExtendedBy (loopOnY.foldl performed epsilonThenX) :=
    ⟨rfl, rfl, by decide, by decide⟩
  exact ⟨⟨rfl, rfl, rfl, hext, hadds⟩, hmore _ rfl hext, hadd loopOnY hadds, hdrop _⟩

example : epsilonThenX.accepts ['x'] = .ok true := rfl

end Automaton

end Automata
