import Automata.Proofs.Completeness
import Automata.Proofs.FirstFault
import Automata.Proofs.TableHistories

/-!
# Gaps of a deterministic table

A gap is a declared state with a character of an alphabet for which there is no target.
All edges start at declared states, so whether there is one can be told by counting.
-/

namespace Automata

def Error.raise : Option Error → Except Error Unit
  | none => .ok ()
  | some err => .error err

theorem forM_eq_raise {α : Type} {check : α → Except Error Unit} {fault : α → Option Error}
    (h : ∀ a, check a = Error.raise (fault a)) : ∀ l : List α, forM l check = Error.raise (l.findSome? fault)
  | [] => rfl
  | a :: l => by
    have ih := forM_eq_raise h l
    rw [List.forM_cons, List.findSome?_cons, h a]
    cases fault a with
    | none => exact ih
    | some err => rfl

theorem head?_iff_isFirst {α : Type} {before : α → α → Prop} (hasymm : ∀ {a b : α}, before a b → ¬ before b a)
    {l : List α} (hl : l.Pairwise before) {a : α} : l.head? = some a ↔ IsFirst before (· ∈ l) a := by
  cases l with
  | nil =>
    constructor
    · intro h
      cases h
    · intro h
      cases h.holds
  | cons b l =>
    obtain ⟨hb, _⟩ := List.pairwise_cons.mp hl
    constructor
    · intro h
      obtain rfl : b = a := Option.some.inj h
      refine ⟨List.mem_cons_self .., fun c hc => ?_⟩
      rcases List.mem_cons.mp hc with rfl | hc
      · exact .inl rfl
      · exact .inr (hb c hc)
    · intro h
      rcases List.mem_cons.mp h.holds with rfl | ha
      · rfl
      · rcases h.least b (List.mem_cons_self ..) with rfl | hab
        · rfl
        · exact absurd (hb a ha) (hasymm hab)

namespace DetGraph

variable {g : DetGraph} {cs : Alphabet} {q : State} {c : Char} {err : Error}

/-! ## The order of the gaps -/

def IsGap (g : DetGraph) (cs : Alphabet) (x : State × Char) : Prop :=
  x.1 ∈ g.states ∧ x.2 ∈ cs ∧ g.target? x.1 x.2 = none

def GapBefore : State × Char → State × Char → Prop := Prod.Lex State.Before (· < ·)

theorem GapBefore.asymm {x y : State × Char} (h : GapBefore x y) : ¬ GapBefore y x := by
  intro h'
  rcases Prod.lex_def.mp h with hs | ⟨hs, hc⟩ <;> rcases Prod.lex_def.mp h' with hs' | ⟨hs', hc'⟩
  · exact UInt32.lt_asymm hs hs'
  · exact UInt32.lt_irrefl _ (hs' ▸ hs)
  · exact UInt32.lt_irrefl _ (hs ▸ hs')
  · exact Char.lt_asymm hc hc'

theorem ascending_gaps : (g.gaps cs).Pairwise GapBefore := by
  rw [gaps, List.pairwise_flatMap]
  constructor
  · intro q _
    rw [List.pairwise_map]
    exact (cs.ascending.filter _).imp fun h => .right q (compare_char_eq_lt.mp h)
  · refine g.states.ascending.imp fun {p q} h x hx y hy => ?_
    obtain ⟨c, _, rfl⟩ := List.mem_map.mp hx
    obtain ⟨d, _, rfl⟩ := List.mem_map.mp hy
    exact .left c d (State.compare_eq_lt.mp h)

theorem head?_gaps_iff_isFirst : (g.gaps cs).head? = some (q, c) ↔ IsFirst GapBefore (g.IsGap cs) (q, c) := by
  have h : g.IsGap cs = (· ∈ g.gaps cs) := funext fun _ => propext mem_gaps.symm
  rw [h]
  exact head?_iff_isFirst GapBefore.asymm ascending_gaps

/-! ## What the check reports -/

theorem requireComplete_eq_raise :
    g.requireComplete cs = Error.raise ((g.gaps cs).head?.map fun x => .incompleteTable x.1 x.2) := by
  unfold requireComplete
  cases (g.gaps cs).head? <;> rfl

theorem requireComplete_eq_ok_iff :
    g.requireComplete cs = .ok () ↔ ∀ q ∈ g.states, ∀ c ∈ cs, ∃ r, g.target? q c = some r := by
  have h : (g.gaps cs).head? = none ↔ ∀ q ∈ g.states, ∀ c ∈ cs, ∃ r, g.target? q c = some r := by
    simp only [List.head?_eq_none_iff, List.eq_nil_iff_forall_not_mem, Prod.forall, mem_gaps, not_and,
      ← ne_eq, Option.ne_none_iff_exists']
    exact forall_congr' fun q => forall_comm
  rw [← h, requireComplete_eq_raise]
  cases (g.gaps cs).head? <;> simp [Error.raise]

theorem requireComplete_eq_error_iff : g.requireComplete cs = .error err ↔
    ∃ q c, err = .incompleteTable q c ∧ IsFirst GapBefore (g.IsGap cs) (q, c) := by
  simp only [← head?_gaps_iff_isFirst, requireComplete_eq_raise]
  cases (g.gaps cs).head? with
  | none => simp [Error.raise]
  | some x => simp [Error.raise, Prod.ext_iff, eq_comm]

theorem closed_direct {e : Edge Char} (h : g.Closed) (he : e.Within g.states) : (g.direct e).Closed := by
  intro f hf
  rcases mem_edges_direct.mp hf with rfl | ⟨hf, _⟩
  · exact he
  · exact h f hf

theorem closed_removeState (h : g.Closed) : (g.removeState q).2.Closed := by
  by_cases hq : q ∈ g.states
  · rw [removeState_of_declared hq]
    exact Graph.Closed.withdraw h q
  · rw [removeState_of_undeclared hq]
    exact h

theorem closed_change (h : g.Closed) : ∀ x : Change, (TableKind.change g x).Closed
  | .addState q => Graph.Closed.declare h q
  | .removeState _ => closed_removeState h
  | .addEdge ⟨_, .epsilon, _⟩ => h
  | .addEdge ⟨p, .char c, r⟩ => by
    simp only [TableKind.change, TableKind.addEdge]
    cases he : g.addEdge ⟨p, .char c, r⟩ with
    | error err => exact h
    | ok x =>
      obtain ⟨hw, rfl⟩ := addEdge_char_eq_ok he
      exact closed_direct h hw

theorem closed_changed : ∀ (l : List Change) {g : DetGraph}, g.Closed → (TableKind.changed g l).Closed
  | [], _, h => h
  | x :: l, g, h => by
    show (TableKind.changed (TableKind.change g x) l).Closed
    exact closed_changed l (closed_change h x)

end DetGraph

/-! ## The check on a table by key -/

namespace DetTable

variable {t : DetTable} {cs : Alphabet} {q : State}

/-- Goes over the states and, for each of them, over the characters, up to the first key that is not stored. -/
def requireComplete (t : DetTable) (cs : Alphabet) : Except Error Unit :=
  forM t.states.toList fun q => forM cs.toList fun c =>
    if t.targets.contains ⟨q, c⟩ then .ok () else .error (.incompleteTable q c)

def isComplete (t : DetTable) : Bool := (t.requireComplete t.symbols).isOk

theorem forM_stored : (forM cs.toList fun c =>
    if t.targets.contains ⟨q, c⟩ then .ok () else .error (.incompleteTable q c)) =
      Error.raise ((t.graph.missing? cs q).map (.incompleteTable q)) := by
  have hcheck : ∀ c, (if t.targets.contains ⟨q, c⟩ then .ok () else .error (.incompleteTable q c)) =
      Error.raise ((Option.guard (fun c => (t.graph.target? q c).isNone) c).map (.incompleteTable q)) := by
    intro c
    simp only [Option.guard, target?_graph, Std.ExtTreeMap.contains_eq_isSome_getElem?]
    cases t.targets[(⟨q, c⟩ : Key Char)]? <;> rfl
  rw [forM_eq_raise hcheck, DetGraph.missing?, SortedSet.least?, List.find?_eq_findSome?_guard, List.map_findSome?]
  rfl

theorem requireComplete_graph : t.graph.requireComplete cs = t.requireComplete cs := by
  unfold requireComplete
  rw [forM_eq_raise fun _ => forM_stored, DetGraph.requireComplete_eq_raise, DetGraph.head?_gaps_eq_findSome?,
    List.map_findSome?]
  simp only [Function.comp_def, Option.map_map]
  rfl

theorem isComplete_graph : t.graph.isComplete = t.isComplete := by
  rw [Bool.eq_iff_iff, ← DetGraph.requireComplete_eq_ok, isComplete, ← requireComplete_graph, symbols_graph]
  cases t.graph.requireComplete t.symbols <;> simp [Except.isOk, Except.toBool]

end DetTable

/-! ## Completeness along a history -/

open TableKind

/-- However a deterministic table was changed, it is complete iff it has as many edges as there are pairs of a declared
state and a character on its edges, and the check for any alphabet reports the least gap. -/
theorem complete_iff_count_and_least_gap {s : List State} {l : List Change}
    {g : DetGraph} (hg : changed (DetGraph.ofStates (.ofList s)) l = g)
    {t : DetTable} (ht : changed (DetTable.ofStates (.ofList s)) l = t) :
    (g.isComplete ↔ g.size = g.states.size * g.symbols.size) ∧
      (∀ cs, (g.requireComplete cs = .ok () ↔ ∀ q ∈ g.states, ∀ c ∈ cs, ∃ r, g.target? q c = some r) ∧
        ∀ err, g.requireComplete cs = .error err ↔
          ∃ q c, err = .incompleteTable q c ∧ IsFirst DetGraph.GapBefore (g.IsGap cs) (q, c)) ∧
      (t.graph = g ∧ reading t = reading g) ∧
      t.isComplete = g.isComplete ∧ ∀ cs, t.requireComplete cs = g.requireComplete cs := by
  have htg : t.graph = g := by rw [← ht, DetTable.carries_graph.changed, DetTable.graph_ofStates, hg]
  have hclosed : g.Closed := by
    rw [← hg]
    exact DetGraph.closed_changed l nofun
  refine ⟨DetGraph.isComplete_iff_size fun e he => (hclosed e he).1, fun cs => ?_, ?_, ?_⟩
  · exact ⟨DetGraph.requireComplete_eq_ok_iff, fun _ => DetGraph.requireComplete_eq_error_iff⟩
  · exact ⟨htg, by rw [← DetTable.carries_graph.reading, htg]⟩
  · rw [← htg]
    exact ⟨DetTable.isComplete_graph.symm, fun _ => DetTable.requireComplete_graph.symm⟩

/-- A target is given up for another, an epsilon edge is refused, and with a state that is removed the only edge on
`y` goes, and the gap that was left on it. -/
def alphabetShrunk : List Change :=
  [.addEdge ⟨⟨0⟩, .char 'x', ⟨1⟩⟩, .addEdge ⟨⟨0⟩, .char 'x', ⟨0⟩⟩, .addEdge ⟨⟨1⟩, .epsilon, ⟨0⟩⟩, .addState ⟨2⟩,
    .addEdge ⟨⟨1⟩, .char 'y', ⟨2⟩⟩, .removeState ⟨2⟩]

theorem complete_iff_count_and_least_gap_alphabetShrunk :
    ∃ (g : DetGraph) (t : DetTable),
      (changed (DetGraph.ofStates (.ofList [⟨0⟩, ⟨1⟩])) alphabetShrunk = g ∧
        changed (DetTable.ofStates (.ofList [⟨0⟩, ⟨1⟩])) alphabetShrunk = t) ∧
      g.requireComplete g.symbols = .error (.incompleteTable ⟨1⟩ 'x') ∧
      (g.isComplete ↔ g.size = g.states.size * g.symbols.size) ∧
      (∀ cs, (g.requireComplete cs = .ok () ↔ ∀ q ∈ g.states, ∀ c ∈ cs, ∃ r, g.target? q c = some r) ∧
        ∀ err, g.requireComplete cs = .error err ↔
          ∃ q c, err = .incompleteTable q c ∧ IsFirst DetGraph.GapBefore (g.IsGap cs) (q, c)) ∧
      (t.graph = g ∧ reading t = reading g) ∧
      t.isComplete = g.isComplete ∧ ∀ cs, t.requireComplete cs = g.requireComplete cs :=
  ⟨_, _, ⟨rfl, rfl⟩, rfl, complete_iff_count_and_least_gap rfl rfl⟩

end Automata
