import Automata.Proofs.StateLimit
import Automata.Proofs.Union

/-!
# The outcomes of a union

The operands may be anything, valid or not. The conditions of the outcomes exclude one
another and leave no case out.
-/

namespace Automata

theorem SortedSet.size_inter {s t : StateSet} : (s.inter t).size = {q | q ∈ s ∧ q ∈ t}.ncard := by
  have hmem : {q | q ∈ s ∧ q ∈ t} = {q | q ∈ (s.inter t).toList} := Set.ext fun q => SortedSet.mem_inter.symm
  rw [hmem, Automaton.ncard_setOf_mem (s.inter t).nodup_toList]
  rfl

theorem NondetGraph.glue_singleton {g : NondetGraph} {n t : State} (hn : n ∈ g.states) :
    g.glue (.singleton n) t = if t ∈ g.states then .ok (g.glued (.singleton n) t) else .error (.unknownState t) := by
  split
  · rename_i ht
    refine glue_of_declared (fun q hq => ?_) ht
    rw [SortedSet.mem_singleton.mp hq]
    exact hn
  · rename_i ht
    have hw : ¬ Edge.Within ⟨n, Symbol.epsilon, t⟩ g.states := fun hw => ht hw.2
    have hl : (SortedSet.singleton n).toList = [n] := rfl
    unfold glue
    rw [hl, List.foldlM_cons, addEdge_of_not_within hw, if_pos hn]
    rfl

namespace Allocator

def next (m : Allocator) : State := ⟨m.counter⟩

theorem mint_next {m : Allocator} (hm : 0 < m.room) : mint m = .ok m.next ⟨m.counter + 1⟩ := mint_of_room hm

theorem counter_eq_succ_iff {m m' : Allocator} :
    m'.counter.toNat = m.counter.toNat + 1 ↔ 0 < m.room ∧ m' = ⟨m.counter + 1⟩ := by
  constructor
  · intro h
    have hlt := m'.counter.toNat_lt
    have hm : 0 < m.room := by
      unfold room
      omega
    obtain ⟨c⟩ := m'
    exact ⟨hm, congrArg mk (UInt32.toNat_inj.mp (h.trans (toNat_succ hm).symm))⟩
  · intro h
    obtain ⟨hm, rfl⟩ := h
    exact toNat_succ hm

theorem room_eq_zero_iff {m : Allocator} : m.room = 0 ↔ m.counter.toNat = 4294967295 := by
  have hlt := m.counter.toNat_lt
  unfold room
  omega

end Allocator

namespace Automaton

variable {a b u : Automaton} {m m' : Allocator} {n p q r : State}

def shared (a b : Automaton) : Set State := {q | q ∈ a.states ∧ q ∈ b.states}

structure Combinable (a b : Automaton) (p q : State) : Prop where
  disjoint : shared a b = ∅
  left : a.initial = some p
  right : b.initial = some q

def Placed (a b : Automaton) (n r : State) : Prop := r ∈ a.states ∨ r ∈ b.states ∨ r = n

instance : Decidable (Placed a b n r) := inferInstanceAs (Decidable (r ∈ a.states ∨ r ∈ b.states ∨ r = n))

/-- The automaton has what the operands have, and a new initial state `n` with epsilon edges to `p` and `q`. -/
structure IsUnion (a b : Automaton) (n p q : State) (u : Automaton) : Prop where
  kind : u.table.isDet = false
  states : ∀ r, r ∈ u.states ↔ Placed a b n r
  edges : ∀ e, e ∈ u.edges ↔ e ∈ a.edges ∨ e ∈ b.edges ∨ e = ⟨n, .epsilon, p⟩ ∨ e = ⟨n, .epsilon, q⟩
  initial : u.initial = some n
  finals : ∀ r, r ∈ u.finals ↔ r ∈ a.finals ∨ r ∈ b.finals
  options : u.options = a.options

inductive UnionOutcome (a b : Automaton) (m : Allocator) : EStateM.Result Fault Allocator Automaton → Prop
  | sharedStates (h : (shared a b).Nonempty) :
    UnionOutcome a b m (.error (.refused (.sharedStates (shared a b).ncard)) m)
  | missingInitial (hd : shared a b = ∅) (h : a.initial = none ∨ b.initial = none) :
    UnionOutcome a b m (.error (.refused .missingInitial) m)
  | exhausted {p q : State} (hc : Combinable a b p q) (h : m.counter.toNat = 4294967295) :
    UnionOutcome a b m (.error .exhausted m)
  | staleState {p q : State} {m' : Allocator} (hc : Combinable a b p q)
    (hm : m'.counter.toNat = m.counter.toNat + 1) (h : m.next ∈ a.states ∨ m.next ∈ b.states) :
    UnionOutcome a b m (.error (.refused (.staleState m.next)) m')
  | unknownState {p q r : State} {m' : Allocator} (hc : Combinable a b p q)
    (hm : m'.counter.toNat = m.counter.toNat + 1) (hn : m.next ∉ a.states ∧ m.next ∉ b.states)
    (h : [p, q].find? (¬ Placed a b m.next ·) = some r) :
    UnionOutcome a b m (.error (.refused (.unknownState r)) m')
  | united {p q : State} {u : Automaton} {m' : Allocator} (hc : Combinable a b p q)
    (hm : m'.counter.toNat = m.counter.toNat + 1) (hn : m.next ∉ a.states ∧ m.next ∉ b.states)
    (hp : Placed a b m.next p) (hq : Placed a b m.next q) (h : IsUnion a b m.next p q u) :
    UnionOutcome a b m (.ok u m')

/-! ## The operands -/

theorem operands_of_shared (h : (shared a b).Nonempty) : operands a b = .error (.sharedStates (shared a b).ncard) := by
  have hpos : 0 < (shared a b).ncard := (Set.ncard_pos (Set.toFinite _)).mpr h
  have hs : (a.states.inter b.states).size = (shared a b).ncard := SortedSet.size_inter
  unfold operands
  rw [hs]
  obtain ⟨k, hk⟩ := Nat.exists_eq_succ_of_ne_zero (Nat.ne_of_gt hpos)
  rw [hk]

theorem size_inter_of_disjoint (hd : shared a b = ∅) : (a.states.inter b.states).size = 0 := by
  have hs : (a.states.inter b.states).size = (shared a b).ncard := SortedSet.size_inter
  rw [hs, hd, Set.ncard_empty]

theorem operands_of_missing (hd : shared a b = ∅) (h : a.initial = none ∨ b.initial = none) :
    operands a b = .error .missingInitial := by
  unfold operands
  rw [size_inter_of_disjoint hd]
  rcases h with h | h
  · rw [h]
  · rw [h]
    cases a.initial <;> rfl

theorem Combinable.operands_eq (hc : Combinable a b p q) : operands a b = .ok (p, q) := by
  unfold operands
  rw [size_inter_of_disjoint hc.disjoint, hc.left, hc.right]

theorem union_of_operands_error {e : Error} (h : operands a b = .error e) : a.union b m = .error (.refused e) m := by
  unfold union
  rw [h]
  exact Minting.bind_of_error rfl

/-! ## The result -/

theorem isUnion_united : IsUnion a b n p q (united a b n p q) where
  kind := rfl
  states r := by
    have hs : r ∈ (united a b n p q).states ↔ r = n ∨ r ∈ a.states ∨ r ∈ b.states := by
      rw [← states_graph a, ← states_graph b]
      exact NondetGraph.mem_states_forked
    rw [hs, Placed, or_comm, or_assoc]
  edges e := by
    have he : e ∈ (united a b n p q).edges ↔ _ := NondetGraph.mem_edges_forked
    rw [he, Graph.mem_edges_absorb, or_assoc]
    rfl
  initial := rfl
  finals _ := SortedSet.mem_union
  options := rfl

theorem IsUnion.eq_united (h : IsUnion a b n p q u) : u = united a b n p q := by
  have h' : IsUnion a b n p q (united a b n p q) := isUnion_united
  have hf : u.finals = (united a b n p q).finals := SortedSet.ext fun r => (h.finals r).trans (h'.finals r).symm
  have hi : u.initial = (united a b n p q).initial := h.initial
  have ho : u.options = (united a b n p q).options := h.options
  obtain ⟨t, i, s, o⟩ := u
  cases t with
  | det g => cases h.kind
  | nondet g =>
    have hg : g = a.graph.forked b.graph n p q := Graph.ext
      (fun r => (h.states r).trans (h'.states r).symm) fun e => (h.edges e).trans (h'.edges e).symm
    subst hg hf hi ho
    rfl

section
variable (hc : Combinable a b p q)
include hc

theorem Combinable.union_of_exhausted (hm : m.room = 0) : a.union b m = .error .exhausted m := by
  unfold union
  rw [hc.operands_eq, Minting.ofExcept_ok, pure_bind]
  exact Minting.bind_of_error (Allocator.mint_of_exhausted hm)

variable (hm : 0 < m.room)
include hm

theorem Combinable.union_of_stale (hn : m.next ∈ a.states ∨ m.next ∈ b.states) :
    a.union b m = .error (.refused (.staleState m.next)) ⟨m.counter + 1⟩ := by
  have hstale : m.next ∈ (a.graph.absorb b.graph).states := by
    rw [Graph.mem_states_absorb, states_graph, states_graph]
    exact hn
  unfold union
  rw [hc.operands_eq, Minting.ofExcept_ok, pure_bind]
  refine (Minting.bind_of_ok (Allocator.mint_next hm)).trans ?_
  simp only [if_pos hstale]
  rfl

/-- An edge to the left initial state is added before one to the right one. -/
theorem Combinable.union_of_fresh (hn : m.next ∉ a.states ∧ m.next ∉ b.states) :
    a.union b m = match [p, q].find? (¬ Placed a b m.next ·) with
      | some r => .error (.refused (.unknownState r)) ⟨m.counter + 1⟩
      | none => .ok (united a b m.next p q) ⟨m.counter + 1⟩ := by
  have hfresh : m.next ∉ (a.graph.absorb b.graph).states := by
    rw [Graph.mem_states_absorb, states_graph, states_graph]
    exact not_or.mpr hn
  have hplaced : ∀ r, r ∈ ((a.graph.absorb b.graph).declare m.next).states ↔ Placed a b m.next r := fun r => by
    rw [Graph.declare, SortedSet.mem_insert, Graph.mem_states_absorb, states_graph, states_graph, Placed, or_comm,
      or_assoc]
  have hstart : m.next ∈ ((a.graph.absorb b.graph).declare m.next).states := SortedSet.mem_insert.mpr (.inl rfl)
  have hleft := NondetGraph.glue_singleton (t := p) hstart
  have hright := NondetGraph.glue_singleton (t := q)
    (g := NondetGraph.glued ((a.graph.absorb b.graph).declare m.next) (.singleton m.next) p) hstart
  simp only [NondetGraph.states_glued, hplaced] at hleft hright
  unfold union
  rw [hc.operands_eq, Minting.ofExcept_ok, pure_bind]
  refine (Minting.bind_of_ok (Allocator.mint_next hm)).trans ?_
  simp only [if_neg hfresh, hleft]
  by_cases hp : Placed a b m.next p
  · simp only [if_pos hp, Minting.ofExcept_ok, pure_bind, hright]
    by_cases hq : Placed a b m.next q
    · simp only [List.find?, hp, hq, not_true, decide_false]
      rfl
    · simp only [List.find?, hp, hq, not_true, not_false_eq_true, decide_false, decide_true]
      rfl
  · simp only [List.find?, hp, not_false_eq_true, decide_true]
    rfl

end

theorem UnionOutcome.eq {x : EStateM.Result Fault Allocator Automaton} (h : UnionOutcome a b m x) :
    a.union b m = x := by
  cases h with
  | sharedStates h => exact union_of_operands_error (operands_of_shared h)
  | missingInitial hd h => exact union_of_operands_error (operands_of_missing hd h)
  | exhausted hc h => exact hc.union_of_exhausted (Allocator.room_eq_zero_iff.mpr h)
  | staleState hc hm h =>
    obtain ⟨hroom, rfl⟩ := Allocator.counter_eq_succ_iff.mp hm
    exact hc.union_of_stale hroom h
  | unknownState hc hm hn h =>
    obtain ⟨hroom, rfl⟩ := Allocator.counter_eq_succ_iff.mp hm
    rw [hc.union_of_fresh hroom hn, h]
  | united hc hm hn hp hq h =>
    obtain ⟨hroom, rfl⟩ := Allocator.counter_eq_succ_iff.mp hm
    rw [hc.union_of_fresh hroom hn, h.eq_united]
    simp [hp, hq]

theorem Combinable.exists_outcome (hc : Combinable a b p q) : ∃ x, UnionOutcome a b m x := by
  rcases Nat.eq_zero_or_pos m.room with hm | hm
  · exact ⟨_, .exhausted hc (Allocator.room_eq_zero_iff.mp hm)⟩
  have hm := Allocator.counter_eq_succ_iff.mpr ⟨hm, rfl⟩
  by_cases hn : m.next ∈ a.states ∨ m.next ∈ b.states
  · exact ⟨_, .staleState hc hm hn⟩
  have hn := not_or.mp hn
  cases hr : [p, q].find? (¬ Placed a b m.next ·) with
  | some r => exact ⟨_, .unknownState hc hm hn hr⟩
  | none =>
    have hpq : Placed a b m.next p ∧ Placed a b m.next q := by simpa using hr
    exact ⟨_, .united hc hm hn hpq.1 hpq.2 isUnion_united⟩

theorem exists_unionOutcome : ∃ x, UnionOutcome a b m x := by
  by_cases hd : shared a b = ∅
  · cases hp : a.initial with
    | none => exact ⟨_, .missingInitial hd (.inl hp)⟩
    | some p =>
      cases hq : b.initial with
      | none => exact ⟨_, .missingInitial hd (.inr hq)⟩
      | some q => exact Combinable.exists_outcome ⟨hd, hp, hq⟩
  · exact ⟨_, .sharedStates (Set.nonempty_iff_ne_empty.mpr hd)⟩

/-- Nothing is minted unless the operands can be combined, and a state that has been minted stays so when the union is
refused after all. -/
theorem union_eq_iff_outcome (a b : Automaton) (m : Allocator) (x : EStateM.Result Fault Allocator Automaton) :
    a.union b m = x ↔ UnionOutcome a b m x := by
  refine ⟨fun h => ?_, UnionOutcome.eq⟩
  obtain ⟨y, hy⟩ := exists_unionOutcome (a := a) (b := b) (m := m)
  rw [← h, hy.eq]
  exact hy

/-- The left operand begins at the state that is minted, and the right one at a state that is nowhere. -/
example : (ofTable (.nondet default) (some ⟨5⟩) ∅).union (ofTable (.det default) (some ⟨7⟩) ∅) ⟨5⟩ =
    .error (.refused (.unknownState ⟨7⟩)) ⟨6⟩ := rfl

end Automaton

end Automata
