import Automata.Proofs.Gluing
import Automata.Proofs.OnePass
import Mathlib.Data.Set.Card.Arithmetic

/-!
# No more states than sets of states

The frontiers of a valid automaton are sets of declared states
(`mem_states_of_mem_frontier`), and of `n` states there are `2 ^ n` sets.
-/

namespace Automata.Automaton

variable {a d : Automaton} {limit : Option Nat} {m m' : Allocator} {s t : StateSet} {q : State}

theorem mem_states_of_mem_frontier (hv : a.Valid) (hs : s ∈ a.frontiers) (hq : q ∈ s) : q ∈ a.states := by
  obtain ⟨p, hp, hps⟩ := hv.exists_initial
  obtain ⟨w, _, rfl⟩ := hs
  unfold frontier at hq
  rw [start_of_initial hp] at hq
  have hw : a.graph.Path p w q := (NondetGraph.mem_walk_closure.mp hq).path
  rw [← states_graph]
  exact (hw.confine (NondetGraph.confines_self hv.closed) hps).2

theorem ncard_subsets_le : {s : StateSet | ∀ q ∈ s, q ∈ t}.ncard ≤ 2 ^ t.size := by
  have hcard : {q | q ∈ t}.ncard = t.size := ncard_setOf_mem t.nodup_toList
  rw [← hcard, ← Set.ncard_powerset]
  refine Set.ncard_le_ncard_of_injOn (fun s => {q | q ∈ s}) (fun s hs => hs) ?_ (Set.toFinite _)
  intro s _ s' _ h
  exact SortedSet.ext (Set.ext_iff.mp h)

theorem ncard_frontiers_le (hv : a.Valid) : a.frontiers.ncard ≤ 2 ^ a.size := by
  have hsub : a.frontiers ⊆ {s | ∀ q ∈ s, q ∈ a.states} := fun s hs q hq => mem_states_of_mem_frontier hv hs hq
  exact Nat.le_trans (Set.ncard_le_ncard hsub (Set.toFinite _)) ncard_subsets_le

theorem ncard_frontiers_pos : 0 < a.frontiers.ncard := (Set.ncard_pos finite_frontiers).mpr ⟨_, start_mem_frontiers⟩

/-! ## What the construction leaves -/

def construction (a : Automaton) (limit : Option Nat) (m : Allocator) : Construction :=
  match a.construct (limit <|> a.options.maxSubsets) (.empty m) with
  | .ok _ k | .error _ k => k

theorem progress_construction : a.Progress (limit <|> a.options.maxSubsets) m (a.construction limit m) := by
  have hc := a.construct_meets (limit <|> a.options.maxSubsets) m
  unfold construction
  cases hx : a.construct (limit <|> a.options.maxSubsets) (.empty m) with
  | ok q k => exact (hc.of_ok hx).1.toProgress
  | error e k => exact (hc.of_error hx).progress

theorem construction_of_ok (h : a.determinize limit m = .ok d m') :
    ∃ q, BetweenTurns a (limit <|> a.options.maxSubsets) m q (a.construction limit m) ∧
      (a.construction limit m).queue = [] ∧ d.size = (a.construction limit m).named.length := by
  have hc := a.construct_meets (limit <|> a.options.maxSubsets) m
  rw [← byWorklist_eq_determinize] at h
  unfold byWorklist at h
  unfold construction
  cases hval : a.validate with
  | error e =>
    simp only [hval] at h
    cases h
  | ok _ =>
    simp only [hval] at h
    cases hx : a.construct (limit <|> a.options.maxSubsets) (.empty m) with
    | error e k =>
      simp only [hx] at h
      cases h
    | ok q k =>
      obtain ⟨hk, hq⟩ := hc.of_ok hx
      simp only [hx] at h
      cases h
      have hroom := hk.room
      rw [hk.length_named hq] at hroom
      refine ⟨q, hk, hq, ?_⟩
      rw [hk.result_eq hq, size_onSubsets (numbering_allSubsets hroom), length_allSubsets, hk.length_named hq]

theorem length_enqueued_le (hv : a.Valid) : (a.construction limit m).enqueued.length ≤ 2 ^ a.size := by
  have h : a.Progress _ m (a.construction limit m) := progress_construction
  rw [h.enqueued, ← Construction.length_sets]
  exact Nat.le_trans (length_le_ncard_frontiers h.nodup h.frontier) (ncard_frontiers_le hv)

theorem determinize_of_bound_le (hv : a.Valid)
    (hlim : ∀ n, (limit <|> a.options.maxSubsets) = some n → 2 ^ a.size ≤ n) :
    (∃ d m', a.determinize limit m = .ok d m') ∨
      ∃ m', a.determinize limit m = .error .exhausted m' ∧ m.room < 2 ^ a.size := by
  have hN := ncard_frontiers_le hv
  have hlim : ∀ n, (limit <|> a.options.maxSubsets) = some n → a.frontiers.ncard ≤ n :=
    fun n hn => Nat.le_trans hN (hlim n hn)
  rcases Nat.lt_or_ge m.room a.frontiers.ncard with hroom | hroom
  · refine .inr ⟨_, determinize_of_exhausted hv ?_, by omega⟩
    rwa [demand_of_le hlim]
  · exact .inl ⟨_, _, determinize_of_le hv hlim hroom⟩

/-- With `n` states, no set is taken up twice, the loop ends after `2 ^ n` turns at most, and no limit from `2 ^ n` on
refuses the result. -/
theorem determinize_within_powerset {a : Automaton} (hv : a.validate = .ok ()) (limit : Option Nat) (m : Allocator) :
    a.byWorklist limit m = a.determinize limit m ∧
      ((a.construction limit m).enqueued.map Prod.fst).Nodup ∧
      ((a.construction limit m).dequeued.map Prod.fst).Nodup ∧
      (a.construction limit m).dequeued <+: (a.construction limit m).enqueued ∧
      (a.construction limit m).enqueued.length ≤ 2 ^ a.size ∧
      (∀ p ∈ (a.construction limit m).enqueued, ∀ q ∈ p.1, q ∈ a.states) ∧
      (∀ d m', a.determinize limit m = .ok d m' →
        (a.construction limit m).queue = [] ∧ d.size = (a.construction limit m).dequeued.length ∧
          1 ≤ d.size ∧ d.size ≤ 2 ^ a.size) ∧
      ((∀ n, (limit <|> a.options.maxSubsets) = some n → 2 ^ a.size ≤ n) →
        (∃ d m', a.determinize limit m = .ok d m') ∨
          ∃ m', a.determinize limit m = .error .exhausted m' ∧ m.room < 2 ^ a.size) := by
  have h : a.Progress _ m (a.construction limit m) := progress_construction
  have hva : a.Valid := validate_eq_ok.mp hv
  have hqueue : (a.construction limit m).dequeued <+: (a.construction limit m).enqueued :=
    ⟨(a.construction limit m).queue, by rw [h.queued, h.enqueued]⟩
  have hnodup : ((a.construction limit m).enqueued.map Prod.fst).Nodup := by
    rw [h.enqueued]
    exact h.nodup
  refine ⟨congrFun byWorklist_eq_determinize m, hnodup, hnodup.sublist (hqueue.sublist.map _), hqueue,
    length_enqueued_le hva, ?_, ?_, determinize_of_bound_le hva⟩
  · intro p hp q hq
    rw [h.enqueued] at hp
    exact mem_states_of_mem_frontier hva (h.frontier p.1 (List.mem_map_of_mem hp)) hq
  · intro d m' hd
    obtain ⟨q, hk, hq, hsize⟩ := construction_of_ok hd
    have hlen := hk.length_named hq
    have hpos := ncard_frontiers_pos (a := a)
    have hle := ncard_frontiers_le hva
    rw [hk.dequeued_eq hq]
    exact ⟨hq, hsize, by omega, by omega⟩

theorem determinize_within_powerset_xThenY :
    xThenY.validate = .ok () ∧ xThenY.size = 3 ∧
      xThenY.byWorklist (some 8) ⟨3⟩ = xThenY.determinize (some 8) ⟨3⟩ ∧
      ((xThenY.construction (some 8) ⟨3⟩).enqueued.map Prod.fst).Nodup ∧
      ((xThenY.construction (some 8) ⟨3⟩).dequeued.map Prod.fst).Nodup ∧
      (xThenY.construction (some 8) ⟨3⟩).dequeued <+: (xThenY.construction (some 8) ⟨3⟩).enqueued ∧
      (∀ p ∈ (xThenY.construction (some 8) ⟨3⟩).enqueued, ∀ q ∈ p.1, q ∈ xThenY.states) ∧
      ∃ d m', xThenY.determinize (some 8) ⟨3⟩ = .ok d m' ∧ (xThenY.construction (some 8) ⟨3⟩).queue = [] ∧
        d.size = (xThenY.construction (some 8) ⟨3⟩).dequeued.length ∧ 1 ≤ d.size ∧ d.size ≤ 2 ^ 3 := by
  obtain ⟨heq, henq, hdeq, hqueue, _, hsub, hok, hbound⟩ := determinize_within_powerset (a := xThenY) rfl (some 8) ⟨3⟩
  refine ⟨rfl, rfl, heq, henq, hdeq, hqueue, hsub, ?_⟩
  have hlim : ∀ n, (some 8 <|> xThenY.options.maxSubsets) = some n → 2 ^ xThenY.size ≤ n := by
    intro n hn
    exact Nat.le_of_eq (Option.some.inj hn)
  rcases hbound hlim with ⟨d, m', hd⟩ | ⟨_, _, hroom⟩
  · exact ⟨d, m', hd, hok d m' hd⟩
  · exact absurd hroom (by decide)

end Automata.Automaton
