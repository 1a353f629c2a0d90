import Automata.Proofs.SubsetAutomaton
import Mathlib.Data.Set.Card

/-!
# The limit on the number of states

The search for subsets finds more sets than it may expand iff there are more frontiers
than that (`lt_length_subsets`), so the limit is exact.
-/

namespace Automata

instance : Finite State :=
  Finite.of_injective (fun q => q.ordinal.toFin) fun _ _ h => State.ordinal_inj.mp (UInt32.toFin_inj.mp h)

instance : Finite StateSet :=
  Finite.of_injective (fun s => {q | q ∈ s}) fun _ _ h => SortedSet.ext (Set.ext_iff.mp h)

namespace Automaton

variable {a d : Automaton} {limit : Option Nat} {m : Allocator} {n rounds : Nat}

theorem finite_frontiers : a.frontiers.Finite := Set.toFinite _

theorem nodup_subsets : (a.subsets rounds).Nodup := Search.nodup_search

theorem ncard_setOf_mem {α : Type} {l : List α} (h : l.Nodup) : {x | x ∈ l}.ncard = l.length := by
  classical
  rw [← List.coe_toFinset, Set.ncard_coe_finset, List.toFinset_card_of_nodup h]

theorem ncard_frontiers (h : (a.subsets rounds).length ≤ rounds) :
    a.frontiers.ncard = (a.subsets rounds).length := by
  have he : a.frontiers = {s | s ∈ a.subsets rounds} := Set.ext fun s => (mem_subsets h).symm
  rw [he, ncard_setOf_mem nodup_subsets]

theorem length_le_ncard_frontiers {l : List StateSet} (h : l.Nodup) (hl : ∀ s ∈ l, s ∈ a.frontiers) :
    l.length ≤ a.frontiers.ncard := by
  rw [← ncard_setOf_mem h]
  exact Set.ncard_le_ncard hl finite_frontiers

theorem length_subsets_le : (a.subsets rounds).length ≤ a.frontiers.ncard :=
  length_le_ncard_frontiers nodup_subsets fun _ hs => reachable_iff_mem_frontiers.mp (Search.search_reachable hs)

theorem length_subsets_of_le (h : a.frontiers.ncard ≤ rounds) : (a.subsets rounds).length = a.frontiers.ncard :=
  (ncard_frontiers (Nat.le_trans length_subsets_le h)).symm

theorem lt_length_subsets (h : rounds < a.frontiers.ncard) : rounds < (a.subsets rounds).length := by
  apply Nat.lt_of_not_le
  intro hle
  rw [ncard_frontiers hle] at h
  exact absurd h (Nat.not_lt.mpr hle)

noncomputable def allSubsets (a : Automaton) : List StateSet := a.subsets a.frontiers.ncard

theorem length_allSubsets : a.allSubsets.length = a.frontiers.ncard := length_subsets_of_le (Nat.le_refl _)

theorem subsets_of_le (h : a.frontiers.ncard ≤ rounds) : a.subsets rounds = a.allSubsets :=
  Search.search_of_le (Nat.le_of_eq length_allSubsets) h

theorem numbering_allSubsets (hm : a.frontiers.ncard ≤ m.room) :
    Numbering a a.allSubsets (m.block a.frontiers.ncard) := by
  rw [← length_allSubsets] at hm ⊢
  refine numbering_subsets ?_ hm
  exact Nat.le_of_eq length_allSubsets

/-! ## The outcomes -/

/-- How many states a determinization mints when there is room for them. -/
noncomputable def demand (a : Automaton) (limit : Option Nat) : Nat :=
  match limit <|> a.options.maxSubsets with
  | none => a.frontiers.ncard
  | some n => min n a.frontiers.ncard

theorem lt_demand_iff {k : Nat} : k < a.demand limit ↔
    (∀ n, (limit <|> a.options.maxSubsets) = some n → k < n) ∧ k < a.frontiers.ncard := by
  unfold demand
  cases limit <|> a.options.maxSubsets with
  | none => simp
  | some n => simp

theorem demand_le : a.demand limit ≤ a.frontiers.ncard :=
  Nat.le_of_not_lt fun h => Nat.lt_irrefl _ (lt_demand_iff.mp h).2

theorem demand_of_le (hlim : ∀ n, (limit <|> a.options.maxSubsets) = some n → a.frontiers.ncard ≤ n) :
    a.demand limit = a.frontiers.ncard := by
  unfold demand
  cases h : limit <|> a.options.maxSubsets with
  | none => rfl
  | some n => exact Nat.min_eq_right (hlim n h)

theorem demand_of_lt (hlim : (limit <|> a.options.maxSubsets) = some n) (hn : n < a.frontiers.ncard) :
    a.demand limit = n := by
  unfold demand
  rw [hlim]
  exact Nat.min_eq_left (Nat.le_of_lt hn)

theorem size_onSubsets {l : List StateSet} {names : List State} (hn : Numbering a l names) :
    (a.onSubsets l names).size = l.length := by
  unfold size
  rw [states_onSubsets, SortedSet.size_ofList hn.nodup_names, hn.length_eq]

theorem Valid.setOptions (h : a.Valid) (o : Options) : (a.setOptions o).Valid :=
  ⟨h.initial, h.finals, h.designated, h.closed, h.complete⟩

section
variable (hv : a.Valid)
include hv

theorem determinize_of_le (hlim : ∀ n, (limit <|> a.options.maxSubsets) = some n → a.frontiers.ncard ≤ n)
    (hm : a.frontiers.ncard ≤ m.room) :
    a.determinize limit m =
      .ok (a.onSubsets a.allSubsets (m.block a.frontiers.ncard)) (m.advance a.frontiers.ncard) := by
  cases h : limit <|> a.options.maxSubsets with
  | none =>
    rw [determinize_of_unlimited hv h, subsets_of_le hm, length_allSubsets]
    exact Minting.bind_of_ok (Allocator.mintEach_of_le hm)
  | some n =>
    have hn : a.frontiers.ncard ≤ n := hlim n h
    have hmin : a.frontiers.ncard ≤ min n m.room := Nat.le_min.mpr ⟨hn, hm⟩
    rw [determinize_of_limited hv h, subsets_of_le hmin, length_allSubsets, Nat.min_eq_right hn,
      Minting.bind_of_ok (Allocator.mintEach_of_le hm), if_neg (Nat.not_lt.mpr hn)]
    rfl

theorem determinize_unbounded (hm : a.frontiers.ncard ≤ m.room) :
    (a.setOptions a.options.unbounded).determinize none m =
      .ok ((a.setOptions a.options.unbounded).onSubsets a.allSubsets (m.block a.frontiers.ncard))
        (m.advance a.frontiers.ncard) := by
  refine determinize_of_le (hv.setOptions _) ?_ hm
  intro n hn
  cases hn

theorem determinize_of_lt (hlim : (limit <|> a.options.maxSubsets) = some n) (hn : n < a.frontiers.ncard)
    (hm : n ≤ m.room) : a.determinize limit m = .error (.refused (.tooManyStates n)) (m.advance n) := by
  have hlt : n < (a.subsets n).length := lt_length_subsets hn
  rw [determinize_of_limited hv hlim, Nat.min_eq_left hm, Nat.min_eq_left (Nat.le_of_lt hlt),
    Minting.bind_of_ok (Allocator.mintEach_of_le hm), if_pos hlt]
  rfl

theorem determinize_of_exhausted (hm : m.room < a.demand limit) :
    a.determinize limit m = .error .exhausted (m.advance m.room) := by
  cases h : limit <|> a.options.maxSubsets with
  | none =>
    have hlt : m.room < (a.subsets m.room).length := lt_length_subsets (lt_demand_iff.mp hm).2
    rw [determinize_of_unlimited hv h]
    exact Minting.bind_of_error (Allocator.mintEach_of_lt hlt)
  | some n =>
    obtain ⟨hn, hN⟩ := lt_demand_iff.mp hm
    have hmin : min n m.room = m.room := Nat.min_eq_right (Nat.le_of_lt (hn n h))
    have hlt : m.room < (a.subsets m.room).length := lt_length_subsets hN
    rw [determinize_of_limited hv h, hmin]
    exact Minting.bind_of_error (Allocator.mintEach_of_lt (Nat.lt_min.mpr ⟨hn n h, hlt⟩))

end

theorem determinize_limit_exact {a : Automaton} {limit : Option Nat} {m : Allocator} (hv : a.validate = .ok ())
    (hm : a.demand limit ≤ m.room) :
    ((∀ n, (limit <|> a.options.maxSubsets) = some n → a.frontiers.ncard ≤ n) →
      ∃ d m', a.determinize limit m = .ok (d.setOptions a.options) m' ∧
        (a.setOptions a.options.unbounded).determinize none m = .ok d m' ∧
        d.size = a.frontiers.ncard ∧ m'.counter.toNat = m.counter.toNat + a.frontiers.ncard) ∧
    ∀ n, (limit <|> a.options.maxSubsets) = some n → n < a.frontiers.ncard →
      ∃ m', a.determinize limit m = .error (.refused (.tooManyStates n)) m' ∧
        m'.counter.toNat = m.counter.toNat + n := by
  have h := validate_eq_ok.mp hv
  constructor
  · intro hlim
    rw [demand_of_le hlim] at hm
    have hn := numbering_allSubsets (a := a.setOptions a.options.unbounded) hm
    refine ⟨(a.setOptions a.options.unbounded).onSubsets a.allSubsets (m.block a.frontiers.ncard), _,
      determinize_of_le h hlim hm, determinize_unbounded h hm, ?_, Allocator.toNat_advance hm⟩
    exact (size_onSubsets hn).trans length_allSubsets
  · intro n hlim hn
    rw [demand_of_lt hlim hn] at hm
    exact ⟨_, determinize_of_lt h hlim hn hm, Allocator.toNat_advance hm⟩

theorem ncard_frontiers_xThenY : xThenY.frontiers.ncard = 4 := by
  have h : (xThenY.subsets 4).length = 4 := rfl
  rw [ncard_frontiers (Nat.le_of_eq h), h]

theorem determinize_limit_exact_xThenY :
    xThenY.validate = .ok () ∧ xThenY.frontiers.ncard = 4 ∧
      (∃ d m', xThenY.determinize (some 4) ⟨3⟩ = .ok (d.setOptions xThenY.options) m' ∧
        (xThenY.setOptions xThenY.options.unbounded).determinize none ⟨3⟩ = .ok d m' ∧
        d.size = xThenY.frontiers.ncard ∧ m'.counter.toNat = (3 : UInt32).toNat + xThenY.frontiers.ncard) ∧
      ∃ m', xThenY.determinize (some 3) ⟨3⟩ = .error (.refused (.tooManyStates 3)) m' ∧
        m'.counter.toNat = (3 : UInt32).toNat + 3 := by
  have hN := ncard_frontiers_xThenY
  have hroom : ∀ n, xThenY.demand (some n) ≤ (Allocator.mk 3).room := fun n =>
    Nat.le_trans demand_le (by rw [hN]; decide)
  refine ⟨rfl, hN, (determinize_limit_exact rfl (hroom 4)).1 ?_, (determinize_limit_exact rfl (hroom 3)).2 3 rfl ?_⟩
  · intro n hn
    rw [hN, ← Option.some.inj hn]
  · rw [hN]
    decide

end Automaton

end Automata
