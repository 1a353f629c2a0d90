import Automata.Proofs.Renaming
import Automata.Proofs.StateLimit

/-!
# Determinization without regard to names

The search for subsets tells sets apart and does not look at their members, so it finds
the renamed sets of a renamed automaton in the same order (`subsets_rename`).
-/

namespace Automata

namespace Search

variable {α β : Type} [DecidableEq α] [DecidableEq β] {f : α → β} {next : α → List α} {next' : β → List β}

theorem extend_map (hf : Function.Injective f) : ∀ {l found : List α},
    extend (found.map f) (l.map f) = (extend found l).map f
  | [], _ => rfl
  | x :: l, found => by
    rw [List.map_cons, extend, extend]
    by_cases hx : x ∈ found
    · rw [if_pos hx, if_pos (List.mem_map_of_mem hx)]
      exact extend_map hf
    · rw [if_neg hx, if_neg ((List.mem_map_of_injective hf).not.mpr hx)]
      have h : found.map f ++ [f x] = (found ++ [x]).map f := by rw [List.map_append, List.map_singleton]
      rw [h]
      exact extend_map hf

theorem expand_map (hf : Function.Injective f) (hn : ∀ x, next' (f x) = (next x).map f) :
    ∀ {rounds i : Nat} {found : List α},
      expand next' rounds i (found.map f) = (expand next rounds i found).map f
  | 0, _, _ => rfl
  | rounds + 1, i, found => by
    rw [expand, expand, List.getElem?_map]
    cases found[i]? with
    | none => rfl
    | some x =>
      simp only [Option.map_some]
      rw [hn, extend_map hf]
      exact expand_map hf hn

theorem search_map (hf : Function.Injective f) (hn : ∀ x, next' (f x) = (next x).map f) {starts : List α}
    {rounds : Nat} : search next' (starts.map f) rounds = (search next starts rounds).map f := by
  have h : extend (([] : List α).map f) (starts.map f) = (extend [] starts).map f := extend_map hf
  rw [List.map_nil] at h
  rw [search, h]
  exact expand_map hf hn

end Search

namespace Automaton

variable {a : Automaton} {l : List StateSet} {names : List State} {r σ : State ↪ State} {p q : State} {s : StateSet}

/-! ## The subsets of a renamed automaton -/

theorem start_rename : (a.rename r).start = a.start.map r := by
  have h : SortedSet.ofList (a.initial.map r).toList = (SortedSet.ofList a.initial.toList).map r := by
    cases a.initial <;> rfl
  unfold start
  rw [graph_rename]
  show NondetGraph.closure _ (SortedSet.ofList (a.initial.map r).toList) = _
  rw [h, NondetGraph.closure_rename]

theorem meets_rename {t : StateSet} : (s.map r).meets (t.map r) = s.meets t := by
  rw [Bool.eq_iff_iff, SortedSet.meets_iff, SortedSet.meets_iff]
  constructor
  · intro h
    obtain ⟨_, hs', ht⟩ := h
    obtain ⟨q, hs, rfl⟩ := SortedSet.mem_map.mp hs'
    exact ⟨q, hs, mem_map_rename.mp ht⟩
  · intro h
    obtain ⟨q, hs, ht⟩ := h
    exact ⟨r q, mem_map_rename.mpr hs, mem_map_rename.mpr ht⟩

theorem accepting_rename : (a.rename r).accepting (s.map r) = a.accepting s := by
  have ho : (a.rename r).options = a.options := rfl
  have hf : (a.rename r).finals = a.finals.map r := rfl
  unfold accepting
  rw [ho, hf, graph_rename, NondetGraph.closure_rename, meets_rename, meets_rename]

theorem images_rename : (a.rename r).images (s.map r) = (a.images s).map (·.map r) := by
  unfold images
  rw [symbols_rename, graph_rename, List.map_map]
  exact List.map_congr_left fun c _ => NondetGraph.move_rename

theorem subsets_rename {rounds : Nat} : (a.rename r).subsets rounds = (a.subsets rounds).map (·.map r) := by
  have h : Search.search (a.rename r).images ([a.start].map (·.map r)) rounds =
      (Search.search a.images [a.start] rounds).map (·.map r) :=
    Search.search_map map_rename_injective fun _ => images_rename
  unfold subsets
  rw [start_rename]
  exact h

theorem ncard_frontiers_rename : (a.rename r).frontiers.ncard = a.frontiers.ncard := by
  have h : (a.rename r).subsets a.frontiers.ncard = a.allSubsets.map (·.map r) := subsets_rename
  have hl : ((a.rename r).subsets a.frontiers.ncard).length = a.frontiers.ncard := by
    rw [h, List.length_map, length_allSubsets]
  rw [ncard_frontiers (Nat.le_of_eq hl), hl]

theorem allSubsets_rename : (a.rename r).allSubsets = a.allSubsets.map (·.map r) := by
  unfold allSubsets
  rw [ncard_frontiers_rename, subsets_rename]

/-! ## Numbering them -/

namespace Numbering

variable (hn : Numbering a l names)
include hn

theorem rename (r σ : State ↪ State) : Numbering (a.rename r) (l.map (·.map r)) (names.map σ) where
  length_eq := by rw [List.length_map, List.length_map, hn.length_eq]
  nodup_sets := hn.nodup_sets.map map_rename_injective
  nodup_names := hn.nodup_names.map σ.injective
  start := by rw [List.head?_map, hn.start, start_rename]; rfl
  closed := by
    intro s' hs' t' ht'
    obtain ⟨s, hs, rfl⟩ := List.mem_map.mp hs'
    rw [images_rename] at ht'
    obtain ⟨t, ht, rfl⟩ := List.mem_map.mp ht'
    exact List.mem_map_of_mem (hn.closed s hs t ht)

omit hn in
theorem mem_zip_rename {s' : StateSet} {q' : State} :
    (s', q') ∈ (l.map (·.map r)).zip (names.map σ) ↔ ∃ s q, (s, q) ∈ l.zip names ∧ s.map r = s' ∧ σ q = q' := by
  rw [List.zip_map, List.mem_map]
  constructor
  · intro h
    obtain ⟨⟨s, q⟩, hp, h⟩ := h
    cases h
    exact ⟨s, q, hp, rfl, rfl⟩
  · intro h
    obtain ⟨s, q, hp, rfl, rfl⟩ := h
    exact ⟨(s, q), hp, rfl⟩

theorem subsetGraph_rename :
    (a.rename r).subsetGraph (l.map (·.map r)) (names.map σ) = (a.subsetGraph l names).rename σ := by
  refine DetGraph.ext (Graph.ext (fun q => ?_) fun e => ?_)
  · show q ∈ SortedSet.ofList (names.map σ) ↔ q ∈ (SortedSet.ofList names).map σ
    simp
  obtain ⟨p', c, q'⟩ := e
  have hr := hn.rename r σ
  rw [← DetGraph.target?_eq_some, hr.target?_eq_some, symbols_rename, graph_rename]
  show _ ↔ _ ∈ (Graph.rename σ (a.subsetGraph l names).toGraph).edges
  rw [Graph.mem_edges_rename]
  simp only [← DetGraph.target?_eq_some, hn.target?_eq_some, mem_zip_rename]
  constructor
  · intro h
    obtain ⟨hc, _, ⟨s, p, hs, rfl, hp⟩, t, q, ht, hm, hq⟩ := h
    rw [NondetGraph.move_rename] at hm
    have hm := map_rename_injective hm
    subst hm
    exact ⟨p, q, ⟨hc, s, hs, ht⟩, hp, hq⟩
  · intro h
    obtain ⟨p, q, ⟨hc, s, hs, ht⟩, hp, hq⟩ := h
    exact ⟨hc, _, ⟨s, p, hs, rfl, hp⟩, _, q, ht, NondetGraph.move_rename.symm, hq⟩

omit hn in
theorem finals_rename :
    ((a.rename r).onSubsets (l.map (·.map r)) (names.map σ)).finals = (a.onSubsets l names).finals.map σ := by
  apply SortedSet.ext
  intro q'
  rw [mem_finals_onSubsets, SortedSet.mem_map]
  simp only [mem_finals_onSubsets, mem_zip_rename]
  constructor
  · intro h
    obtain ⟨_, ⟨s, q, hs, rfl, hq⟩, hacc⟩ := h
    rw [accepting_rename] at hacc
    exact ⟨q, ⟨s, hs, hacc⟩, hq⟩
  · intro h
    obtain ⟨q, ⟨s, hs, hacc⟩, hq⟩ := h
    exact ⟨_, ⟨s, q, hs, rfl, hq⟩, by rwa [accepting_rename]⟩

theorem onSubsets_rename :
    (a.rename r).onSubsets (l.map (·.map r)) (names.map σ) = (a.onSubsets l names).rename σ := by
  show Automaton.mk (.det ((a.rename r).subsetGraph (l.map (·.map r)) (names.map σ))) (names.map σ).head?
      ((a.rename r).onSubsets (l.map (·.map r)) (names.map σ)).finals a.options =
    Automaton.mk (.det ((a.subsetGraph l names).rename σ)) (names.head?.map σ) ((a.onSubsets l names).finals.map σ) a.options
  rw [hn.subsetGraph_rename, finals_rename, List.head?_map]

end Numbering

end Automaton

/-! ## Shifting ordinals -/

/-- The renaming that adds to each ordinal, modulo the number of ordinals. -/
def State.shift (k : UInt32) : State ↪ State :=
  ⟨fun q => ⟨q.ordinal + k⟩, fun p q h => by
    have h : p.ordinal + k = q.ordinal + k := congrArg State.ordinal h
    exact State.ordinal_inj.mp ((UInt32.add_left_inj k).mp h)⟩

namespace Allocator

variable {m n : Allocator} {i k : Nat} {q : State}

theorem block_shift : n.block k = (m.block k).map (State.shift (n.counter - m.counter)) := by
  unfold block
  rw [List.map_map]
  apply List.map_congr_left
  intro i _
  show State.mk (n.counter + UInt32.ofNat i) = ⟨m.counter + UInt32.ofNat i + (n.counter - m.counter)⟩
  congr 1
  grind

theorem toNat_shift (hm : k ≤ m.room) (hn : k ≤ n.room) (hq : q ∈ m.block k) :
    (State.shift (n.counter - m.counter) q).ordinal.toNat + m.counter.toNat =
      q.ordinal.toNat + n.counter.toNat := by
  obtain ⟨i, hi, rfl⟩ := List.mem_map.mp hq
  have hi : i < k := List.mem_range.mp hi
  have hs : (m.counter + UInt32.ofNat i) + (n.counter - m.counter) = n.counter + UInt32.ofNat i := by grind
  have hmi : (m.counter + UInt32.ofNat i).toNat = m.counter.toNat + i := toNat_advance (by omega)
  have hni : (n.counter + UInt32.ofNat i).toNat = n.counter.toNat + i := toNat_advance (by omega)
  show ((m.counter + UInt32.ofNat i) + (n.counter - m.counter)).toNat + m.counter.toNat =
    (m.counter + UInt32.ofNat i).toNat + n.counter.toNat
  rw [hs, hmi, hni]
  omega

end Allocator

namespace Automaton

theorem determinize_rename {a : Automaton} {limit : Option Nat} {m n : Allocator} (r : State ↪ State)
    (hv : a.validate = .ok ()) (hm : a.demand limit ≤ m.room) (hn : a.demand limit ≤ n.room) :
    (∃ k, a.determinize limit m = .error (.refused (.tooManyStates k)) (m.advance k) ∧
        (a.rename r).determinize limit n = .error (.refused (.tooManyStates k)) (n.advance k)) ∨
      ∃ d, a.determinize limit m = .ok d (m.advance d.size) ∧
        (a.rename r).determinize limit n =
          .ok (d.rename (State.shift (n.counter - m.counter))) (n.advance d.size) ∧
        ∀ q ∈ d.states, (State.shift (n.counter - m.counter) q).ordinal.toNat + m.counter.toNat =
          q.ordinal.toNat + n.counter.toNat := by
  have h := validate_eq_ok.mp hv
  by_cases hlim : ∀ k, (limit <|> a.options.maxSubsets) = some k → a.frontiers.ncard ≤ k
  · rw [demand_of_le hlim] at hm hn
    have hnum := numbering_allSubsets hm
    have hsize : (a.onSubsets a.allSubsets (m.block a.frontiers.ncard)).size = a.frontiers.ncard :=
      (size_onSubsets hnum).trans length_allSubsets
    refine .inr ⟨a.onSubsets a.allSubsets (m.block a.frontiers.ncard), ?_, ?_, ?_⟩
    · rw [hsize]
      exact determinize_of_le h hlim hm
    · rw [hsize, ← hnum.onSubsets_rename (r := r), ← allSubsets_rename, ← Allocator.block_shift]
      rw [← ncard_frontiers_rename (r := r)] at hlim hn ⊢
      exact determinize_of_le (h.rename r) hlim hn
    · intro q hq
      exact Allocator.toNat_shift hm hn (mem_states_onSubsets.mp hq)
  · obtain ⟨k, hk⟩ := not_forall.mp hlim
    obtain ⟨hk, hlt⟩ := Classical.not_imp.mp hk
    have hlt : k < a.frontiers.ncard := Nat.lt_of_not_le hlt
    rw [demand_of_lt hk hlt] at hm hn
    refine .inl ⟨k, determinize_of_lt h hk hlt hm, ?_⟩
    rw [← ncard_frontiers_rename (r := r)] at hlt
    exact determinize_of_lt (h.rename r) hk hlt hn

/-- Turns the order of the ordinals round. -/
def reflection (k : UInt32) : State ↪ State :=
  ⟨fun q => ⟨k - q.ordinal⟩, fun p q h => by
    have h : k - p.ordinal = k - q.ordinal := congrArg State.ordinal h
    exact State.ordinal_inj.mp ((UInt32.sub_right_inj k).mp h)⟩

/-- The copy has the states 5, 4 and 3, and its allocator mints the states from 3 on. -/
theorem determinize_rename_xThenY :
    xThenY.validate = .ok () ∧ xThenY.demand none ≤ (Allocator.mk 100).room ∧
      xThenY.demand none ≤ (Allocator.mk 3).room ∧
      ((∃ k, xThenY.determinize none ⟨100⟩ = .error (.refused (.tooManyStates k)) ((Allocator.mk 100).advance k) ∧
          (xThenY.rename (reflection 5)).determinize none ⟨3⟩ =
            .error (.refused (.tooManyStates k)) ((Allocator.mk 3).advance k)) ∨
        ∃ d, xThenY.determinize none ⟨100⟩ = .ok d ((Allocator.mk 100).advance d.size) ∧
          (xThenY.rename (reflection 5)).determinize none ⟨3⟩ =
            .ok (d.rename (State.shift (3 - 100))) ((Allocator.mk 3).advance d.size) ∧
          ∀ q ∈ d.states, (State.shift (3 - 100) q).ordinal.toNat + (100 : UInt32).toNat =
            q.ordinal.toNat + (3 : UInt32).toNat) := by
  have hroom : xThenY.demand none ≤ 4 := by
    rw [← ncard_frontiers_xThenY]
    exact demand_le
  have hm : xThenY.demand none ≤ (Allocator.mk 100).room := Nat.le_trans hroom (by decide)
  have hn : xThenY.demand none ≤ (Allocator.mk 3).room := Nat.le_trans hroom (by decide)
  exact ⟨rfl, hm, hn, determinize_rename (reflection 5) rfl hm hn⟩

end Automaton

end Automata
