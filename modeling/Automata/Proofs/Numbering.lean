import Automata.Subsets
import Automata.Proofs.Acceptance
import Automata.Proofs.Completeness
import Mathlib.Data.List.Zip

/-!
# States that stand for sets

Each state stands for one set, and an edge of the result is a move of a set, so a run of
the result follows the walk of the operand (`Numbering.run_eq`).
-/

namespace Automata

section
variable {α β : Type}

theorem exists_mem_zip {l : List α} {m : List β} {x : α} (h : l.length ≤ m.length) (hx : x ∈ l) :
    ∃ y, (x, y) ∈ l.zip m := by
  rw [← List.map_fst_zip h] at hx
  obtain ⟨⟨_, y⟩, hp, rfl⟩ := List.mem_map.mp hx
  exact ⟨y, hp⟩

theorem mem_zip_comm {l : List α} {m : List β} {x : α} {y : β} : (y, x) ∈ m.zip l ↔ (x, y) ∈ l.zip m := by
  rw [← List.zip_swap l m, List.mem_map]
  constructor
  · intro h
    obtain ⟨⟨_, _⟩, hp, h⟩ := h
    cases h
    exact hp
  · intro hp
    exact ⟨_, hp, rfl⟩

theorem lookup_zip_eq_some [DecidableEq α] {x : α} {y : β} : ∀ {l : List α} {m : List β}, l.Nodup →
    ((l.zip m).lookup x = some y ↔ (x, y) ∈ l.zip m)
  | [], _, _ => by simp
  | _ :: _, [], _ => by simp
  | a :: l, b :: m, h => by
    obtain ⟨ha, hl⟩ := List.nodup_cons.mp h
    rw [List.zip_cons_cons, List.lookup_cons, List.mem_cons, Prod.mk.injEq]
    by_cases hx : x = a
    · subst hx
      have hn : (x, y) ∉ l.zip m := fun hp => ha (List.of_mem_zip hp).1
      simp [hn, eq_comm]
    · have hb : (x == a) = false := by simpa using hx
      rw [hb]
      simp only [hx, false_and, false_or]
      exact lookup_zip_eq_some hl

end

namespace Automaton

variable {a : Automaton} {l : List StateSet} {names : List State} {s t : StateSet} {q r : State} {c : Char}

theorem mem_symbols : c ∈ a.symbols ↔ ∃ p q, ⟨p, .char c, q⟩ ∈ a.graph.edges := Table.mem_symbols

theorem mem_images : t ∈ a.images s ↔ ∃ c ∈ a.symbols, a.graph.move s (.char c) = t := List.mem_map

theorem move_of_foreign (h : c ∉ a.symbols) : a.graph.move s (.char c) = ∅ := by
  apply SortedSet.ext
  intro r
  rw [NondetGraph.mem_move_char]
  constructor
  · intro h
    obtain ⟨p, _, q, _, he⟩ := h
    exact absurd (mem_symbols.mpr ⟨q, r, he⟩) h
  · intro hr
    exact absurd hr SortedSet.not_mem_empty

/-! ## Numberings -/

/-- The lists give each of some sets a state of its own, the closure of the initial state first, and no
move on a character of the automaton leads out of the sets. -/
structure Numbering (a : Automaton) (l : List StateSet) (names : List State) : Prop where
  length_eq : names.length = l.length
  nodup_sets : l.Nodup
  nodup_names : names.Nodup
  start : l.head? = some a.start
  closed : ∀ s ∈ l, ∀ t ∈ a.images s, t ∈ l

/-- The transitions of the result: what stands for a set leads to what stands for its move. -/
def subsetGraph (a : Automaton) (l : List StateSet) (names : List State) : DetGraph :=
  .tabulate (.ofList names) a.symbols fun q c => do
    let s ← (names.zip l).lookup q
    (l.zip names).lookup (a.graph.move s (.char c))

theorem table_onSubsets : (a.onSubsets l names).table = .det (a.subsetGraph l names) := rfl

theorem initial_onSubsets : (a.onSubsets l names).initial = names.head? := rfl

theorem mem_finals_onSubsets : q ∈ (a.onSubsets l names).finals ↔ ∃ s, (s, q) ∈ l.zip names ∧ a.accepting s := by
  show q ∈ SortedSet.ofList ((l.zip names).filterMap _) ↔ _
  rw [SortedSet.mem_ofList, List.mem_filterMap]
  constructor
  · intro h
    obtain ⟨⟨s, q'⟩, hp, hq⟩ := h
    by_cases hs : a.accepting s
    · obtain rfl : q' = q := by simpa [hs] using hq
      exact ⟨s, hp, hs⟩
    · simp [hs] at hq
  · intro h
    obtain ⟨s, hp, hs⟩ := h
    exact ⟨(s, q), hp, by simp [hs]⟩

namespace Numbering

variable (hn : Numbering a l names)
include hn

theorem exists_state (hs : s ∈ l) : ∃ q, (s, q) ∈ l.zip names :=
  exists_mem_zip (Nat.le_of_eq hn.length_eq.symm) hs

theorem exists_set (hq : q ∈ names) : ∃ s, (s, q) ∈ l.zip names := by
  obtain ⟨s, hs⟩ := exists_mem_zip (Nat.le_of_eq hn.length_eq) hq
  exact ⟨s, mem_zip_comm.mp hs⟩

theorem set_unique (hs : (s, q) ∈ l.zip names) (ht : (t, q) ∈ l.zip names) : s = t := by
  have hs := (lookup_zip_eq_some hn.nodup_names).mpr (mem_zip_comm.mpr hs)
  have ht := (lookup_zip_eq_some hn.nodup_names).mpr (mem_zip_comm.mpr ht)
  exact Option.some.inj (hs.symm.trans ht)

theorem state_unique (hq : (s, q) ∈ l.zip names) (hr : (s, r) ∈ l.zip names) : q = r := by
  have hq := (lookup_zip_eq_some hn.nodup_sets).mpr hq
  have hr := (lookup_zip_eq_some hn.nodup_sets).mpr hr
  exact Option.some.inj (hq.symm.trans hr)

theorem exists_initial : ∃ q, names.head? = some q ∧ (a.start, q) ∈ l.zip names := by
  have hs := hn.start
  have hlen := hn.length_eq
  cases l with
  | nil => cases hs
  | cons s l =>
    cases names with
    | nil => cases hlen
    | cons q names =>
      obtain rfl : s = a.start := Option.some.inj hs
      exact ⟨q, rfl, List.mem_cons_self ..⟩

theorem target?_eq_some :
    (a.subsetGraph l names).target? q c = some r ↔
      c ∈ a.symbols ∧ ∃ s, (s, q) ∈ l.zip names ∧ (a.graph.move s (.char c), r) ∈ l.zip names := by
  rw [DetGraph.target?_eq_some]
  unfold subsetGraph
  rw [DetGraph.mem_edges_tabulate, SortedSet.mem_ofList]
  simp only [bind, Option.bind_eq_some_iff, lookup_zip_eq_some hn.nodup_names, lookup_zip_eq_some hn.nodup_sets,
    mem_zip_comm (l := l)]
  constructor
  · intro h
    obtain ⟨_, hc, h⟩ := h
    exact ⟨hc, h⟩
  · intro h
    obtain ⟨hc, s, hs, ht⟩ := h
    exact ⟨(List.of_mem_zip hs).2, hc, s, hs, ht⟩

theorem exists_target (hs : (s, q) ∈ l.zip names) (hc : c ∈ a.symbols) :
    ∃ r, (a.subsetGraph l names).target? q c = some r ∧ (a.graph.move s (.char c), r) ∈ l.zip names := by
  have hm : a.graph.move s (.char c) ∈ l := hn.closed s (List.of_mem_zip hs).1 _ (mem_images.mpr ⟨c, hc, rfl⟩)
  obtain ⟨r, hr⟩ := hn.exists_state hm
  exact ⟨r, hn.target?_eq_some.mpr ⟨hc, s, hs, hr⟩, hr⟩

/-! ## Runs -/

theorem run_iff_accepting : ∀ {w : List Char} {s : StateSet} {q : State}, (s, q) ∈ l.zip names →
    ((∃ r, (a.subsetGraph l names).run? q w = some r ∧ r ∈ (a.onSubsets l names).finals) ↔
      a.accepting (a.graph.walk s w))
  | [], s, q, hs => by
    have hw : a.graph.walk s [] = s := rfl
    simp only [DetGraph.run?, List.foldlM_nil, Option.pure_def, Option.some.injEq, exists_eq_left', hw,
      mem_finals_onSubsets]
    constructor
    · intro h
      obtain ⟨t, ht, h⟩ := h
      rwa [hn.set_unique hs ht]
    · intro h
      exact ⟨s, hs, h⟩
  | c :: w, s, q, hs => by
    have hrun : (a.subsetGraph l names).run? q (c :: w) =
        ((a.subsetGraph l names).target? q c).bind ((a.subsetGraph l names).run? · w) := rfl
    rw [hrun, NondetGraph.walk_cons]
    by_cases hc : c ∈ a.symbols
    · obtain ⟨r, hr, ht⟩ := hn.exists_target hs hc
      rw [hr]
      exact run_iff_accepting ht
    -- a character of no edge: the run stops, and the walk loses all states
    · have hnone : (a.subsetGraph l names).target? q c = none := by
        rw [Option.eq_none_iff_forall_ne_some]
        intro r hr
        exact hc (hn.target?_eq_some.mp hr).1
      rw [hnone, move_of_foreign hc, NondetGraph.walk_empty, not_accepting_empty]
      simp

theorem run_eq (w : List Char) : (a.onSubsets l names).run w = a.run w := by
  obtain ⟨q, hq, hs⟩ := hn.exists_initial
  rw [run_eq_accepting_walk (a := a), Bool.eq_iff_iff, ← hn.run_iff_accepting hs]
  unfold run
  rw [table_onSubsets, initial_onSubsets, hq]
  simp [Option.any_eq_true]

theorem valid (hf : ∃ q, q ∈ (a.onSubsets l names).finals) : (a.onSubsets l names).Valid where
  initial := by
    obtain ⟨q, hq, _⟩ := hn.exists_initial
    rw [initial_onSubsets, hq]
    exact Option.some_ne_none q
  finals := hf
  designated q hq := by
    have hstates : q ∈ (a.onSubsets l names).states ↔ q ∈ names := SortedSet.mem_ofList
    rw [hstates]
    rcases mem_designated.mp hq with hq | hq
    · rw [initial_onSubsets] at hq
      exact List.mem_of_mem_head? hq
    · obtain ⟨s, hs, _⟩ := mem_finals_onSubsets.mp hq
      exact (List.of_mem_zip hs).2
  closed e he := by
    obtain ⟨p, x, r⟩ := e
    obtain ⟨c, rfl, hc⟩ := DetGraph.mem_edges_toNondet.mp he
    obtain ⟨_, s, hs, ht⟩ := hn.target?_eq_some.mp (DetGraph.target?_eq_some.mpr hc)
    exact ⟨SortedSet.mem_ofList.mpr (List.of_mem_zip hs).2, SortedSet.mem_ofList.mpr (List.of_mem_zip ht).2⟩
  complete g hg := by
    obtain rfl : a.subsetGraph l names = g := by
      rw [table_onSubsets] at hg
      exact Table.det.inj hg
    rw [DetGraph.isComplete_iff]
    intro q hq c hc
    obtain ⟨s, hs⟩ := hn.exists_set (SortedSet.mem_ofList.mp hq)
    obtain ⟨p, r, he⟩ := DetGraph.mem_symbols.mp hc
    obtain ⟨hc, _⟩ := hn.target?_eq_some.mp (DetGraph.target?_eq_some.mpr he)
    obtain ⟨r, hr, _⟩ := hn.exists_target hs hc
    exact ⟨r, hr⟩

end Numbering

end Automaton

end Automata
