import Automata.Proofs.Determinization
import Mathlib.Data.Set.Function

/-!
# The subset automaton

A word leads from the closure of the initial state to a set of states, its frontier. The
subset automaton has one state for each frontier.
-/

namespace Automata.Automaton

variable {a d : Automaton} {p q r : State} {s : StateSet} {c : Char} {w : List Char} {rounds : Nat}

/-- Where the word leads to from the closure of the initial state; the last move is not closed again. -/
def frontier (a : Automaton) (w : List Char) : StateSet := a.graph.walk a.start w

theorem frontier_nil (hp : a.initial = some p) : a.frontier [] = a.graph.closure (.singleton p) :=
  start_of_initial hp

theorem frontier_concat : a.frontier (w ++ [c]) = a.graph.move (a.frontier w) (.char c) :=
  NondetGraph.walk_append

def frontiers (a : Automaton) : Set StateSet := {s | ∃ w, (∀ c ∈ w, c ∈ a.symbols) ∧ a.frontier w = s}

theorem start_mem_frontiers : a.start ∈ a.frontiers := ⟨[], nofun, rfl⟩

theorem move_mem_frontiers (hs : s ∈ a.frontiers) (hc : c ∈ a.symbols) : a.graph.move s (.char c) ∈ a.frontiers := by
  obtain ⟨w, hw, rfl⟩ := hs
  refine ⟨w ++ [c], fun b hb => ?_, frontier_concat⟩
  rcases List.mem_append.mp hb with hb | hb
  · exact hw b hb
  · rw [List.mem_singleton.mp hb]
    exact hc

theorem reachable_walk {starts : List StateSet} : ∀ {w : List Char} {s : StateSet},
    Search.Reachable a.images starts s → (∀ c ∈ w, c ∈ a.symbols) →
    Search.Reachable a.images starts (a.graph.walk s w)
  | [], _, hs, _ => hs
  | c :: w, s, hs, hw => by
    obtain ⟨hc, hw⟩ := List.forall_mem_cons.mp hw
    rw [NondetGraph.walk_cons]
    exact reachable_walk (hs.step (mem_images.mpr ⟨c, hc, rfl⟩)) hw

theorem reachable_iff_mem_frontiers : Search.Reachable a.images [a.start] s ↔ s ∈ a.frontiers := by
  constructor
  · intro h
    induction h with
    | start h =>
      rw [List.mem_singleton.mp h]
      exact start_mem_frontiers
    | step _ ht ih =>
      obtain ⟨c, hc, rfl⟩ := mem_images.mp ht
      exact move_mem_frontiers ih hc
  · intro h
    obtain ⟨w, hw, rfl⟩ := h
    exact reachable_walk (.start (List.mem_singleton.mpr rfl)) hw

theorem mem_subsets (h : (a.subsets rounds).length ≤ rounds) : s ∈ a.subsets rounds ↔ s ∈ a.frontiers :=
  (Search.mem_search h).trans reachable_iff_mem_frontiers

/-! ## What makes a subset automaton -/

/-- The states of `d` stand for the frontiers of `a`, as `f` tells. -/
structure IsSubsetAutomaton (a d : Automaton) (f : State → StateSet) : Prop where
  bijective : Set.BijOn f {q | q ∈ d.states} a.frontiers
  initial : ∃ p q, a.initial = some p ∧ d.initial = some q ∧ q ∈ d.states ∧ f q = a.graph.closure (.singleton p)
  edges : ∀ q x r, ⟨q, x, r⟩ ∈ d.edges ↔
    q ∈ d.states ∧ r ∈ d.states ∧ ∃ c ∈ a.symbols, x = .char c ∧ f r = a.graph.move (f q) (.char c)
  finals_follow : a.options.trailing = .follow →
    ∀ q, q ∈ d.finals ↔ q ∈ d.states ∧ ∃ r ∈ a.graph.closure (f q), r ∈ a.finals
  finals_ignore : a.options.trailing = .ignore → ∀ q, q ∈ d.finals ↔ q ∈ d.states ∧ ∃ r ∈ f q, r ∈ a.finals

namespace IsSubsetAutomaton

variable {f : State → StateSet} {g : DetGraph} (h : IsSubsetAutomaton a d f)
include h

theorem exists_target (hq : q ∈ d.states) (hc : c ∈ a.symbols) : ∃ r, ⟨q, .char c, r⟩ ∈ d.edges := by
  have hm : a.graph.move (f q) (.char c) ∈ a.frontiers := move_mem_frontiers (h.bijective.mapsTo hq) hc
  obtain ⟨r, hr, hfr⟩ := h.bijective.surjOn hm
  exact ⟨r, (h.edges q _ r).mpr ⟨hq, hr, c, hc, rfl, hfr⟩⟩

theorem existsUnique_target (hq : q ∈ d.states) (hc : c ∈ a.symbols) : ∃! r, ⟨q, .char c, r⟩ ∈ d.edges := by
  obtain ⟨r, hr⟩ := h.exists_target hq hc
  refine ⟨r, hr, fun r' hr' => ?_⟩
  obtain ⟨_, hrs, b, _, hb, hf⟩ := (h.edges _ _ _).mp hr
  obtain ⟨_, hrs', b', _, hb', hf'⟩ := (h.edges _ _ _).mp hr'
  cases hb
  cases hb'
  exact h.bijective.injOn hrs' hrs (hf'.trans hf.symm)

theorem mem_finals_iff : q ∈ d.finals ↔ q ∈ d.states ∧ a.accepting (f q) := by
  unfold accepting
  cases ht : a.options.trailing with
  | follow => simp only [SortedSet.meets_iff, h.finals_follow ht q]
  | ignore => simp only [SortedSet.meets_iff, h.finals_ignore ht q]

theorem symbols_eq : d.symbols = a.symbols := by
  apply SortedSet.ext
  intro c
  rw [mem_symbols (a := d)]
  constructor
  · intro hc
    obtain ⟨p, q, he⟩ := hc
    obtain ⟨_, _, b, hb, hx, _⟩ := (h.edges _ _ _).mp he
    cases hx
    exact hb
  · intro hc
    obtain ⟨_, q, _, _, hq, _⟩ := h.initial
    obtain ⟨r, hr⟩ := h.exists_target hq hc
    exact ⟨q, r, hr⟩

variable (hg : d.table = .det g)
include hg

theorem isComplete : g.isComplete := by
  rw [DetGraph.isComplete_iff, ← states_of_det hg, ← symbols_of_det hg, h.symbols_eq]
  intro q hq c hc
  obtain ⟨r, hr⟩ := h.exists_target hq hc
  exact ⟨r, DetGraph.target?_eq_some.mpr ((mem_edges_of_det hg).mp hr)⟩

theorem size_table : d.table.size = d.size * a.symbols.size := by
  have hsource : ∀ e ∈ g.edges, e.source ∈ g.states := by
    intro e he
    rw [← states_of_det hg]
    exact ((h.edges _ _ _).mp ((mem_edges_of_det hg).mpr he)).1
  rw [← h.symbols_eq, symbols_of_det hg, hg]
  unfold size
  rw [states_of_det hg]
  exact (DetGraph.isComplete_iff_size hsource).mp (h.isComplete hg)

end IsSubsetAutomaton

/-! ## The result of the construction -/

variable {l : List StateSet} {names : List State}

def standsFor (l : List StateSet) (names : List State) (q : State) : StateSet := ((names.zip l).lookup q).getD ∅

theorem states_onSubsets : (a.onSubsets l names).states = .ofList names := rfl

theorem mem_states_onSubsets : q ∈ (a.onSubsets l names).states ↔ q ∈ names := by
  rw [states_onSubsets, SortedSet.mem_ofList]

namespace Numbering

variable (hn : Numbering a l names)
include hn

theorem mem_zip_iff : (s, q) ∈ l.zip names ↔ q ∈ names ∧ standsFor l names q = s := by
  have hs : ∀ {s}, (s, q) ∈ l.zip names → standsFor l names q = s := by
    intro s hs
    unfold standsFor
    rw [(lookup_zip_eq_some hn.nodup_names).mpr (mem_zip_comm.mpr hs), Option.getD_some]
  constructor
  · intro h
    exact ⟨(List.of_mem_zip h).2, hs h⟩
  · intro h
    obtain ⟨hq, hf⟩ := h
    obtain ⟨t, ht⟩ := hn.exists_set hq
    rwa [← hf, hs ht]

theorem bijOn_standsFor : Set.BijOn (standsFor l names) {q | q ∈ names} {s | s ∈ l} := by
  refine ⟨?_, ?_, ?_⟩
  · intro q hq
    exact (List.of_mem_zip (hn.mem_zip_iff.mpr ⟨hq, rfl⟩)).1
  · intro q hq r hr h
    exact hn.state_unique (hn.mem_zip_iff.mpr ⟨hq, h⟩) (hn.mem_zip_iff.mpr ⟨hr, rfl⟩)
  · intro s hs
    obtain ⟨q, hq⟩ := hn.exists_state hs
    exact ⟨q, hn.mem_zip_iff.mp hq⟩

theorem mem_edges_onSubsets {x : Symbol} : ⟨q, x, r⟩ ∈ (a.onSubsets l names).edges ↔
    q ∈ names ∧ r ∈ names ∧ ∃ c ∈ a.symbols, x = .char c ∧
      standsFor l names r = a.graph.move (standsFor l names q) (.char c) := by
  have he : (a.onSubsets l names).edges = (a.subsetGraph l names).toNondet.edges := rfl
  rw [he, DetGraph.mem_edges_toNondet]
  simp only [← DetGraph.target?_eq_some, hn.target?_eq_some, hn.mem_zip_iff]
  constructor
  · intro h
    obtain ⟨c, hx, hc, s, ⟨hq, rfl⟩, hr, hf⟩ := h
    exact ⟨hq, hr, c, hc, hx, hf⟩
  · intro h
    obtain ⟨hq, hr, c, hc, hx, hf⟩ := h
    exact ⟨c, hx, hc, _, ⟨hq, rfl⟩, hr, hf⟩

theorem mem_finals_iff : q ∈ (a.onSubsets l names).finals ↔ q ∈ names ∧ a.accepting (standsFor l names q) := by
  rw [mem_finals_onSubsets]
  simp only [hn.mem_zip_iff]
  constructor
  · intro h
    obtain ⟨s, ⟨hq, rfl⟩, hs⟩ := h
    exact ⟨hq, hs⟩
  · intro h
    exact ⟨_, ⟨h.1, rfl⟩, h.2⟩

theorem isSubsetAutomaton (hp : a.initial = some p) (hl : ∀ s, s ∈ l ↔ s ∈ a.frontiers) :
    IsSubsetAutomaton a (a.onSubsets l names) (standsFor l names) where
  bijective := by
    have hq : {q | q ∈ (a.onSubsets l names).states} = {q | q ∈ names} := Set.ext fun _ => mem_states_onSubsets
    have hs : a.frontiers = {s | s ∈ l} := Set.ext fun s => (hl s).symm
    rw [hq, hs]
    exact hn.bijOn_standsFor
  initial := by
    obtain ⟨q, hq, hs⟩ := hn.exists_initial
    obtain ⟨hmem, hf⟩ := hn.mem_zip_iff.mp hs
    exact ⟨p, q, hp, hq, mem_states_onSubsets.mpr hmem, hf.trans (frontier_nil hp)⟩
  edges q x r := by
    rw [mem_states_onSubsets, mem_states_onSubsets]
    exact hn.mem_edges_onSubsets
  finals_follow ht q := by
    rw [hn.mem_finals_iff, mem_states_onSubsets]
    unfold accepting
    rw [ht]
    exact and_congr_right fun _ => SortedSet.meets_iff
  finals_ignore ht q := by
    rw [hn.mem_finals_iff, mem_states_onSubsets]
    unfold accepting
    rw [ht]
    exact and_congr_right fun _ => SortedSet.meets_iff

end Numbering

theorem exists_isSubsetAutomaton {limit : Option Nat} {m m' : Allocator} (h : a.determinize limit m = .ok d m') :
    ∃ f g, IsSubsetAutomaton a d f ∧ d.table = .det g := by
  obtain ⟨hv, rounds, hl, hm, rfl, _⟩ := determinize_eq_ok h
  obtain ⟨p, hp, _⟩ := hv.exists_initial
  exact ⟨_, _, (numbering_subsets hl hm).isSubsetAutomaton hp fun s => mem_subsets hl, table_onSubsets⟩

theorem determinize_isSubsetAutomaton {a d : Automaton} {limit : Option Nat} {m m' : Allocator}
    (h : a.determinize limit m = .ok d m') :
    (∃ f, IsSubsetAutomaton a d f) ∧
      (∀ q ∈ d.states, ∀ c ∈ a.symbols, ∃! r, ⟨q, .char c, r⟩ ∈ d.edges) ∧
      d.symbols = a.symbols ∧ (∃ g, d.table = .det g ∧ g.isComplete) ∧
      d.table.size = d.size * a.symbols.size := by
  obtain ⟨f, g, hf, hg⟩ := exists_isSubsetAutomaton h
  refine ⟨⟨f, hf⟩, ?_, hf.symbols_eq, ⟨g, hg, hf.isComplete hg⟩, hf.size_table hg⟩
  intro q hq c hc
  exact hf.existsUnique_target hq hc

/-- Reads `x` and then `y`; all other words over these lead to the empty set. -/
def xThenY : Automaton :=
  ofTable (.nondet ⟨.ofList [⟨0⟩, ⟨1⟩, ⟨2⟩], .ofList [⟨⟨0⟩, .char 'x', ⟨1⟩⟩, ⟨⟨1⟩, .char 'y', ⟨2⟩⟩]⟩) (some ⟨0⟩)
    (.singleton ⟨2⟩)

theorem determinize_isSubsetAutomaton_xThenY :
    ∃ d m', xThenY.determinize (some 8) ⟨3⟩ = .ok d m' ∧ d.states = .ofList [⟨3⟩, ⟨4⟩, ⟨5⟩, ⟨6⟩] ∧
      (∃ f, IsSubsetAutomaton xThenY d f) ∧
      (∀ q ∈ d.states, ∀ c ∈ xThenY.symbols, ∃! r, ⟨q, .char c, r⟩ ∈ d.edges) ∧
      d.symbols = xThenY.symbols ∧ (∃ g, d.table = .det g ∧ g.isComplete) ∧
      d.table.size = d.size * xThenY.symbols.size := by
  have h : ∃ d m', xThenY.determinize (some 8) ⟨3⟩ = .ok d m' ∧ d.states = .ofList [⟨3⟩, ⟨4⟩, ⟨5⟩, ⟨6⟩] :=
    ⟨_, _, rfl, rfl⟩
  obtain ⟨d, m', h, hs⟩ := h
  exact ⟨d, m', h, hs, determinize_isSubsetAutomaton h⟩

end Automata.Automaton
