import Automata.Proofs.DiscoveryOrder
import Automata.Proofs.StateLimit
import Mathlib.Data.Char
import Mathlib.Data.List.Pairwise

/-!
# The numbering of a determinized automaton

The subsets are found in the order of the first words that lead to them, and are named by
ascending ordinals.
-/

namespace Automata

instance wellFoundedLTChar : WellFoundedLT Char :=
  ⟨Subrelation.wf (fun h => UInt32.lt_iff_toNat_lt.mp h) (InvImage.wf (fun c : Char => c.val.toNat) wellFounded_lt)⟩

section
variable {α β : Type} {R : α → α → Prop} {S : β → β → Prop}

theorem pairwise_zip : ∀ {l : List α} {m : List β}, l.Pairwise R → m.Pairwise S →
    (l.zip m).Pairwise fun x y => R x.1 y.1 ∧ S x.2 y.2
  | [], _, _, _ => .nil
  | _ :: _, [], _, _ => .nil
  | a :: l, b :: m, hl, hm => by
    rw [List.pairwise_cons] at hl hm
    rw [List.zip_cons_cons, List.pairwise_cons]
    refine ⟨fun x hx => ?_, pairwise_zip hl.2 hm.2⟩
    have hx := List.of_mem_zip (a := x.1) (b := x.2) hx
    exact ⟨hl.1 x.1 hx.1, hm.1 x.2 hx.2⟩

theorem rel_or_of_pairwise {l : List α} (h : l.Pairwise R) {x y : α} (hx : x ∈ l) (hy : y ∈ l) (hne : x ≠ y) :
    R x y ∨ R y x := by
  have hsymm : Std.Symm fun x y => R x y ∨ R y x := ⟨fun _ _ => Or.symm⟩
  have hor : l.Pairwise fun x y => R x y ∨ R y x := h.imp Or.inl
  exact hor.forall hx hy hne

end

namespace Automaton

variable {a d : Automaton} {p q r : State} {s : StateSet} {c : Char} {u v w : List Char} {m m' : Allocator}
variable {limit : Option Nat} {rounds : Nat}

def Reaches (a : Automaton) (w : List Char) (q : State) : Prop := ∃ p, a.initial = some p ∧ a.graph.Path p w q

/-- It is the first of the words that do: the shorter words go before the longer, and words of one length go
by code points. -/
structure IsFirstWord (a : Automaton) (w : List Char) (q : State) : Prop where
  reaches : a.Reaches w q
  least : ∀ v, a.Reaches v q → w = v ∨ List.Shortlex (· < ·) w v

/-! ## Words that lead to subsets -/

abbrev onChar (a : Automaton) (s : StateSet) (c : Char) : StateSet := a.graph.move s (.char c)

theorem ascending_symbols : a.symbols.toList.Pairwise (· < ·) :=
  a.symbols.ascending.imp compare_lt_iff_lt.mp

theorem subsets_inOrder : Search.InOrder a.onChar a.symbols.toList a.start (a.subsets rounds) :=
  Search.search_inOrder ascending_symbols

theorem path_nil_iff_of_det {g : DetGraph} (hg : a.table = .det g) : a.graph.Path p [] q ↔ p = q := by
  rw [graph_of_det hg]
  exact DetGraph.path_nil_iff

namespace IsSubsetAutomaton

variable {f : State → StateSet} {g : DetGraph} (h : IsSubsetAutomaton a d f) (hg : d.table = .det g)
include h hg

theorem path_iff : ∀ {w : List Char} {q : State}, q ∈ d.states →
    (d.graph.Path q w r ↔ (∀ c ∈ w, c ∈ a.symbols) ∧ r ∈ d.states ∧ a.graph.walk (f q) w = f r)
  | [], q, hq => by
    rw [path_nil_iff_of_det hg]
    constructor
    · intro e
      subst e
      exact ⟨nofun, hq, rfl⟩
    · intro hw
      exact h.bijective.injOn hq hw.2.1 hw.2.2
  | c :: w, q, hq => by
    rw [NondetGraph.walk_cons]
    constructor
    · intro hp
      obtain ⟨q', t, hq', he, hp⟩ := hp.uncons
      obtain rfl := (path_nil_iff_of_det hg).mp hq'
      obtain ⟨_, ht, b, hb, hx, hft⟩ := (h.edges _ _ _).mp he
      cases hx
      obtain ⟨hw, hr, hwalk⟩ := (path_iff ht).mp hp
      rw [hft] at hwalk
      exact ⟨List.forall_mem_cons.mpr ⟨hb, hw⟩, hr, hwalk⟩
    · intro hw
      obtain ⟨hw, hr, hwalk⟩ := hw
      obtain ⟨hc, hw⟩ := List.forall_mem_cons.mp hw
      obtain ⟨t, he⟩ := h.exists_target hq hc
      obtain ⟨_, ht, b, _, hx, hft⟩ := (h.edges _ _ _).mp he
      cases hx
      rw [← hft] at hwalk
      exact .char he ((path_iff ht).mpr ⟨hw, hr, hwalk⟩)

theorem reaches_iff :
    d.Reaches w q ↔ q ∈ d.states ∧ Search.Reads a.onChar a.symbols.toList a.start w (f q) := by
  obtain ⟨p, t, hp, ht, htd, hft⟩ := h.initial
  rw [← start_of_initial hp] at hft
  unfold Reaches Search.Reads
  rw [ht, ← hft]
  simp only [Option.some.injEq, exists_eq_left', h.path_iff hg htd]
  exact and_left_comm

theorem isFirstWord_iff (hq : q ∈ d.states) :
    d.IsFirstWord w q ↔ Search.FirstWord a.onChar a.symbols.toList a.start w (f q) := by
  constructor
  · intro hw
    exact ⟨((h.reaches_iff hg).mp hw.reaches).2, fun v hv => hw.least v ((h.reaches_iff hg).mpr ⟨hq, hv⟩)⟩
  · intro hw
    exact ⟨(h.reaches_iff hg).mpr ⟨hq, hw.reads⟩, fun v hv => hw.least v ((h.reaches_iff hg).mp hv).2⟩

end IsSubsetAutomaton

/-! ## The order of the names -/

theorem Numbering.ordinal_lt_iff {l : List StateSet} {names : List State} (hn : Numbering a l names)
    (hl : l.Pairwise (Search.Before a.onChar a.symbols.toList a.start))
    (hnames : names.Pairwise fun p q => p.ordinal < q.ordinal) (hp : p ∈ names) (hq : q ∈ names) :
    p.ordinal < q.ordinal ↔
      Search.Before a.onChar a.symbols.toList a.start (standsFor l names p) (standsFor l names q) := by
  have hp : (standsFor l names p, p) ∈ l.zip names := hn.mem_zip_iff.mpr ⟨hp, rfl⟩
  have hq : (standsFor l names q, q) ∈ l.zip names := hn.mem_zip_iff.mpr ⟨hq, rfl⟩
  by_cases hpq : p = q
  · subst hpq
    exact iff_of_false (UInt32.lt_irrefl _) Search.Before.irrefl
  rcases rel_or_of_pairwise (pairwise_zip hl hnames) hp hq fun e => hpq (congrArg Prod.snd e) with h | h
  · exact iff_of_true h.2 h.1
  · exact iff_of_false (UInt32.lt_asymm h.2) h.1.asymm

structure NumberedFrom (d : Automaton) (m : Allocator) : Prop where
  room : d.size ≤ m.room
  mem_states : ∀ q, q ∈ d.states ↔ q ∈ m.block d.size
  initial : d.initial = some ⟨m.counter⟩
  exists_firstWord : ∀ q ∈ d.states, ∃ w, d.IsFirstWord w q
  ordinal_lt_iff : ∀ p ∈ d.states, ∀ q ∈ d.states, ∀ u v, d.IsFirstWord u p → d.IsFirstWord v q →
    (p.ordinal < q.ordinal ↔ List.Shortlex (· < ·) u v)

theorem numberedFrom_determinized (h : a.determinize limit m = .ok d m') : d.NumberedFrom m := by
  obtain ⟨hv, rounds, hl, hm, rfl, _⟩ := determinize_eq_ok h
  obtain ⟨p₀, hp₀, _⟩ := hv.exists_initial
  have hn := numbering_subsets hl hm
  have hsub := hn.isSubsetAutomaton hp₀ fun s => mem_subsets hl
  have hord : Search.InOrder a.onChar a.symbols.toList a.start (a.subsets rounds) := subsets_inOrder
  have hsize := size_onSubsets hn
  refine ⟨?_, ?_, ?_, ?_, ?_⟩
  · rwa [hsize]
  · intro q
    rw [hsize, mem_states_onSubsets]
  · rw [initial_onSubsets]
    cases hlen : (a.subsets rounds).length with
    | zero =>
      rw [List.length_eq_zero_iff] at hlen
      exact absurd hord.start_mem (by simp [hlen])
    | succ n => rw [Allocator.block_succ]; rfl
  · intro q hq
    obtain ⟨w, hw⟩ := hord.reached _ ((mem_subsets hl).mpr (hsub.bijective.mapsTo hq))
    exact ⟨w, (hsub.isFirstWord_iff table_onSubsets hq).mpr hw⟩
  · intro p hp q hq u v hu hv
    rw [← ((hsub.isFirstWord_iff table_onSubsets hp).mp hu).before_iff ((hsub.isFirstWord_iff table_onSubsets hq).mp hv)]
    exact hn.ordinal_lt_iff hord.ordered (Allocator.ascending_block hm) (mem_states_onSubsets.mp hp)
      (mem_states_onSubsets.mp hq)

theorem determinize_numbers_by_first_words {a d : Automaton} {limit : Option Nat} {m m' : Allocator}
    (h : a.determinize limit m = .ok d m') :
    (∀ q, q ∈ d.states ↔
      m.counter.toNat ≤ q.ordinal.toNat ∧ q.ordinal.toNat < m.counter.toNat + d.size) ∧
      d.initial = some ⟨m.counter⟩ ∧
      (∀ q ∈ d.states, ∃ w, d.IsFirstWord w q) ∧
      ∀ p ∈ d.states, ∀ q ∈ d.states, ∀ u v, d.IsFirstWord u p → d.IsFirstWord v q →
        (p.ordinal < q.ordinal ↔ List.Shortlex (· < ·) u v) := by
  have hd := numberedFrom_determinized h
  refine ⟨fun q => ?_, hd.initial, hd.exists_firstWord, hd.ordinal_lt_iff⟩
  rw [hd.mem_states, Allocator.mem_block_iff hd.room, Allocator.Mints, Allocator.toNat_advance hd.room]

/-- The states 4 and 5 stand for where `x` and `y` lead to. -/
theorem determinize_numbers_by_first_words_xThenY :
    ∃ d m', xThenY.determinize (some 8) ⟨3⟩ = .ok d m' ∧ d.size = 4 ∧
      (∀ q, q ∈ d.states ↔
        (3 : UInt32).toNat ≤ q.ordinal.toNat ∧ q.ordinal.toNat < (3 : UInt32).toNat + d.size) ∧
      d.initial = some ⟨3⟩ ∧
      ∃ u v, d.IsFirstWord u ⟨4⟩ ∧ d.IsFirstWord v ⟨5⟩ ∧ List.Shortlex (· < ·) u v := by
  have h : ∃ d m', xThenY.determinize (some 8) ⟨3⟩ = .ok d m' ∧ d.size = 4 := ⟨_, _, rfl, rfl⟩
  obtain ⟨d, m', h, hs⟩ := h
  obtain ⟨hstates, hinit, hwords, hlt⟩ := determinize_numbers_by_first_words h
  have h₄ : ⟨4⟩ ∈ d.states := (hstates ⟨4⟩).mpr (by rw [hs]; decide)
  have h₅ : ⟨5⟩ ∈ d.states := (hstates ⟨5⟩).mpr (by rw [hs]; decide)
  obtain ⟨u, hu⟩ := hwords ⟨4⟩ h₄
  obtain ⟨v, hv⟩ := hwords ⟨5⟩ h₅
  exact ⟨d, m', h, hs, hstates, hinit, u, v, hu, hv, (hlt _ h₄ _ h₅ u v hu hv).mp (by decide)⟩

end Automaton

end Automata
