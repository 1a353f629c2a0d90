import Automata.Proofs.DeterministicOperand
import Automata.Proofs.NameIndependence
import Automata.Proofs.NondetView

/-!
# Determinizing what is deterministic

The result of a subset construction is a copy of a deterministic operand, in which the
reached states have new names and the others are gone (`isTrimmedCopy`).
-/

namespace Automata.Automaton

variable {d e : Automaton} {f : State → State} {g : DetGraph} {p q : State} {c : Char} {w : List Char}
variable {m m₀ : Allocator}

/-- The states of `e` are the reached states of `d` under the names that `f` gives them, and all else is as
it is between the reached states of `d`. -/
structure IsTrimmedCopy (d e : Automaton) (f : State → State) : Prop where
  deterministic : ∃ g, e.table = .det g
  bijective : Set.BijOn f d.reached {q | q ∈ e.states}
  initial : ∃ p, d.initial = some p ∧ e.initial = some (f p)
  targets : ∀ p ∈ d.reached, ∀ c ∈ d.symbols, ∃ q, ⟨p, .char c, q⟩ ∈ d.edges ∧ ⟨f p, .char c, f q⟩ ∈ e.edges
  edges : ∀ p' x q', ⟨p', x, q'⟩ ∈ e.edges ↔ ∃ p ∈ d.reached, ∃ q, ⟨p, x, q⟩ ∈ d.edges ∧ f p = p' ∧ f q = q'
  finals : ∀ p ∈ d.reached, f p ∈ e.finals ↔ p ∈ d.finals
  finals_declared : ∀ q ∈ e.finals, q ∈ e.states
  options : e.options = d.options

noncomputable def nameOf (e : Automaton) (φ : State → StateSet) (p : State) : State :=
  Function.invFunOn φ {q | q ∈ e.states} (.singleton p)

section
variable {φ : State → StateSet} (hg : d.table = .det g) (hv : d.Valid) (h : IsSubsetAutomaton d e φ)
include hg hv h

theorem bijOn_nameOf : Set.BijOn (e.nameOf φ) d.reached {q | q ∈ e.states} :=
  (h.bijective.symm h.bijective.invOn_invFunOn.symm).comp (bijOn_singleton hg hv)

theorem apply_nameOf (hp : p ∈ d.reached) : φ (e.nameOf φ p) = .singleton p :=
  h.bijective.invOn_invFunOn.2 ((bijOn_singleton hg hv).mapsTo hp)

theorem nameOf_eq_iff (hp : p ∈ d.reached) : e.nameOf φ p = q ↔ q ∈ e.states ∧ φ q = .singleton p := by
  have hs : e.nameOf φ p ∈ e.states := (bijOn_nameOf hg hv h).mapsTo hp
  constructor
  · intro hq
    subst hq
    exact ⟨hs, apply_nameOf hg hv h hp⟩
  · intro hq
    exact h.bijective.injOn hs hq.1 ((apply_nameOf hg hv h hp).trans hq.2.symm)

theorem edges_nameOf {p' q' : State} {x : Symbol} :
    ⟨p', x, q'⟩ ∈ e.edges ↔ ∃ p ∈ d.reached, ∃ q, ⟨p, x, q⟩ ∈ d.edges ∧ e.nameOf φ p = p' ∧ e.nameOf φ q = q' := by
  constructor
  · intro he
    obtain ⟨hp', hq', c, hc, rfl, hφ⟩ := (h.edges _ _ _).mp he
    obtain ⟨p, hp, rfl⟩ := (bijOn_nameOf hg hv h).surjOn hp'
    obtain ⟨q, hpq⟩ := hv.exists_target hg (hv.mem_states_of_reached hp) hc
    rw [apply_nameOf hg hv h hp, move_singleton hg hpq] at hφ
    have hq : q ∈ d.reached := mem_reached_of_path hp (.of_char hpq)
    exact ⟨p, hp, q, hpq, rfl, (nameOf_eq_iff hg hv h hq).mpr ⟨hq', hφ⟩⟩
  · intro hd
    obtain ⟨p, hp, q, hpq, rfl, rfl⟩ := hd
    obtain ⟨c, rfl⟩ : ∃ c, x = .char c := by
      rw [edges, hg] at hpq
      obtain ⟨c, hx, _⟩ := DetGraph.mem_edges_toNondet.mp hpq
      exact ⟨c, hx⟩
    have hq : q ∈ d.reached := mem_reached_of_path hp (.of_char hpq)
    refine (h.edges _ _ _).mpr ⟨(bijOn_nameOf hg hv h).mapsTo hp, (bijOn_nameOf hg hv h).mapsTo hq, c,
      mem_symbols.mpr ⟨p, q, hpq⟩, rfl, ?_⟩
    rw [apply_nameOf hg hv h hp, apply_nameOf hg hv h hq, move_singleton hg hpq]

theorem isTrimmedCopy (hd : ∃ g, e.table = .det g) (ho : e.options = d.options) : IsTrimmedCopy d e (e.nameOf φ) where
  deterministic := hd
  bijective := bijOn_nameOf hg hv h
  initial := by
    obtain ⟨p, q, hp, hq, hqs, hφ⟩ := h.initial
    rw [graph_of_det hg, DetGraph.closure_toNondet] at hφ
    refine ⟨p, hp, ?_⟩
    rw [hq, (nameOf_eq_iff hg hv h (initial_mem_reached hp)).mpr ⟨hqs, hφ⟩]
  targets p hp c hc := by
    obtain ⟨q, hpq⟩ := hv.exists_target hg (hv.mem_states_of_reached hp) hc
    exact ⟨q, hpq, (edges_nameOf hg hv h).mpr ⟨p, hp, q, hpq, rfl, rfl⟩⟩
  edges _ _ _ := edges_nameOf hg hv h
  finals p hp := by
    rw [h.mem_finals_iff, apply_nameOf hg hv h hp, accepting_singleton hg]
    exact and_iff_right ((bijOn_nameOf hg hv h).mapsTo hp)
  finals_declared q hq := (h.mem_finals_iff.mp hq).1
  options := ho

end

/-! ## A copy is told by its names -/

theorem mem_reached_of_edge (hp : p ∈ d.reached) : ∀ {x : Symbol}, ⟨p, x, q⟩ ∈ d.edges → q ∈ d.reached
  | .epsilon, he => mem_reached_of_path hp (.of_epsilon he)
  | .char _, he => mem_reached_of_path hp (.of_char he)

theorem ext {a b : Automaton} (ht : a.table = b.table) (hi : a.initial = b.initial) (hf : a.finals = b.finals)
    (ho : a.options = b.options) : a = b := by
  cases a
  cases b
  simp_all

theorem isTrimmedCopy_rename {r : State ↪ State} (hg : d.table = .det g) (hv : d.Valid)
    (hr : ∀ q ∈ d.states, q ∈ d.reached) : IsTrimmedCopy d (d.rename r) r where
  deterministic := ⟨g.rename r, by rw [rename, hg]; rfl⟩
  bijective := by
    refine ⟨fun q hq => ?_, r.injective.injOn, fun q' hq' => ?_⟩
    · show r q ∈ (d.rename r).states
      rw [states_rename, mem_map_rename]
      exact hv.mem_states_of_reached hq
    · have hq' : q' ∈ (d.rename r).states := hq'
      rw [states_rename, SortedSet.mem_map] at hq'
      obtain ⟨q, hq, rfl⟩ := hq'
      exact ⟨q, hr q hq, rfl⟩
  initial := by
    obtain ⟨p, hp, _⟩ := hv.exists_initial
    exact ⟨p, hp, by rw [rename, hp]; rfl⟩
  targets p hp c hc := by
    obtain ⟨q, hpq⟩ := hv.exists_target hg (hv.mem_states_of_reached hp) hc
    refine ⟨q, hpq, ?_⟩
    show _ ∈ (d.rename r).graph.edges
    rw [graph_rename]
    exact Graph.mem_edges_rename.mpr ⟨p, q, hpq, rfl, rfl⟩
  edges p' x q' := by
    show _ ∈ (d.rename r).graph.edges ↔ _
    rw [graph_rename, Graph.mem_edges_rename]
    constructor
    · intro he
      obtain ⟨p, q, he, hp, hq⟩ := he
      exact ⟨p, hr p (by rw [← states_graph]; exact (hv.closed _ he).1), q, he, hp, hq⟩
    · intro he
      obtain ⟨p, _, q, he, hp, hq⟩ := he
      exact ⟨p, q, he, hp, hq⟩
  finals _ _ := mem_map_rename
  finals_declared q' hq' := by
    obtain ⟨q, hq, rfl⟩ := SortedSet.mem_map.mp hq'
    rw [states_rename, mem_map_rename, ← states_graph]
    exact hv.final_declared hq
  options := rfl

namespace IsTrimmedCopy

variable (h : IsTrimmedCopy d e f)
include h

theorem mem_states_iff {q' : State} : q' ∈ e.states ↔ ∃ q ∈ d.reached, f q = q' := by
  constructor
  · intro hq
    exact h.bijective.surjOn hq
  · intro hq
    obtain ⟨q, hq, rfl⟩ := hq
    exact h.bijective.mapsTo hq

theorem mem_finals_iff {q' : State} : q' ∈ e.finals ↔ ∃ q ∈ d.reached, q ∈ d.finals ∧ f q = q' := by
  constructor
  · intro hq
    obtain ⟨q, hr, rfl⟩ := h.mem_states_iff.mp (h.finals_declared q' hq)
    exact ⟨q, hr, (h.finals q hr).mp hq, rfl⟩
  · intro hq
    obtain ⟨q, hr, hq, rfl⟩ := hq
    exact (h.finals q hr).mpr hq

theorem unique {e' : Automaton} {f' : State → State} (h' : IsTrimmedCopy d e' f') (hf : ∀ q ∈ d.reached, f q = f' q) :
    e = e' := by
  obtain ⟨g, hg⟩ := h.deterministic
  obtain ⟨g', hg'⟩ := h'.deterministic
  obtain ⟨p, hp, hi⟩ := h.initial
  obtain ⟨p', hp', hi'⟩ := h'.initial
  have hstates : ∀ q, q ∈ e.states ↔ q ∈ e'.states := by
    intro q'
    rw [h.mem_states_iff, h'.mem_states_iff]
    exact exists_congr fun q => and_congr_right fun hq => by rw [hf q hq]
  have hedges : ∀ p x q, ⟨p, x, q⟩ ∈ e.edges ↔ ⟨p, x, q⟩ ∈ e'.edges := by
    intro p' x q'
    rw [h.edges, h'.edges]
    refine exists_congr fun p => and_congr_right fun hp => exists_congr fun q => and_congr_right fun hpq => ?_
    rw [hf p hp, hf q (mem_reached_of_edge hp hpq)]
  refine ext ?_ ?_ (SortedSet.ext fun q' => ?_) (h.options.trans h'.options.symm)
  · rw [hg, hg']
    refine congrArg Table.det (DetGraph.ext (Graph.ext (fun q => ?_) fun x => ?_))
    · rw [← states_of_det hg, ← states_of_det hg']
      exact hstates q
    · rw [← mem_edges_of_det hg, ← mem_edges_of_det hg']
      exact hedges _ _ _
  · rw [hi, hi', ← Option.some.inj (hp.symm.trans hp'), hf p (initial_mem_reached hp)]
  · rw [h.mem_finals_iff, h'.mem_finals_iff]
    exact exists_congr fun q => and_congr_right fun hq => by rw [hf q hq]

end IsTrimmedCopy

/-! ## Copies of what is numbered by first words -/

namespace IsTrimmedCopy

variable (h : IsTrimmedCopy d e f)
include h

theorem path_iff {q' : State} (hp : p ∈ d.reached) :
    e.graph.Path (f p) w q' ↔ ∃ q, d.graph.Path p w q ∧ f q = q' := by
  constructor
  · intro hw
    generalize hp' : f p = p' at hw
    induction hw generalizing p with
    | nil => exact ⟨p, .nil p, hp'⟩
    | epsilon he _ ih =>
      obtain ⟨p₁, hp₁, q₁, he, hf, hq₁⟩ := (h.edges _ _ _).mp he
      obtain rfl := h.bijective.injOn hp₁ hp (hf.trans hp'.symm)
      obtain ⟨q, hw, hq⟩ := ih (mem_reached_of_path hp (.of_epsilon he)) hq₁
      exact ⟨q, .epsilon he hw, hq⟩
    | char he _ ih =>
      obtain ⟨p₁, hp₁, q₁, he, hf, hq₁⟩ := (h.edges _ _ _).mp he
      obtain rfl := h.bijective.injOn hp₁ hp (hf.trans hp'.symm)
      obtain ⟨q, hw, hq⟩ := ih (mem_reached_of_path hp (.of_char he)) hq₁
      exact ⟨q, .char he hw, hq⟩
  · intro hw
    obtain ⟨q, hw, rfl⟩ := hw
    induction hw with
    | nil => exact .nil _
    | epsilon he _ ih =>
      exact .epsilon ((h.edges _ _ _).mpr ⟨_, hp, _, he, rfl, rfl⟩) (ih (mem_reached_of_path hp (.of_epsilon he)))
    | char he _ ih =>
      exact .char ((h.edges _ _ _).mpr ⟨_, hp, _, he, rfl, rfl⟩) (ih (mem_reached_of_path hp (.of_char he)))

theorem reaches_iff (hq : q ∈ d.reached) : e.Reaches w (f q) ↔ d.Reaches w q := by
  obtain ⟨p, hp, hfp⟩ := h.initial
  unfold Reaches
  rw [hp, hfp]
  simp only [Option.some.injEq, exists_eq_left']
  rw [h.path_iff (initial_mem_reached hp)]
  constructor
  · intro hw
    obtain ⟨r, hw, hr⟩ := hw
    rwa [← h.bijective.injOn (mem_reached_of_path (initial_mem_reached hp) hw) hq hr]
  · intro hw
    exact ⟨q, hw, rfl⟩

theorem isFirstWord_iff (hq : q ∈ d.reached) : e.IsFirstWord w (f q) ↔ d.IsFirstWord w q := by
  constructor
  · intro hw
    exact ⟨(h.reaches_iff hq).mp hw.reaches, fun v hv => hw.least v ((h.reaches_iff hq).mpr hv)⟩
  · intro hw
    exact ⟨(h.reaches_iff hq).mpr hw.reaches, fun v hv => hw.least v ((h.reaches_iff hq).mp hv)⟩

section
variable (hd : d.NumberedFrom m₀) (he : e.NumberedFrom m)
include hd he

theorem ordinal_lt_iff (hp : p ∈ d.states) (hq : q ∈ d.states) :
    (f p).ordinal < (f q).ordinal ↔ p.ordinal < q.ordinal := by
  obtain ⟨u, hu⟩ := hd.exists_firstWord p hp
  obtain ⟨v, hv⟩ := hd.exists_firstWord q hq
  have hpr : p ∈ d.reached := ⟨u, hu.reaches⟩
  have hqr : q ∈ d.reached := ⟨v, hv.reaches⟩
  rw [hd.ordinal_lt_iff p hp q hq u v hu hv]
  exact he.ordinal_lt_iff _ (h.bijective.mapsTo hpr) _ (h.bijective.mapsTo hqr) u v ((h.isFirstWord_iff hpr).mpr hu)
    ((h.isFirstWord_iff hqr).mpr hv)

variable (hv : d.Valid)
include hv

theorem map_block : (m₀.block d.size).map f = m.block e.size := by
  refine SortedSet.ascending_ext ?_ ?_ fun q' => ?_
  · rw [List.pairwise_map]
    refine List.Pairwise.imp_of_mem ?_ (Allocator.ascending_block hd.room)
    intro p q hp hq hlt
    rw [← hd.mem_states] at hp hq
    exact State.compare_eq_lt.mpr ((h.ordinal_lt_iff hd he hp hq).mpr hlt)
  · exact (Allocator.ascending_block he.room).imp State.compare_eq_lt.mpr
  · rw [List.mem_map, ← he.mem_states]
    constructor
    · intro hq
      obtain ⟨q, hq, rfl⟩ := hq
      exact h.bijective.mapsTo (hd.mem_reached ((hd.mem_states q).mpr hq))
    · intro hq
      obtain ⟨q, hr, rfl⟩ := h.bijective.surjOn hq
      exact ⟨q, (hd.mem_states q).mp (hv.mem_states_of_reached hr), rfl⟩

theorem size_eq : d.size = e.size := by
  simpa using congrArg List.length (h.map_block hd he hv)

theorem apply_eq_shift (hq : q ∈ d.states) : f q = State.shift (m.counter - m₀.counter) q := by
  have hmap := h.map_block hd he hv
  have hshift : m.block d.size = (m₀.block d.size).map (State.shift (m.counter - m₀.counter)) := Allocator.block_shift
  rw [← h.size_eq hd he hv, hshift] at hmap
  exact List.map_inj_left.mp hmap q ((hd.mem_states q).mp hq)

/-- A copy that is numbered by first words, as the operand is, is the operand with all ordinals shifted. -/
theorem eq_rename (hg : d.table = .det g) : e = d.rename (State.shift (m.counter - m₀.counter)) :=
  h.unique (isTrimmedCopy_rename hg hv fun _ hq => hd.mem_reached hq)
    fun _ hq => h.apply_eq_shift hd he hv (hv.mem_states_of_reached hq)

end

end IsTrimmedCopy

/-- The determinization of a deterministic automaton gives it back with the reached states renamed and the others gone;
what comes of a determinization itself has its ordinals shifted. -/
theorem determinize_det_trims_and_relabels {d : Automaton} {g : DetGraph} {limit : Option Nat} {m : Allocator}
    (hg : d.table = .det g) (hv : d.validate = .ok ())
    (hlim : ∀ n, (limit <|> d.options.maxSubsets) = some n → d.reached.ncard ≤ n) :
    (m.room < d.reached.ncard → d.determinize limit m = .error .exhausted (m.advance m.room)) ∧
      (d.reached.ncard ≤ m.room → ∃ e, d.determinize limit m = .ok e (m.advance d.reached.ncard) ∧
        (∃ f, IsTrimmedCopy d e f) ∧
        ∀ (a : Automaton) (limit₀ : Option Nat) (m₀ m₁ : Allocator), a.determinize limit₀ m₀ = .ok d m₁ →
          e = d.rename (State.shift (m.counter - m₀.counter)) ∧
            ∀ q ∈ d.states, (State.shift (m.counter - m₀.counter) q).ordinal.toNat + m₀.counter.toNat =
              q.ordinal.toNat + m.counter.toNat) := by
  have h := validate_eq_ok.mp hv
  rw [← ncard_frontiers_of_det hg h] at hlim ⊢
  refine ⟨fun hm => determinize_of_exhausted h (by rwa [demand_of_le hlim]), fun hm => ?_⟩
  have hok := determinize_of_le h hlim hm
  obtain ⟨p, hp, _⟩ := h.exists_initial
  have hnum := numbering_allSubsets hm
  have hsub := hnum.isSubsetAutomaton hp fun s => mem_subsets (Nat.le_of_eq length_allSubsets)
  have hcopy := isTrimmedCopy hg h hsub ⟨_, table_onSubsets⟩ rfl
  refine ⟨_, hok, ⟨_, hcopy⟩, fun a limit₀ m₀ m₁ ha => ?_⟩
  have hd := numberedFrom_determinized ha
  have he := numberedFrom_determinized hok
  refine ⟨hcopy.eq_rename hd he h hg, fun q hq => ?_⟩
  have hsize : d.size ≤ m.room := by
    rw [hcopy.size_eq hd he h]
    exact he.room
  exact Allocator.toNat_shift hd.room hsize ((hd.mem_states q).mp hq)

/-- The operand has come of `xThenY`, with the states 3 to 6; the result has the states 100 to 103. -/
theorem determinize_det_trims_and_relabels_xThenY :
    ∃ d m₁, xThenY.determinize (some 8) ⟨3⟩ = .ok d m₁ ∧ (∃ g, d.table = .det g) ∧ d.validate = .ok () ∧
      d.reached.ncard = 4 ∧
      d.determinize (some 4) ⟨4294967293⟩ = .error .exhausted ((Allocator.mk 4294967293).advance 2) ∧
      ∃ e, d.determinize (some 4) ⟨100⟩ = .ok e ((Allocator.mk 100).advance d.reached.ncard) ∧
        (∃ f, IsTrimmedCopy d e f) ∧
        e = d.rename (State.shift (100 - 3)) ∧
          ∀ q ∈ d.states, (State.shift (100 - 3) q).ordinal.toNat + (3 : UInt32).toNat =
            q.ordinal.toNat + (100 : UInt32).toNat := by
  have h : ∃ d m₁, xThenY.determinize (some 8) ⟨3⟩ = .ok d m₁ ∧ (∃ g, d.table = .det g) ∧ d.validate = .ok () ∧
      d.size = 4 := ⟨_, _, rfl, ⟨_, rfl⟩, rfl, rfl⟩
  obtain ⟨d, m₁, h, ⟨g, hg⟩, hv, hsize⟩ := h
  have hN : d.reached.ncard = 4 := by
    rw [(numberedFrom_determinized h).ncard_reached (validate_eq_ok.mp hv), hsize]
  have hlim : ∀ n, (some 4 <|> d.options.maxSubsets) = some n → d.reached.ncard ≤ n := by
    intro n hn
    rw [hN, ← Option.some.inj hn]
  have hfull : (Allocator.mk 4294967293).room < d.reached.ncard := by
    rw [hN]
    decide
  have hroom : d.reached.ncard ≤ (Allocator.mk 100).room := by
    rw [hN]
    decide
  obtain ⟨e, he, hf, hshift⟩ := (determinize_det_trims_and_relabels hg hv hlim).2 hroom
  exact ⟨d, m₁, h, ⟨g, hg⟩, hv, hN, (determinize_det_trims_and_relabels hg hv hlim).1 hfull, e, he, hf,
    hshift xThenY (some 8) ⟨3⟩ m₁ h⟩

/-- One state is left to be minted, and there are two to be named. -/
theorem determinize_oddXs_exhausted :
    (∃ g, oddXs.table = .det g) ∧ oddXs.validate = .ok () ∧ (none <|> oddXs.options.maxSubsets) = none ∧
      ∀ e m', oddXs.determinize none ⟨4294967294⟩ ≠ .ok e m' := by
  have h : oddXs.determinize none ⟨4294967294⟩ = .error .exhausted ⟨4294967295⟩ := rfl
  refine ⟨⟨_, rfl⟩, rfl, rfl, fun e m' he => ?_⟩
  rw [h] at he
  cases he

end Automata.Automaton
