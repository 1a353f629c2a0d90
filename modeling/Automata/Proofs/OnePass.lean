import Automata.Proofs.Worklist

/-!
# One pass or two

Between two turns of its loop the construction holds what a breadth-first search would
have found and numbered (`BetweenTurns`), so both have the same outcome.
-/

namespace Automata

namespace Construction

variable {k k' k'' : Construction} {s : StateSet} {q : State} {m : Allocator}

def Follows (k : Construction) (p : State) (c : Char) : Prop := ∃ r, ⟨p, c, r⟩ ∈ k.table.edges

/-- What is named stays so, what has a target keeps one, and nothing leaves the queue. -/
structure Grows (k k' : Construction) : Prop where
  named : ∀ p ∈ k.named, p ∈ k'.named
  follows : ∀ p c, k.Follows p c → k'.Follows p c
  dequeued : k'.dequeued = k.dequeued

theorem Grows.refl : k.Grows k := ⟨fun _ => id, fun _ _ => id, rfl⟩

theorem Grows.trans (h : k.Grows k') (h' : k'.Grows k'') : k.Grows k'' :=
  ⟨fun p hp => h'.named p (h.named p hp), fun p c hp => h'.follows p c (h.follows p c hp),
    h'.dequeued.trans h.dequeued⟩

theorem grows_assign {accepting : Bool} : k.Grows (k.assign s q accepting m) :=
  ⟨fun _ hp => List.mem_append.mpr (.inl hp), fun _ _ => id, rfl⟩

end Construction

namespace Automaton

variable {a : Automaton} {limit : Option Nat} {m : Allocator} {k : Construction} {s : StateSet} {q r : State}
variable {c : Char} {queue : List (StateSet × State)}

/-- What is true at any time. -/
structure Progress (a : Automaton) (limit : Option Nat) (m : Allocator) (k : Construction) : Prop where
  enqueued : k.enqueued = k.named
  queued : k.dequeued ++ k.queue = k.named
  names : k.names = m.block k.named.length
  alloc : k.alloc = m.advance k.named.length
  room : k.named.length ≤ m.room
  limit : ∀ n, limit = some n → k.named.length ≤ n
  nodup : k.sets.Nodup
  frontier : ∀ s ∈ k.sets, s ∈ a.frontiers
  states : ∀ q, q ∈ k.table.states ↔ q ∈ k.names
  finals : ∀ q, q ∈ k.finals ↔ ∃ s, (s, q) ∈ k.named ∧ a.accepting s
  edges : ∀ p c r, ⟨p, c, r⟩ ∈ k.table.edges →
    c ∈ a.symbols ∧ ∃ s, (s, p) ∈ k.dequeued ∧ (a.graph.move s (.char c), r) ∈ k.named

/-- Why no state after the first `n` is given: that is the limit, or it is all the room there is. -/
inductive Stops (limit : Option Nat) (m : Allocator) (n : Nat) : Fault → Prop
  | limit : limit = some n → Stops limit m n (.refused (.tooManyStates n))
  | room : n = m.room → (∀ n', limit = some n' → n < n') → Stops limit m n .exhausted

structure Stopped (a : Automaton) (limit : Option Nat) (m : Allocator) (e : Fault) (k : Construction) : Prop where
  progress : a.Progress limit m k
  fewer : k.named.length < a.frontiers.ncard
  stops : Stops limit m k.named.length e

namespace Progress

theorem empty : a.Progress limit m (.empty m) where
  enqueued := rfl
  queued := rfl
  names := rfl
  alloc := Allocator.advance_zero.symm
  room := Nat.zero_le _
  limit _ _ := Nat.zero_le _
  nodup := List.nodup_nil
  frontier := nofun
  states _ := Iff.rfl
  finals _ := ⟨nofun, nofun⟩
  edges := nofun

section
variable (h : a.Progress limit m k)
include h

theorem mem_named_of_dequeued (hs : (s, q) ∈ k.dequeued) : (s, q) ∈ k.named := by
  rw [← h.queued]
  exact List.mem_append.mpr (.inl hs)

theorem mem_states (hs : (s, q) ∈ k.named) : q ∈ k.table.states := (h.states q).mpr (List.mem_map_of_mem hs)

theorem length_lt (hs : s ∈ a.frontiers) (hn : s ∉ k.sets) : k.named.length < a.frontiers.ncard := by
  have hle : (s :: k.sets).length ≤ a.frontiers.ncard :=
    length_le_ncard_frontiers (List.nodup_cons.mpr ⟨hn, h.nodup⟩) (List.forall_mem_cons.mpr ⟨hs, h.frontier⟩)
  rwa [List.length_cons, Construction.length_sets] at hle

theorem mint_eq_ok {m' : Allocator} (hm : Allocator.mint k.alloc = .ok q m') :
    k.named.length + 1 ≤ m.room ∧ m.block (k.named.length + 1) = m.block k.named.length ++ [q] ∧
      m' = m.advance (k.named.length + 1) := by
  obtain ⟨hroom, rfl, rfl⟩ := Allocator.mint_eq_ok.mp hm
  rw [h.alloc, Allocator.room_advance h.room] at hroom
  rw [h.alloc, Allocator.block_concat, Allocator.advance_concat]
  exact ⟨by omega, rfl, rfl⟩

theorem mint_eq_error {e : Fault} {m' : Allocator} (hm : Allocator.mint k.alloc = .error e m') :
    k.named.length = m.room ∧ e = .exhausted ∧ m' = k.alloc := by
  obtain ⟨hroom, he, hm'⟩ := Allocator.mint_eq_error.mp hm
  rw [h.alloc, Allocator.room_advance h.room] at hroom
  have hle := h.room
  exact ⟨by omega, he, hm'⟩

/-! ## Steps -/

theorem assign {m' : Allocator} (hs : s ∈ a.frontiers) (hn : s ∉ k.sets)
    (hlim : ∀ n, limit = some n → k.named.length < n) (hm : Allocator.mint k.alloc = .ok q m') :
    a.Progress limit m (k.assign s q (a.accepting s) m') := by
  obtain ⟨hroom, hblock, rfl⟩ := h.mint_eq_ok hm
  exact {
    enqueued := congrArg (· ++ [(s, q)]) h.enqueued
    queued := (List.append_assoc ..).symm.trans (congrArg (· ++ [(s, q)]) h.queued)
    names := by rw [Construction.length_named_assign, hblock, Construction.names_assign, h.names]
    alloc := by rw [Construction.length_named_assign]; rfl
    room := by rwa [Construction.length_named_assign]
    limit := by rwa [Construction.length_named_assign]
    nodup := by
      rw [Construction.sets_assign, ← List.concat_eq_append]
      exact h.nodup.concat hn
    frontier := by
      intro t ht
      rw [Construction.sets_assign, List.mem_append, List.mem_singleton] at ht
      rcases ht with ht | rfl
      · exact h.frontier t ht
      · exact hs
    states := by
      intro p
      rw [Construction.names_assign, List.mem_append, List.mem_singleton, or_comm, ← h.states p]
      exact SortedSet.mem_insert
    finals := by
      intro p
      rw [Construction.mem_finals_assign, h.finals p]
      simp only [Construction.assign, List.mem_append, List.mem_singleton, Prod.mk.injEq]
      grind
    edges := by
      intro p c r he
      obtain ⟨hc, t, ht, hr⟩ := h.edges p c r he
      exact ⟨hc, t, ht, Construction.grows_assign.named _ hr⟩ }

theorem stateOf (hs : s ∈ a.frontiers) :
    Meets (a.stateOf limit s) k
      (fun q k' => a.Progress limit m k' ∧ k.Grows k' ∧ k'.sets = Search.extend k.sets [s] ∧ (s, q) ∈ k'.named)
      (a.Stopped limit m) := by
  unfold Meets Automaton.stateOf
  cases hl : k.named.lookup s with
  | some q =>
    have hq : (s, q) ∈ k.named := Construction.mem_of_lookup hl
    have hmem : s ∈ k.sets := List.mem_map_of_mem hq
    exact ⟨h, .refl, by simp [Search.extend, hmem], hq⟩
  | none =>
    have hn : s ∉ k.sets := Construction.lookup_eq_none.mp hl
    have hlt : k.named.length < a.frontiers.ncard := h.length_lt hs hn
    cases hf : limit.filter (· ≤ k.named.length) with
    | some n =>
      obtain ⟨hlim, hle⟩ := Option.filter_eq_some_iff.mp hf
      obtain rfl : k.named.length = n := Nat.le_antisymm (h.limit n hlim) (of_decide_eq_true hle)
      exact ⟨h, hlt, .limit hlim⟩
    | none =>
      have hlim : ∀ n, limit = some n → k.named.length < n := fun n hn => by
        simpa using Option.filter_eq_none_iff.mp hf n hn
      cases hm : Allocator.mint k.alloc with
      | ok q m' =>
        refine ⟨h.assign hs hn hlim hm, Construction.grows_assign, by simp [Search.extend, hn], ?_⟩
        exact List.mem_append.mpr (.inr (List.mem_singleton.mpr rfl))
      | error e m' =>
        obtain ⟨hroom, rfl, rfl⟩ := h.mint_eq_error hm
        exact ⟨h, hlt, .room hroom hlim⟩

theorem record (hc : c ∈ a.symbols) (hs : (s, q) ∈ k.dequeued) (hr : (a.graph.move s (.char c), r) ∈ k.named) :
    Meets (Automaton.record ⟨q, .char c, r⟩) k
      (fun _ k' => a.Progress limit m k' ∧ k.Grows k' ∧ k'.sets = k.sets ∧ k'.Follows q c) (a.Stopped limit m) := by
  have hqs : q ∈ k.table.states := h.mem_states (h.mem_named_of_dequeued hs)
  have hrs : r ∈ k.table.states := h.mem_states hr
  have hadd : k.table.addEdge ⟨q, .char c, r⟩ = .ok (k.table.target? q c, k.table.direct ⟨q, c, r⟩) := by
    simp [DetGraph.addEdge, StateSet.require, hqs, hrs, bind, Except.bind, pure, Except.pure]
  unfold Meets Automaton.record
  rw [hadd]
  refine ⟨{ h with edges := ?_ }, ⟨fun _ => id, ?_, rfl⟩, rfl, ?_⟩
  · intro p d t he
    rcases DetGraph.mem_edges_direct.mp he with he | ⟨he, _⟩
    · cases he
      exact ⟨hc, s, hs, hr⟩
    · exact h.edges p d t he
  · intro p d ht
    obtain ⟨t, he⟩ := ht
    -- an edge with this source and character gives way to the new one, which has them too
    by_cases hpd : p = q ∧ d = c
    · obtain ⟨rfl, rfl⟩ := hpd
      exact ⟨r, DetGraph.mem_edges_direct.mpr (.inl rfl)⟩
    · exact ⟨t, DetGraph.mem_edges_direct.mpr (.inr ⟨he, hpd⟩)⟩
  · exact ⟨r, DetGraph.mem_edges_direct.mpr (.inl rfl)⟩

theorem named_of_cons (hq : k.queue = (s, q) :: queue) : k.dequeued ++ (s, q) :: queue = k.named := by
  rw [← hq, h.queued]

theorem take (hq : k.queue = (s, q) :: queue) : a.Progress limit m (k.take (s, q) queue) :=
  { h with
    queued := (List.append_assoc ..).trans (h.named_of_cons hq)
    edges := by
      intro p c r he
      obtain ⟨hc, t, ht, hr⟩ := h.edges p c r he
      exact ⟨hc, t, List.mem_append.mpr (.inl ht), hr⟩ }

end

theorem follow : ∀ {l : List Char} {k : Construction}, a.Progress limit m k → (∀ c ∈ l, c ∈ a.symbols) →
    (s, q) ∈ k.dequeued → s ∈ a.frontiers →
    Meets (a.follow limit s q l) k
      (fun _ k' => a.Progress limit m k' ∧ k.Grows k' ∧
        k'.sets = Search.extend k.sets (l.map fun c => a.graph.move s (.char c)) ∧ ∀ c ∈ l, k'.Follows q c)
      (a.Stopped limit m)
  | [], _, h, _, _, _ => ⟨h, .refl, rfl, nofun⟩
  | c :: l, k, h, hl, hs, hf => by
    obtain ⟨hc, hl⟩ := List.forall_mem_cons.mp hl
    refine (h.stateOf (move_mem_frontiers hf hc)).bind fun r k₁ h₁ => ?_
    obtain ⟨h₁, hg₁, hsets₁, hr⟩ := h₁
    have hs₁ : (s, q) ∈ k₁.dequeued := by rwa [hg₁.dequeued]
    refine (h₁.record hc hs₁ hr).bind fun _ k₂ h₂ => ?_
    obtain ⟨h₂, hg₂, hsets₂, hfol⟩ := h₂
    have hs₂ : (s, q) ∈ k₂.dequeued := by rwa [hg₂.dequeued]
    refine (follow h₂ hl hs₂ hf).imp fun _ k' h' => ?_
    obtain ⟨h', hg', hsets', hfol'⟩ := h'
    refine ⟨h', (hg₁.trans hg₂).trans hg', ?_, List.forall_mem_cons.mpr ⟨hg'.follows q c hfol, hfol'⟩⟩
    rw [hsets', hsets₂, hsets₁, List.map_cons, ← Search.extend_cons]

end Progress

/-! ## Turns -/

/-- What was taken from the queue has edges on all characters, and a search would expand on from here. -/
structure BetweenTurns (a : Automaton) (limit : Option Nat) (m : Allocator) (q : State) (k : Construction) : Prop
    extends Progress a limit m k where
  started : (a.start, q) ∈ k.named
  followed : ∀ p ∈ k.dequeued, ∀ c ∈ a.symbols, k.Follows p.2 c
  ahead : ∀ rounds, Search.expand a.images rounds k.dequeued.length k.sets = a.subsets (k.dequeued.length + rounds)

namespace BetweenTurns

variable {p : State}

theorem turn (h : BetweenTurns a limit m p k) (hq : k.queue = (s, q) :: queue) :
    Meets (a.follow limit s q a.symbols.toList) (k.take (s, q) queue) (fun _ => BetweenTurns a limit m p)
      (a.Stopped limit m) := by
  have hsets : k.sets = k.dequeued.map Prod.fst ++ s :: queue.map Prod.fst := by
    rw [Construction.sets, ← h.named_of_cons hq, List.map_append, List.map_cons]
  have hget : k.sets[k.dequeued.length]? = some s := by simp [hsets]
  have hs : s ∈ a.frontiers := h.frontier s (List.mem_of_getElem? hget)
  have hsq : (s, q) ∈ (k.take (s, q) queue).dequeued := List.mem_append.mpr (.inr (List.mem_singleton.mpr rfl))
  refine ((h.take hq).follow (fun _ hc => hc) hsq hs).imp fun _ k' h' => ?_
  obtain ⟨h', hg, hsets', hfol⟩ := h'
  have hdeq : k'.dequeued = k.dequeued ++ [(s, q)] := hg.dequeued
  refine ⟨h', hg.named _ h.started, ?_, ?_⟩
  · intro t ht c hc
    rw [hdeq, List.mem_append, List.mem_singleton] at ht
    rcases ht with ht | rfl
    · exact hg.follows _ c (h.followed t ht c hc)
    · exact hfol c hc
  · intro rounds
    -- the set in front is the one that the search expands in its next round
    have hahead := h.ahead (rounds + 1)
    rw [Search.expand] at hahead
    simp only [hget] at hahead
    rw [hdeq, List.length_append, List.length_singleton, hsets', Nat.add_assoc, Nat.add_comm 1]
    exact hahead

theorem start : Meets (a.stateOf limit a.start) (.empty m) (fun q => BetweenTurns a limit m q) (a.Stopped limit m) := by
  refine (Progress.empty.stateOf start_mem_frontiers).imp fun q k h => ?_
  obtain ⟨h, hg, hsets, hq⟩ := h
  have hdeq : k.dequeued = [] := hg.dequeued
  refine ⟨h, hq, ?_, ?_⟩
  · rw [hdeq]
    exact nofun
  · intro rounds
    rw [hdeq, hsets, List.length_nil, Nat.zero_add]
    rfl

section
variable (h : BetweenTurns a limit m q k) (hq : k.queue = [])
include h hq

theorem dequeued_eq : k.dequeued = k.named := by rw [← h.queued, hq, List.append_nil]

theorem length_named : k.named.length = a.frontiers.ncard := by
  have hsets : k.sets = a.subsets k.named.length := by
    rw [← h.dequeued_eq hq]
    exact h.ahead 0
  have hlen : (a.subsets k.named.length).length = k.named.length := by rw [← hsets, Construction.length_sets]
  rw [ncard_frontiers (Nat.le_of_eq hlen), hlen]

theorem named_eq : k.named = a.allSubsets.zip (m.block a.frontiers.ncard) := by
  have hlen := h.length_named hq
  refine List.zip_of_prod ?_ ?_
  · have hsets := h.ahead 0
    rwa [h.dequeued_eq hq, hlen] at hsets
  · rw [← hlen]
    exact h.names

theorem table_eq : k.table = a.subsetGraph a.allSubsets (m.block a.frontiers.ncard) := by
  have hroom := h.room
  have hnames := h.names
  rw [h.length_named hq] at hroom hnames
  have hn := numbering_allSubsets (a := a) hroom
  have hnamed := h.named_eq hq
  refine DetGraph.ext (Graph.ext (fun p => ?_) fun e => ?_)
  · rw [h.states, hnames]
    exact SortedSet.mem_ofList.symm
  obtain ⟨p, c, r⟩ := e
  rw [← DetGraph.target?_eq_some (g := a.subsetGraph ..), hn.target?_eq_some, ← hnamed]
  refine ⟨fun he => ?_, fun he => ?_⟩
  · have he := h.edges p c r he
    rwa [h.dequeued_eq hq] at he
  obtain ⟨hc, s, hs, hr⟩ := he
  obtain ⟨r', he⟩ := h.followed (s, p) (by rwa [h.dequeued_eq hq]) c hc
  obtain ⟨_, s', hs', hr'⟩ := h.edges p c r' he
  rw [h.dequeued_eq hq] at hs'
  rw [hnamed] at hs hs' hr hr'
  obtain rfl : s' = s := hn.set_unique hs' hs
  obtain rfl : r' = r := hn.state_unique hr' hr
  exact he

theorem result_eq : (ofTable (.det k.table) (some q) k.finals).setOptions a.options =
    a.onSubsets a.allSubsets (m.block a.frontiers.ncard) := by
  have hroom := h.room
  rw [h.length_named hq] at hroom
  have hn := numbering_allSubsets (a := a) hroom
  have hnamed := h.named_eq hq
  have hinitial : some q = (m.block a.frontiers.ncard).head? := by
    obtain ⟨p, hp, hps⟩ := hn.exists_initial
    have hqs := h.started
    rw [hnamed] at hqs
    rw [hp, hn.state_unique hqs hps]
  have hfinals : k.finals = (a.onSubsets a.allSubsets (m.block a.frontiers.ncard)).finals := by
    apply SortedSet.ext
    intro p
    rw [h.finals, mem_finals_onSubsets, hnamed]
  rw [h.table_eq hq, hinitial, hfinals]
  rfl

end

end BetweenTurns

/-! ## The whole construction -/

def construct (a : Automaton) (limit : Option Nat) : Constructing State := do
  let q ← a.stateOf limit a.start
  a.loop limit
  return q

theorem construct_meets (limit : Option Nat) (m : Allocator) : Meets (a.construct limit) (.empty m)
    (fun q k => BetweenTurns a limit m q k ∧ k.queue = []) (a.Stopped limit m) := by
  refine BetweenTurns.start.bind fun q k h => ?_
  refine (loop_meets (fun _ _ _ _ hk hq => hk.turn hq) k h).bind fun _ k' h' => ?_
  exact h'

def byWorklist (a : Automaton) (limit : Option Nat) : Minting Automaton := fun m =>
  match a.validate with
  | .error e => .error (.refused e) m
  | .ok _ =>
    match a.construct (limit <|> a.options.maxSubsets) (.empty m) with
    | .ok q k => .ok ((ofTable (.det k.table) (some q) k.finals).setOptions a.options) k.alloc
    | .error e k => .error e k.alloc

theorem byWorklist_eq_determinize : a.byWorklist limit = a.determinize limit := by
  funext m
  unfold byWorklist
  cases hval : a.validate with
  | error e => exact (determinize_of_invalid hval).symm
  | ok _ =>
    have hv : a.Valid := validate_eq_ok.mp hval
    have hc := a.construct_meets (limit <|> a.options.maxSubsets) m
    cases hx : a.construct (limit <|> a.options.maxSubsets) (.empty m) with
    | ok q k =>
      obtain ⟨h, hq⟩ := hc.of_ok hx
      have hlim := h.limit
      have hroom := h.room
      have halloc := h.alloc
      rw [h.length_named hq] at hlim hroom halloc
      simp only [h.result_eq hq, halloc]
      exact (determinize_of_le hv hlim hroom).symm
    | error e k =>
      obtain ⟨h, hlt, hstop⟩ := hc.of_error hx
      simp only [h.alloc]
      cases hstop with
      | limit hlim => exact (determinize_of_lt hv hlim hlt h.room).symm
      | room hroom hlim =>
        rw [hroom] at hlim hlt ⊢
        exact (determinize_of_exhausted hv (lt_demand_iff.mpr ⟨hlim, hlt⟩)).symm

end Automaton

end Automata
