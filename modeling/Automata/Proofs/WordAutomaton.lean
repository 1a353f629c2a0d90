import Automata.Proofs.Gluing
import Automata.Proofs.Minting

/-!
# The automaton of a word

The states of a word form a chain on which each but the last has one edge, so one word
leads from the first to the last (`path_chain`).
-/

namespace Automata.Automaton

variable {p q r : State} {c : Char} {l : List (Char × State)} {m : Allocator} {w : List Char}

def chainGraph (p : State) (l : List (Char × State)) : NondetGraph :=
  ⟨.ofList (p :: l.map (·.2)), .ofList (chainEdges p l)⟩

def chainEnd (p : State) (l : List (Char × State)) : State := (l.map (·.2)).getLastD p

theorem graph_chain : (chain p l).graph = chainGraph p l := rfl

theorem chainEnd_cons : chainEnd p ((c, q) :: l) = chainEnd q l := List.getLastD_cons ..

theorem mem_states_chainGraph : r ∈ (chainGraph p l).states ↔ r ∈ p :: l.map (·.2) := SortedSet.mem_ofList

theorem mem_edges_chainGraph {e : Edge Symbol} : e ∈ (chainGraph p l).edges ↔ e ∈ chainEdges p l :=
  SortedSet.mem_ofList

theorem chainEnd_mem : chainEnd p l ∈ p :: l.map (·.2) := List.getLastD_mem_cons ..

theorem chainEdges_within {e : Edge Symbol} : ∀ {p : State} {l : List (Char × State)}, e ∈ chainEdges p l →
    e.source ∈ p :: l.map (·.2) ∧ e.target ∈ l.map (·.2)
  | _, [], he => nomatch he
  | p, (c, q) :: l, he => by
    rw [List.map_cons]
    rcases List.mem_cons.mp he with rfl | he
    · exact ⟨List.mem_cons_self .., List.mem_cons_self ..⟩
    · obtain ⟨hs, ht⟩ := chainEdges_within he
      exact ⟨List.mem_cons_of_mem _ hs, List.mem_cons_of_mem _ ht⟩

theorem epsilon_notMem_chainEdges : ∀ {p : State} {l : List (Char × State)}, ⟨q, .epsilon, r⟩ ∉ chainEdges p l
  | _, [], he => nomatch he
  | _, (_, _) :: _, he => by
    rcases List.mem_cons.mp he with he | he
    · cases he
    · exact epsilon_notMem_chainEdges he

theorem confines_chain (hp : p ∉ q :: l.map (·.2)) :
    NondetGraph.Confines (chainGraph q l) (chainGraph p ((c, q) :: l)) (· ∈ q :: l.map (·.2)) := by
  intro e he hs
  rcases List.mem_cons.mp (mem_edges_chainGraph.mp he) with rfl | he
  · exact absurd hs hp
  · exact ⟨mem_edges_chainGraph.mpr he, List.mem_cons_of_mem _ (chainEdges_within he).2⟩

theorem path_chain : ∀ {l : List (Char × State)} {p : State} {w : List Char}, (p :: l.map (·.2)).Nodup →
    ((chainGraph p l).Path p w (chainEnd p l) ↔ w = l.map (·.1))
  | [], p, w, _ => by
    constructor
    · intro hw
      cases hw with
      | nil => rfl
      | epsilon he _ => exact absurd (mem_edges_chainGraph.mp he) epsilon_notMem_chainEdges
      | char he _ => exact nomatch mem_edges_chainGraph.mp he
    · intro hw
      subst hw
      exact .nil p
  | (c, q) :: l, p, w, hn => by
    obtain ⟨hp, hn⟩ := List.nodup_cons.mp hn
    rw [chainEnd_cons]
    constructor
    · intro hw
      generalize hr : chainEnd q l = r at hw
      cases hw with
      | nil =>
        subst hr
        exact absurd chainEnd_mem hp
      | epsilon he _ => exact absurd (mem_edges_chainGraph.mp he) epsilon_notMem_chainEdges
      | char he hw =>
        -- the first edge is the only one at `p`, and what follows it never comes back there
        rcases List.mem_cons.mp (mem_edges_chainGraph.mp he) with he | he
        · cases he
          subst hr
          have hw := (hw.confine (confines_chain hp) (List.mem_cons_self ..)).1
          rw [(path_chain hn).mp hw, List.map_cons]
        · exact absurd (chainEdges_within he).1 hp
    · intro hw
      subst hw
      have he : ⟨p, .char c, q⟩ ∈ (chainGraph p ((c, q) :: l)).edges :=
        mem_edges_chainGraph.mpr (List.mem_cons_self ..)
      have hsub : ∀ e ∈ (chainGraph q l).edges, e ∈ (chainGraph p ((c, q) :: l)).edges := fun e he =>
        mem_edges_chainGraph.mpr (List.mem_cons_of_mem _ (mem_edges_chainGraph.mp he))
      exact .char he (((path_chain hn).mpr rfl).mono hsub)

/-! ## Language -/

theorem valid_chain : (chain p l).Valid := by
  have hp : p ∈ (chainGraph p l).states := mem_states_chainGraph.mpr (List.mem_cons_self ..)
  have hend : ∀ q ∈ SortedSet.singleton (chainEnd p l), q ∈ (chainGraph p l).states := by
    intro q hq
    rw [SortedSet.mem_singleton.mp hq]
    exact mem_states_chainGraph.mpr chainEnd_mem
  have hc : (chainGraph p l).Closed := by
    intro e he
    obtain ⟨hs, ht⟩ := chainEdges_within (mem_edges_chainGraph.mp he)
    exact ⟨mem_states_chainGraph.mpr hs, mem_states_chainGraph.mpr (List.mem_cons_of_mem _ ht)⟩
  have hw : (chain p l).WellFormed := wellFormed_of_nondet hp hend hc
  exact hw.valid nofun ⟨_, SortedSet.mem_singleton.mpr rfl⟩ nofun

theorem language_chain (hn : (p :: l.map (·.2)).Nodup) : (chain p l).language = {l.map (·.1)} := by
  apply Language.ext
  intro w
  have hi : (chain p l).initial = some p := rfl
  have hspells : (chain p l).Spells .follow w ↔ (chainGraph p l).Path p w (chainEnd p l) := by
    rw [spells_of_initial hi]
    constructor
    · intro h
      obtain ⟨r, hr, hw⟩ := h
      obtain rfl : r = chainEnd p l := SortedSet.mem_singleton.mp hr
      exact hw
    · intro hw
      exact ⟨_, SortedSet.mem_singleton.mpr rfl, hw⟩
  exact (mem_language valid_chain).trans (hspells.trans (path_chain hn))

/-! ## Minting the states -/

theorem ofWord_of_le (h : w.length + 1 ≤ m.room) :
    ofWord w m =
      .ok (chain ⟨m.counter⟩ (w.zip ((Allocator.mk (m.counter + 1)).block w.length))) (m.advance (w.length + 1)) := by
  have hr : 0 < m.room := by omega
  have hn : w.length ≤ (Allocator.mk (m.counter + 1)).room := by have := Allocator.room_succ hr; omega
  rw [ofWord, Minting.bind_of_ok (Allocator.mint_of_room hr), Minting.bind_of_ok (Allocator.mintEach_of_le hn),
    Allocator.advance_succ]
  rfl

theorem ofWord_of_lt (h : m.room < w.length + 1) : ofWord w m = .error .exhausted (m.advance m.room) := by
  have hmint : Allocator.mintEach (w.length + 1) m = .error .exhausted (m.advance m.room) :=
    Allocator.mintEach_of_lt h
  unfold ofWord
  rw [Allocator.mintEach] at hmint
  rcases Minting.bind_eq_error.mp hmint with hq | ⟨q, m', hq, hmint⟩
  · exact Minting.bind_of_error hq
  rw [Minting.bind_of_ok hq]
  rcases Minting.bind_eq_error.mp hmint with hl | ⟨l, m'', _, hl⟩
  · exact Minting.bind_of_error hl
  · cases hl

theorem map_snd_zip_block : (w.zip (m.block w.length)).map (·.2) = m.block w.length :=
  List.map_snd_zip (Nat.le_of_eq Allocator.length_block)

theorem map_fst_zip_block : (w.zip (m.block w.length)).map (·.1) = w :=
  List.map_fst_zip (Nat.le_of_eq Allocator.length_block.symm)

theorem chain_states :
    (⟨m.counter⟩ : State) :: (w.zip ((Allocator.mk (m.counter + 1)).block w.length)).map (·.2) =
      m.block (w.length + 1) := by
  rw [map_snd_zip_block, Allocator.block_succ]

/-! ## One state after the other -/

def extend (a : Automaton) (p : State) (c : Char) : Minting (Automaton × State) := do
  let q ← Allocator.mint
  let a ← Minting.ofExcept ((a.addState q).2.addEdge ⟨p, .char c, q⟩)
  return (a, q)

def spellOut (w : List Char) : Minting Automaton := do
  let p ← Allocator.mint
  let a ← Minting.ofExcept ((emptyNondet.addState p).2.setInitial p)
  let (a, q) ← w.foldlM (fun x c => x.1.extend x.2 c) (a, p)
  Minting.ofExcept (a.addFinal q)

section
variable {g : NondetGraph} {i : Option State} {s : StateSet} {o : Options}

/-- The graph with a chain at `p`. -/
def grown (g : NondetGraph) (p : State) (l : List (Char × State)) : NondetGraph :=
  ⟨g.states.insertMany (l.map (·.2)), g.edges.insertMany (chainEdges p l)⟩

theorem grown_cons : grown ((g.declare q).connect ⟨p, .char c, q⟩) q l = grown g p ((c, q) :: l) := by
  refine Graph.ext (fun r => ?_) (fun e => ?_)
  · simp [grown, Graph.connect, Graph.declare, or_left_comm, or_assoc]
  · simp [grown, Graph.connect, Graph.declare, chainEdges, or_left_comm, or_assoc]

theorem extend_nondet (hp : p ∈ g.states) :
    (mk (.nondet g) i s o).extend p c =
      (do
        let q ← Allocator.mint
        return (mk (.nondet ((g.declare q).connect ⟨p, .char c, q⟩)) i s o, q)) := by
  unfold extend
  refine bind_congr fun q => ?_
  have hw : Edge.Within ⟨p, Symbol.char c, q⟩ (g.declare q).states :=
    ⟨SortedSet.mem_insert.mpr (.inr hp), SortedSet.mem_insert.mpr (.inl rfl)⟩
  have he : ((mk (.nondet g) i s o).addState q).2.addEdge ⟨p, .char c, q⟩ =
      .ok (mk (.nondet ((g.declare q).connect ⟨p, .char c, q⟩)) i s o) := by
    have h : NondetGraph.addEdge (g.declare q) ⟨p, .char c, q⟩ = .ok (_, (g.declare q).connect _) :=
      NondetGraph.addEdge_of_within hw
    have ht : Table.addEdge (.nondet (g.declare q)) ⟨p, .char c, q⟩ =
        .ok (.nondet ((g.declare q).connect ⟨p, .char c, q⟩)) := by
      rw [Table.addEdge, h]
      rfl
    show (do return { mk (.nondet (g.declare q)) i s o with
      table := ← Table.addEdge (.nondet (g.declare q)) ⟨p, .char c, q⟩ } : Except Error Automaton) = _
    rw [ht]
    rfl
  rw [he, Minting.ofExcept_ok, pure_bind]

theorem foldlM_extend : ∀ {w : List Char} {g : NondetGraph} {p : State}, p ∈ g.states →
    w.foldlM (fun x c => x.1.extend x.2 c) (mk (.nondet g) i s o, p) =
      (do
        let l ← Allocator.mintEach w.length
        return (mk (.nondet (grown g p (w.zip l))) i s o, chainEnd p (w.zip l)))
  | [], _, _, _ => rfl
  | c :: w, g, p, hp => by
    rw [List.foldlM_cons, extend_nondet hp, List.length_cons, Allocator.mintEach]
    simp only [bind_assoc, pure_bind]
    refine bind_congr fun q => ?_
    have hq : q ∈ ((g.declare q).connect ⟨p, .char c, q⟩).states := SortedSet.mem_insert.mpr (.inl rfl)
    refine (foldlM_extend hq).trans (bind_congr fun l => ?_)
    rw [List.zip_cons_cons, grown_cons, chainEnd_cons]

end

theorem chain_eq_grown :
    chain p l = mk (.nondet (grown (.ofStates (.singleton p)) p l)) (some p) (.singleton (chainEnd p l)) default := by
  have hg : chainGraph p l = grown (.ofStates (.singleton p)) p l := by
    refine Graph.ext (fun r => ?_) (fun e => ?_)
    · simp [chainGraph, grown, Graph.ofStates, or_comm]
    · rfl
  unfold chain
  rw [← hg]
  rfl

theorem spellOut_eq_ofWord : spellOut w = ofWord w := by
  unfold spellOut ofWord
  refine bind_congr fun p => ?_
  have hp : p ∈ (Graph.ofStates (.singleton p) : NondetGraph).states := SortedSet.mem_singleton.mpr rfl
  have hi : (emptyNondet.addState p).2.setInitial p =
      .ok (mk (.nondet (.ofStates (.singleton p))) (some p) ∅ default) :=
    StateSet.require_then_eq_ok.mpr ⟨hp, rfl⟩
  rw [hi, Minting.ofExcept_ok, pure_bind, foldlM_extend hp]
  simp only [bind_assoc, pure_bind]
  refine bind_congr fun l => ?_
  have hend : chainEnd p (w.zip l) ∈ (grown (.ofStates (.singleton p)) p (w.zip l)).states := by
    rcases List.mem_cons.mp (chainEnd_mem (p := p) (l := w.zip l)) with h | h
    · rw [h]
      exact SortedSet.mem_insertMany.mpr (.inr hp)
    · exact SortedSet.mem_insertMany.mpr (.inl h)
  have hf : (mk (.nondet (grown (.ofStates (.singleton p)) p (w.zip l))) (some p) ∅ default).addFinal
      (chainEnd p (w.zip l)) = .ok (chain p (w.zip l)) := by
    rw [chain_eq_grown]
    exact StateSet.require_then_eq_ok.mpr ⟨hend, rfl⟩
  rw [hf, Minting.ofExcept_ok]

end Automata.Automaton
