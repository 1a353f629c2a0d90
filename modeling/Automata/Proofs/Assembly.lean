import Automata.Proofs.TableHistories

/-!
# Tables put together

However a nondeterministic table comes about, no entry of it stays empty, so it is its
states and its edges and nothing else.
-/

namespace Automata

namespace EntryTable

variable {t : EntryTable} {q : State} {e : Edge Symbol}

def change (t : EntryTable) : Change → EntryTable
  | .addState q => (t.addState q).2
  | .removeState q => (t.removeState q).2
  | .addEdge e =>
    match addEdge e t with
    | .ok _ u => u
    | .error _ u => u

theorem change_addEdge : t.change (.addEdge e) = if e.Within t.graph.states then t.put e else t := by
  rw [change, addEdge_apply]
  by_cases hw : e.Within t.graph.states
  · rw [NondetGraph.addEdge_of_within hw, if_pos hw]
  · rw [NondetGraph.addEdge_of_not_within hw, if_neg hw]

theorem Tidy.change (h : t.Tidy) : ∀ x : Change, (t.change x).Tidy
  | .addState _ => h
  | .removeState _ => h.removeState
  | .addEdge e => by
    rw [change_addEdge]
    split
    · exact h.put e
    · exact h

theorem graph_change : ∀ x : Change, (t.change x).graph = TableKind.change t.graph x
  | .addState _ => rfl
  | .removeState _ => congrArg Prod.snd graph_removeState
  | .addEdge e => by
    rw [change_addEdge]
    by_cases hw : e.Within t.graph.states
    · simp only [TableKind.change, TableKind.addEdge, NondetGraph.addEdge_of_within hw]
      rw [if_pos hw, graph_put]
    · simp only [TableKind.change, TableKind.addEdge, NondetGraph.addEdge_of_not_within hw]
      rw [if_neg hw]

end EntryTable

/-! ## Union of graphs -/

namespace Graph

variable {L : Type} [Ord L] [Std.TransOrd L] [Std.LawfulEqOrd L] {g h k : Graph L}

theorem absorb_comm : g.absorb h = h.absorb g :=
  ext (fun _ => by simp only [mem_states_absorb, or_comm]) fun _ => by simp only [mem_edges_absorb, or_comm]

theorem absorb_assoc : (g.absorb h).absorb k = g.absorb (h.absorb k) :=
  ext (fun _ => by simp only [mem_states_absorb, or_assoc]) fun _ => by simp only [mem_edges_absorb, or_assoc]

theorem absorb_self : g.absorb g = g :=
  ext (fun _ => by simp only [mem_states_absorb, or_self]) fun _ => by simp only [mem_edges_absorb, or_self]

end Graph

/-! ## Ways to a table -/

inductive Assembly
  | empty
  | ofStates (s : List State)
  | ofEdges (s : List State) (l : List (Edge Symbol))
  | ofDet (t : DetTable)
  | changed (a : Assembly) (x : Change)
  | absorb (a b : Assembly)

namespace Assembly

def table : Assembly → EntryTable
  | empty => .ofStates ∅
  | ofStates s => .ofStates (.ofList s)
  | ofEdges s l => .ofEdges s l
  | ofDet t => .ofEdges t.states.toList t.edges
  | changed a x => a.table.change x
  | absorb a b => a.table.absorb b.table

def graph : Assembly → NondetGraph
  | empty => .ofStates ∅
  | ofStates s => .ofStates (.ofList s)
  | ofEdges s l => ⟨.ofList s, .ofList l⟩
  | ofDet t => t.graph.toNondet
  | changed a x => TableKind.change a.graph x
  | absorb a b => a.graph.absorb b.graph

variable {a b : Assembly}

theorem tidy : ∀ a : Assembly, a.table.Tidy
  | empty | ofStates _ => EntryTable.tidy_ofStates
  | ofEdges _ _ | ofDet _ => EntryTable.tidy_ofEdges
  | changed a x => a.tidy.change x
  | absorb a b => a.tidy.absorb b.tidy

theorem graph_table : ∀ a : Assembly, a.table.graph = a.graph
  | empty | ofStates _ => rfl
  | ofEdges _ _ => EntryTable.graph_ofEdges
  | ofDet _ => DetTable.graph_toNondet
  | changed a x => by
    rw [table, graph, EntryTable.graph_change, graph_table a]
  | absorb a b => by
    rw [table, graph, EntryTable.graph_absorb, graph_table a, graph_table b]

theorem table_eq_iff : a.table = b.table ↔ a.graph = b.graph := by
  rw [← graph_table, ← graph_table]
  constructor
  · intro h
    rw [h]
  · intro h
    exact a.tidy.eq_of_graph_eq b.tidy h

theorem table_eq_iff_states_edges :
    a.table = b.table ↔ a.table.states = b.table.states ∧ ∀ e, e ∈ a.table.edges ↔ e ∈ b.table.edges := by
  rw [table_eq_iff, ← graph_table, ← graph_table, EntryTable.graph_eq_iff]

theorem ofEdges_eq_table_iff {s : List State} {l : List (Edge Symbol)} : EntryTable.ofEdges s l = a.table ↔
    (∀ q, q ∈ s ↔ q ∈ a.table.states) ∧ ∀ e, e ∈ l ↔ e ∈ a.table.edges := by
  have hs : SortedSet.ofList s = a.table.states ↔ ∀ q, q ∈ s ↔ q ∈ a.table.states := by
    constructor
    · intro h q
      rw [← h, SortedSet.mem_ofList]
    · intro h
      exact SortedSet.ext fun q => SortedSet.mem_ofList.trans (h q)
  have h : EntryTable.ofEdges s l = a.table ↔ _ := table_eq_iff_states_edges (a := ofEdges s l)
  simp only [h, table, EntryTable.states_ofEdges, EntryTable.mem_edges_ofEdges, hs]

end Assembly

/-- The symbols, the size, equality and the union of tables put together in any way can be read off their states and
their edges. -/
theorem assembled_is_states_and_edges (a b c : Assembly) :
    (∀ k : Key Symbol, a.table.targets[k]? ≠ some ∅) ∧
      (∀ x, x ∈ a.table.symbols ↔ ∃ e ∈ a.table.edges, e.label = .char x) ∧
      (a.table.edges.Nodup ∧ a.table.size = a.table.edges.length) ∧
      (a.table = b.table ↔ a.table.states = b.table.states ∧ ∀ e, e ∈ a.table.edges ↔ e ∈ b.table.edges) ∧
      (∀ s l, EntryTable.ofEdges s l = a.table ↔
        (∀ q, q ∈ s ↔ q ∈ a.table.states) ∧ ∀ e, e ∈ l ↔ e ∈ a.table.edges) ∧
      ((a.table.absorb b.table).states = a.table.states ∪ b.table.states ∧
        ∀ e, e ∈ (a.table.absorb b.table).edges ↔ e ∈ a.table.edges ∨ e ∈ b.table.edges) ∧
      a.table.absorb b.table = b.table.absorb a.table ∧
      (a.table.absorb b.table).absorb c.table = a.table.absorb (b.table.absorb c.table) ∧
      a.table.absorb a.table = a.table ∧
      (∀ l, l.Perm b.table.targets.toList →
        EntryTable.extendAll ⟨a.table.states ∪ b.table.states, a.table.targets⟩ l = a.table.absorb b.table) ∧
      a.table.graph = a.graph ∧ a.graph.symbols = a.table.symbols ∧ a.graph.size = a.table.size := by
  have hsymbols : a.graph.symbols = a.table.symbols := by
    rw [← a.graph_table]
    exact a.tidy.symbols_graph
  have hsize : a.graph.size = a.table.size := by
    rw [← a.graph_table]
    exact EntryTable.size_graph
  refine ⟨a.tidy, fun _ => a.tidy.mem_symbols, ⟨EntryTable.nodup_edges, EntryTable.size_eq⟩, ?_, fun s l => ?_, ?_, ?_, ?_, ?_,
    fun _ hl => EntryTable.extendAll_of_perm hl, a.graph_table, hsymbols, hsize⟩
  · exact Assembly.table_eq_iff_states_edges
  · exact Assembly.ofEdges_eq_table_iff
  · exact ⟨EntryTable.states_absorb, fun _ => EntryTable.mem_edges_absorb⟩
  · show (Assembly.absorb a b).table = (Assembly.absorb b a).table
    exact Assembly.table_eq_iff.mpr Graph.absorb_comm
  · show (Assembly.absorb (.absorb a b) c).table = (Assembly.absorb a (.absorb b c)).table
    exact Assembly.table_eq_iff.mpr Graph.absorb_assoc
  · show (Assembly.absorb a a).table = a.table
    exact Assembly.table_eq_iff.mpr Graph.absorb_self

end Automata
