import Automata.Proofs.Entries

/-!
# Tables by key

The tables here store one target under each key, or a set of targets of which none is
empty, and every operation on a table is that on the graph that holds its edges.
-/

namespace Automata

structure NondetTable extends EntryTable where
  tidy : toEntryTable.Tidy

namespace NondetTable

variable {t u : NondetTable} {q : State} {e : Edge Symbol}

def ofStates (s : StateSet) : NondetTable := ⟨.ofStates s, EntryTable.tidy_ofStates⟩

def ofEdges (s : List State) (l : List (Edge Symbol)) : NondetTable := ⟨.ofEdges s l, EntryTable.tidy_ofEdges⟩

def addState (t : NondetTable) (q : State) : Bool × NondetTable :=
  ((t.toEntryTable.addState q).1, ⟨(t.toEntryTable.addState q).2, t.tidy⟩)

def removeState (t : NondetTable) (q : State) : Bool × NondetTable :=
  ((t.toEntryTable.removeState q).1, ⟨(t.toEntryTable.removeState q).2, t.tidy.removeState⟩)

def addEdge (t : NondetTable) (e : Edge Symbol) : Except Error (Bool × NondetTable) := do
  t.states.require e.source
  t.states.require e.target
  return (e.target ∉ t.targetsAt e.key, ⟨t.put e, t.tidy.put e⟩)

abbrev graph (t : NondetTable) : NondetGraph := t.toEntryTable.graph

theorem graph_injective (h : t.graph = u.graph) : t = u := by
  obtain ⟨t, ht⟩ := t
  obtain ⟨u, hu⟩ := u
  obtain rfl := ht.eq_of_graph_eq hu h
  rfl

theorem graph_addState : (t.addState q).map id graph = t.graph.addState q := rfl

theorem graph_removeState : (t.removeState q).map id graph = t.graph.removeState q :=
  EntryTable.graph_removeState

theorem graph_addEdge : (t.addEdge e).map (Prod.map id graph) = t.graph.addEdge e := by
  have hnew : decide (e.target ∉ t.targetsAt e.key) = decide (e ∉ t.graph.edges) :=
    decide_eq_decide.mpr (not_congr EntryTable.mem_edges_graph_iff.symm)
  have hstates : t.graph.states = t.states := rfl
  unfold addEdge NondetGraph.addEdge
  rw [hnew, hstates, ← EntryTable.graph_put]
  cases t.states.require e.source with
  | error err => rfl
  | ok _ => cases t.states.require e.target <;> rfl

end NondetTable

/-! ## Single targets by key -/

structure DetTable where
  states : StateSet
  targets : Std.ExtTreeMap (Key Char) State

namespace DetTable

variable {t : DetTable} {p q : State} {c : Char} {e : Edge Char} {k : Key Char}

def ofStates (s : StateSet) : DetTable := ⟨s, ∅⟩

def put (t : DetTable) (e : Edge Char) : DetTable := { t with targets := t.targets.insert e.key e.target }

def prune (t : DetTable) (q : State) : DetTable :=
  ⟨t.states.erase q, t.targets.filter fun k r => k.source ≠ q ∧ r ≠ q⟩

def addState (t : DetTable) (q : State) : Bool × DetTable := (q ∉ t.states, { t with states := t.states.insert q })

def removeState (t : DetTable) (q : State) : Bool × DetTable :=
  if q ∈ t.states then (true, t.prune q) else (false, t)

def addEdge (t : DetTable) (e : Edge Symbol) : Except Error (Option State × DetTable) :=
  match e.label with
  | .epsilon => .error (.epsilonInDeterministic e.source)
  | .char c => do
    t.states.require e.source
    t.states.require e.target
    return (t.targets[(⟨e.source, c⟩ : Key Char)]?, t.put ⟨e.source, c, e.target⟩)

def symbols (t : DetTable) : Alphabet := .ofList (t.targets.keys.map Key.label)

def entries (t : DetTable) : List (Edge Char) := t.targets.toList.map fun x => ⟨x.1.source, x.1.label, x.2⟩

def edges (t : DetTable) : List (Edge Symbol) := t.entries.map fun e => ⟨e.source, .char e.label, e.target⟩

def size (t : DetTable) : Nat := t.targets.size

def successors (t : DetTable) (p : State) : Symbol → StateSet
  | .epsilon => ∅
  | .char c => .ofList t.targets[(⟨p, c⟩ : Key Char)]?.toList

def toNondet (t : DetTable) : NondetTable := .ofEdges t.states.toList t.edges

/-! ### The graph of a table -/

theorem mem_entries : e ∈ t.entries ↔ t.targets[e.key]? = some e.target := by
  simp only [entries, List.mem_map, Prod.exists, Std.ExtTreeMap.mem_toList_iff_getElem?_eq_some]
  constructor
  · intro h
    obtain ⟨k, q, hk, rfl⟩ := h
    exact hk
  · intro h
    exact ⟨e.key, e.target, h, rfl⟩

theorem nodup_entries : t.entries.Nodup := by
  refine List.Pairwise.map _ ?_ t.targets.distinct_keys_toList
  intro x y hne h
  obtain ⟨⟨_, _⟩, _⟩ := x
  cases h
  exact hne (Std.compare_eq_iff_eq.mpr rfl)

def graph (t : DetTable) : DetGraph where
  states := t.states
  edges := .ofList t.entries
  functional := by
    intro e he f hf hs hl
    have he := mem_entries.mp (SortedSet.mem_ofList.mp he)
    have hf := mem_entries.mp (SortedSet.mem_ofList.mp hf)
    obtain ⟨_, _, _⟩ := e
    obtain ⟨_, _, _⟩ := f
    cases hs
    cases hl
    cases he.symm.trans hf
    rfl

theorem mem_edges_graph : e ∈ t.graph.edges ↔ t.targets[e.key]? = some e.target :=
  SortedSet.mem_ofList.trans mem_entries

theorem target?_graph : t.graph.target? p c = t.targets[(⟨p, c⟩ : Key Char)]? := by
  refine Option.ext fun q => ?_
  exact DetGraph.target?_eq_some.trans mem_edges_graph

theorem graph_put : (t.put e).graph = t.graph.direct e := by
  refine DetGraph.ext (Graph.ext (fun _ => Iff.rfl) fun f => ?_)
  refine mem_edges_graph.trans (Iff.trans ?_ DetGraph.mem_edges_direct.symm)
  have hkey : f.source = e.source ∧ f.label = e.label ↔ e.key = f.key := by simp [Edge.key, eq_comm]
  simp only [put, Std.ExtTreeMap.getElem?_insert, Std.compare_eq_iff_eq, mem_edges_graph, hkey, Edge.eq_iff_key]
  by_cases hk : e.key = f.key
  · simp [hk, eq_comm]
  · simp [hk]

theorem graph_prune : (t.prune q).graph = t.graph.withdraw q := by
  refine DetGraph.ext (Graph.ext (fun _ => Iff.rfl) fun f => ?_)
  refine mem_edges_graph.trans (Iff.trans ?_ Graph.mem_edges_withdraw.symm)
  rw [prune, Std.ExtTreeMap.getElem?_filter', Option.filter_eq_some_iff, decide_eq_true_eq]
  exact and_congr_left' mem_edges_graph.symm

theorem graph_addState : (t.addState q).map id graph = t.graph.addState q := rfl

theorem graph_removeState : (t.removeState q).map id graph = t.graph.removeState q := by
  have hs : q ∈ t.graph.states ↔ q ∈ t.states := Iff.rfl
  unfold removeState DetGraph.removeState
  simp only [hs]
  split
  · rw [← graph_prune]
    rfl
  · rfl

theorem graph_addEdge {e : Edge Symbol} : (t.addEdge e).map (Prod.map id graph) = t.graph.addEdge e := by
  have hstates : t.graph.states = t.states := rfl
  unfold addEdge DetGraph.addEdge
  cases e.label with
  | epsilon => rfl
  | char c =>
    simp only [hstates, target?_graph, ← graph_put]
    cases t.states.require e.source with
    | error err => rfl
    | ok _ => cases t.states.require e.target <;> rfl

theorem graph_toNondet : t.toNondet.graph = t.graph.toNondet := by
  have h : t.toNondet.graph = ⟨.ofList t.states.toList, .ofList t.edges⟩ := EntryTable.graph_ofEdges
  rw [h, SortedSet.ofList_toList]
  refine Graph.ext (fun _ => Iff.rfl) fun e => ?_
  rw [SortedSet.mem_ofList, edges, List.mem_map]
  exact (exists_congr fun f => and_congr_left' SortedSet.mem_ofList.symm).trans SortedSet.mem_map.symm

theorem mem_keys : k ∈ t.targets.keys ↔ ∃ q, t.targets[k]? = some q := by
  rw [Std.ExtTreeMap.mem_keys, Std.ExtTreeMap.mem_iff_isSome_getElem?, Option.isSome_iff_exists]

theorem symbols_graph : t.graph.symbols = t.symbols := by
  refine SortedSet.ext fun c => ?_
  rw [DetGraph.mem_symbols, symbols, SortedSet.mem_ofList, List.mem_map]
  simp only [mem_keys, mem_edges_graph]
  constructor
  · intro h
    obtain ⟨p, q, h⟩ := h
    exact ⟨⟨p, c⟩, ⟨q, h⟩, rfl⟩
  · intro h
    obtain ⟨⟨p, _⟩, ⟨q, h⟩, rfl⟩ := h
    exact ⟨p, q, h⟩

theorem size_graph : t.graph.size = t.size := by
  have h : t.graph.size = t.entries.length := SortedSet.size_ofList nodup_entries
  rw [h, entries, List.length_map, Std.ExtTreeMap.length_toList]
  rfl

theorem successors_graph : ∀ {x : Symbol}, (Table.det t.graph).successors p x = t.successors p x
  | .epsilon => rfl
  | .char c => by rw [Table.successors, successors, target?_graph]

end DetTable

end Automata
