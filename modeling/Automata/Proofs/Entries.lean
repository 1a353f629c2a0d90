import Mathlib.Algebra.Ring.Nat
import Mathlib.Data.List.Nodup
import Automata.Proofs.Edits

/-!
# Entries of a nondeterministic table

Nothing in the store keeps a set of targets from being empty: an edge opens an entry for
its key before it puts a target there. A table is tidy if no set is empty.
-/

namespace Automata

theorem SortedSet.singleton_ne_empty {α : Type} [Ord α] [Std.TransOrd α] [Std.LawfulEqOrd α] {a : α} :
    SortedSet.singleton a ≠ ∅ :=
  ne_empty_iff.mpr ⟨a, mem_singleton.mpr rfl⟩

structure Key (L : Type) where
  source : State
  label : L
deriving DecidableEq

namespace Key

variable {L : Type} [Ord L]

instance : Ord (Key L) := ⟨compareLex (compareOn source) (compareOn label)⟩

instance [Std.TransOrd L] : Std.TransOrd (Key L) :=
  inferInstanceAs (Std.TransCmp (compareLex (compareOn source) (compareOn label)))

instance [Std.TransOrd L] [Std.LawfulEqOrd L] : Std.LawfulEqOrd (Key L) where
  eq_of_compare {k l} h := by
    obtain ⟨hs, hl⟩ := compareLex_eq_eq.mp h
    have hs := Std.LawfulEqOrd.eq_of_compare (α := State) hs
    have hl := Std.LawfulEqOrd.eq_of_compare (α := L) hl
    cases k; cases l; simp_all

end Key

def Edge.key {L : Type} (e : Edge L) : Key L := ⟨e.source, e.label⟩

theorem Edge.eq_iff_key {L : Type} {e f : Edge L} : f = e ↔ e.key = f.key ∧ f.target = e.target := by
  obtain ⟨_, _, _⟩ := e
  obtain ⟨_, _, _⟩ := f
  simp [Edge.key, eq_comm, and_assoc]

/-! ## Sets of targets by key -/

structure EntryTable where
  states : StateSet
  targets : Std.ExtTreeMap (Key Symbol) StateSet

namespace EntryTable

def ofStates (s : StateSet) : EntryTable := ⟨s, ∅⟩

/-- The targets under the key; none if the key has no entry. -/
def targetsAt (t : EntryTable) (k : Key Symbol) : StateSet := t.targets[k]?.getD ∅

/-! ## Editing in place -/

def openEntry (t : EntryTable) (k : Key Symbol) : EntryTable := { t with targets := t.targets.insertIfNew k ∅ }

def fillEntry (t : EntryTable) (k : Key Symbol) (s : StateSet) : EntryTable :=
  { t with targets := t.targets.modify k (· ∪ s) }

def extend (t : EntryTable) (k : Key Symbol) (s : StateSet) : EntryTable := (t.openEntry k).fillEntry k s

def put (t : EntryTable) (e : Edge Symbol) : EntryTable := t.extend e.key (.singleton e.target)

def ofEdges (s : List State) (l : List (Edge Symbol)) : EntryTable := l.foldl put (ofStates (.ofList s))

/-- Takes the state out of every entry, and then keeps the entries that do not start at it and have a target left. -/
def prune (t : EntryTable) (q : State) : EntryTable where
  states := t.states.erase q
  targets := (t.targets.map fun _ s => s.erase q).filter fun k s => k.source ≠ q ∧ ¬ s.isEmpty

def addState (t : EntryTable) (q : State) : Bool × EntryTable :=
  (q ∉ t.states, { t with states := t.states.insert q })

def removeState (t : EntryTable) (q : State) : Bool × EntryTable :=
  if q ∈ t.states then (true, t.prune q) else (false, t)

def requireDeclared (q : State) : EStateM Error EntryTable Unit := do
  MonadExcept.ofExcept ((← get).states.require q)

/-- What has been written before a refusal stays written. -/
def addEdge (e : Edge Symbol) : EStateM Error EntryTable Bool := do
  requireDeclared e.source
  requireDeclared e.target
  modify (·.openEntry e.key)
  let new := e.target ∉ (← get).targetsAt e.key
  modify (·.fillEntry e.key (.singleton e.target))
  return new

def extendAll (t : EntryTable) (l : List (Key Symbol × StateSet)) : EntryTable :=
  l.foldl (fun t x => t.extend x.1 x.2) t

/-- Takes the entries of the other table in the order of their keys; any order does (`extendAll_of_perm`). -/
def absorb (t u : EntryTable) : EntryTable := extendAll ⟨t.states ∪ u.states, t.targets⟩ u.targets.toList

/-! ## Reading -/

def symbols (t : EntryTable) : Alphabet := .ofSymbols (t.targets.keys.map Key.label)

def edges (t : EntryTable) : List (Edge Symbol) :=
  t.targets.toList.flatMap fun x => x.2.toList.map fun q => ⟨x.1.source, x.1.label, q⟩

def size (t : EntryTable) : Nat := (t.targets.toList.map fun x => x.2.size).sum

/-! ## What becomes of an entry -/

variable {t u : EntryTable} {k l : Key Symbol} {s : StateSet} {p q : State} {e : Edge Symbol}

theorem mem_targetsAt : q ∈ t.targetsAt k ↔ ∃ s, t.targets[k]? = some s ∧ q ∈ s := by
  unfold targetsAt
  cases t.targets[k]? <;> simp

theorem ext (hs : t.states = u.states) (ht : ∀ k : Key Symbol, t.targets[k]? = u.targets[k]?) : t = u := by
  cases t
  cases u
  obtain rfl := hs
  obtain rfl := Std.ExtTreeMap.ext_getElem? ht
  rfl

theorem getElem?_openEntry : (t.openEntry k).targets[l]? = if k = l then some (t.targetsAt k) else t.targets[l]? := by
  simp only [openEntry, targetsAt, Std.ExtTreeMap.getElem?_insertIfNew, Std.compare_eq_iff_eq,
    Std.ExtTreeMap.mem_iff_isSome_getElem?]
  by_cases hk : k = l
  · subst hk
    cases t.targets[k]? <;> simp
  · simp [hk]

theorem targetsAt_openEntry : (t.openEntry k).targetsAt l = t.targetsAt l := by
  unfold targetsAt
  rw [getElem?_openEntry]
  split
  · rename_i hk
    rw [hk]
    rfl
  · rfl

theorem getElem?_extend : (t.extend k s).targets[l]? = if k = l then some (t.targetsAt k ∪ s) else t.targets[l]? := by
  simp only [extend, fillEntry, Std.ExtTreeMap.getElem?_modify, Std.compare_eq_iff_eq, getElem?_openEntry]
  by_cases hk : k = l <;> simp [hk]

theorem mem_targetsAt_extend : q ∈ (t.extend k s).targetsAt l ↔ k = l ∧ q ∈ s ∨ q ∈ t.targetsAt l := by
  rw [targetsAt, getElem?_extend]
  by_cases hk : k = l
  · simp [hk, or_comm]
  · simp [hk, targetsAt]

theorem mem_targetsAt_put : q ∈ (t.put e).targetsAt k ↔ e.key = k ∧ q = e.target ∨ q ∈ t.targetsAt k := by
  rw [put, mem_targetsAt_extend, SortedSet.mem_singleton]

theorem getElem?_prune : (t.prune q).targets[k]? =
    (t.targets[k]?.map (·.erase q)).filter fun s => k.source ≠ q ∧ ¬ s.isEmpty := by
  rw [prune, Std.ExtTreeMap.getElem?_filter', Std.ExtTreeMap.getElem?_map]

theorem mem_targetsAt_prune : p ∈ (t.prune q).targetsAt k ↔ p ∈ t.targetsAt k ∧ k.source ≠ q ∧ p ≠ q := by
  simp only [targetsAt, getElem?_prune]
  cases t.targets[k]? with
  | none => simp
  | some s =>
    simp only [Option.map_some, Option.filter_some, Option.getD_some]
    split
    · rename_i h
      obtain ⟨hk, _⟩ := of_decide_eq_true h
      simp [hk]
    · -- an entry that goes starts at `q` or has no target but `q`
      rename_i h
      have hp : ¬ (p ∈ s ∧ k.source ≠ q ∧ p ≠ q) := fun ⟨hp, hk, hne⟩ =>
        h (decide_eq_true ⟨hk, fun he => SortedSet.isEmpty_iff.mp he p (SortedSet.mem_erase.mpr ⟨hp, hne⟩)⟩)
      exact iff_of_false SortedSet.not_mem_empty hp

theorem states_extendAll : ∀ {l : List (Key Symbol × StateSet)} {t : EntryTable}, (t.extendAll l).states = t.states
  | [], _ => rfl
  | x :: l, t => states_extendAll (l := l) (t := t.extend x.1 x.2)

theorem mem_targetsAt_extendAll : ∀ {l : List (Key Symbol × StateSet)} {t : EntryTable},
    q ∈ (t.extendAll l).targetsAt k ↔ (∃ s, (k, s) ∈ l ∧ q ∈ s) ∨ q ∈ t.targetsAt k
  | [], _ => by simp [extendAll]
  | x :: l, t => by
    refine (mem_targetsAt_extendAll (l := l) (t := t.extend x.1 x.2)).trans ?_
    rw [mem_targetsAt_extend]
    constructor
    · intro h
      rcases h with ⟨s, hs, hq⟩ | ⟨rfl, hq⟩ | hq
      · exact .inl ⟨s, List.mem_cons_of_mem _ hs, hq⟩
      · exact .inl ⟨x.2, List.mem_cons_self .., hq⟩
      · exact .inr hq
    · intro h
      rcases h with ⟨s, hs, hq⟩ | hq
      · rcases List.mem_cons.mp hs with rfl | hs
        · exact .inr (.inl ⟨rfl, hq⟩)
        · exact .inl ⟨s, hs, hq⟩
      · exact .inr (.inr hq)

theorem states_absorb : (t.absorb u).states = t.states ∪ u.states := states_extendAll

theorem mem_targetsAt_absorb : q ∈ (t.absorb u).targetsAt k ↔ q ∈ t.targetsAt k ∨ q ∈ u.targetsAt k := by
  have hu : q ∈ u.targetsAt k ↔ ∃ s, (k, s) ∈ u.targets.toList ∧ q ∈ s := by
    simp only [Std.ExtTreeMap.mem_toList_iff_getElem?_eq_some, mem_targetsAt]
  rw [absorb, mem_targetsAt_extendAll, hu, or_comm]
  rfl

theorem extend_right_comm {s' : StateSet} : (t.extend k s).extend l s' = (t.extend l s').extend k s := by
  refine ext rfl fun m => ?_
  simp only [getElem?_extend, targetsAt]
  by_cases hk : k = m <;> by_cases hl : l = m
  · subst hk hl
    simp only [if_true, Option.getD_some]
    exact congrArg some (SortedSet.ext fun q => by simp only [SortedSet.mem_union, or_assoc, or_comm (a := q ∈ s)])
  all_goals simp [hk, hl]

theorem extendAll_of_perm {l m : List (Key Symbol × StateSet)} (h : l.Perm m) : t.extendAll l = t.extendAll m :=
  h.foldl_eq' (fun _ _ _ _ _ => extend_right_comm) t

/-! ## The graph of a table -/

theorem mem_edges : e ∈ t.edges ↔ e.target ∈ t.targetsAt e.key := by
  simp only [edges, List.mem_flatMap, List.mem_map, mem_targetsAt, Prod.exists,
    Std.ExtTreeMap.mem_toList_iff_getElem?_eq_some]
  constructor
  · intro h
    obtain ⟨k, s, hk, q, hq, rfl⟩ := h
    exact ⟨s, hk, hq⟩
  · intro h
    obtain ⟨s, hk, hq⟩ := h
    exact ⟨e.key, s, hk, e.target, hq, rfl⟩

theorem nodup_edges : t.edges.Nodup := by
  unfold edges
  rw [List.nodup_flatMap]
  constructor
  · intro x _
    refine x.2.nodup_toList.map fun q r h => congrArg Edge.target h
  · refine t.targets.distinct_keys_toList.imp fun {x y} hne e hx hy => hne ?_
    obtain ⟨q, _, rfl⟩ := List.mem_map.mp hx
    obtain ⟨r, _, h⟩ := List.mem_map.mp hy
    obtain ⟨⟨_, _⟩, _⟩ := x
    cases h
    exact Std.compare_eq_iff_eq.mpr rfl

theorem size_eq : t.size = t.edges.length := by
  rw [edges, List.length_flatMap, size]
  simp only [List.length_map]
  rfl

def graph (t : EntryTable) : NondetGraph := ⟨t.states, .ofList t.edges⟩

theorem mem_edges_graph : e ∈ t.graph.edges ↔ e ∈ t.edges := SortedSet.mem_ofList

theorem mem_edges_graph_iff : e ∈ t.graph.edges ↔ e.target ∈ t.targetsAt e.key := mem_edges_graph.trans mem_edges

theorem graph_eq_iff : t.graph = u.graph ↔ t.states = u.states ∧ ∀ e, e ∈ t.edges ↔ e ∈ u.edges := by
  constructor
  · intro h
    refine ⟨congrArg Graph.states h, fun e => ?_⟩
    rw [← mem_edges_graph, h, mem_edges_graph]
  · intro h
    refine Graph.ext (fun q => ?_) fun e => ?_
    · show q ∈ t.states ↔ q ∈ u.states
      rw [h.1]
    · rw [mem_edges_graph, mem_edges_graph]
      exact h.2 e

theorem size_graph : t.graph.size = t.size := by
  rw [size_eq]
  exact SortedSet.size_ofList nodup_edges

theorem targets_graph {x : Symbol} : t.graph.targets p x = t.targetsAt ⟨p, x⟩ := by
  refine SortedSet.ext fun q => ?_
  rw [Graph.mem_targets, mem_edges_graph_iff]
  rfl

theorem graph_put : (t.put e).graph = t.graph.connect e := by
  refine Graph.ext (fun _ => Iff.rfl) fun f => ?_
  have hconnect : f ∈ (t.graph.connect e).edges ↔ f = e ∨ f ∈ t.graph.edges := SortedSet.mem_insert
  rw [hconnect, mem_edges_graph_iff, mem_edges_graph_iff, mem_targetsAt_put, Edge.eq_iff_key]

theorem graph_prune : (t.prune q).graph = t.graph.withdraw q := by
  refine Graph.ext (fun _ => Iff.rfl) fun f => ?_
  rw [Graph.mem_edges_withdraw, mem_edges_graph_iff, mem_edges_graph_iff, mem_targetsAt_prune]
  rfl

theorem graph_removeState : (t.removeState q).map id graph = t.graph.removeState q := by
  have hs : q ∈ t.graph.states ↔ q ∈ t.states := Iff.rfl
  unfold removeState Graph.removeState
  simp only [hs]
  split
  · rw [← graph_prune]
    rfl
  · rfl

theorem graph_absorb : (t.absorb u).graph = t.graph.absorb u.graph := by
  refine Graph.ext (fun q => ?_) fun e => ?_
  · show q ∈ (t.absorb u).states ↔ q ∈ t.states ∪ u.states
    rw [states_absorb]
  · rw [Graph.mem_edges_absorb, mem_edges_graph_iff, mem_edges_graph_iff, mem_edges_graph_iff, mem_targetsAt_absorb]

theorem mem_edges_absorb : e ∈ (t.absorb u).edges ↔ e ∈ t.edges ∨ e ∈ u.edges := by
  simp only [← mem_edges_graph, graph_absorb, Graph.mem_edges_absorb]

theorem foldl_put_eq_extendAll {l : List (Edge Symbol)} :
    l.foldl put t = t.extendAll (l.map fun e => (e.key, .singleton e.target)) := by
  rw [extendAll, List.foldl_map]
  rfl

theorem graph_ofEdges {s : List State} {l : List (Edge Symbol)} : (ofEdges s l).graph = ⟨.ofList s, .ofList l⟩ := by
  have hput : ofEdges s l = extendAll (ofStates (.ofList s)) (l.map fun e => (e.key, .singleton e.target)) :=
    foldl_put_eq_extendAll
  refine Graph.ext (fun q => ?_) fun e => ?_
  · show q ∈ (ofEdges s l).states ↔ q ∈ SortedSet.ofList s
    rw [hput, states_extendAll]
    rfl
  · have hempty : e.target ∉ (ofStates (.ofList s)).targetsAt e.key := by simp [targetsAt, ofStates]
    rw [mem_edges_graph_iff, hput, mem_targetsAt_extendAll, or_iff_left hempty, SortedSet.mem_ofList]
    simp only [List.mem_map, Prod.mk.injEq]
    constructor
    · intro h
      obtain ⟨_, ⟨f, hf, hk, rfl⟩, ht⟩ := h
      rwa [Edge.eq_iff_key.mpr ⟨hk, SortedSet.mem_singleton.mp ht⟩]
    · intro h
      exact ⟨_, ⟨e, h, rfl, rfl⟩, SortedSet.mem_singleton.mpr rfl⟩

theorem states_ofEdges {s : List State} {l : List (Edge Symbol)} : (ofEdges s l).states = .ofList s :=
  congrArg Graph.states graph_ofEdges

theorem mem_edges_ofEdges {s : List State} {l : List (Edge Symbol)} : e ∈ (ofEdges s l).edges ↔ e ∈ l := by
  rw [← mem_edges_graph, graph_ofEdges, SortedSet.mem_ofList]

/-! ## Adding an edge in place -/

theorem requireDeclared_apply : requireDeclared q t = if q ∈ t.states then .ok () t else .error (.unknownState q) t := by
  have hget : (get : EStateM Error EntryTable EntryTable) t = .ok t t := rfl
  simp only [requireDeclared, StateSet.require, bind, EStateM.bind, hget]
  by_cases hq : q ∈ t.states
  · simp only [hq, if_true]
    rfl
  · simp only [hq, if_false]
    rfl

/-- What is left in place is what the graph comes to, and after a refusal the table itself. -/
theorem addEdge_apply : addEdge e t = match t.graph.addEdge e with
    | .ok (new, _) => .ok new (t.put e)
    | .error err => .error err t := by
  have hnew : decide (e.target ∉ (t.openEntry e.key).targetsAt e.key) = decide (e ∉ t.graph.edges) := by
    rw [targetsAt_openEntry]
    exact decide_eq_decide.mpr (not_congr mem_edges_graph_iff.symm)
  have hstates : t.graph.states = t.states := rfl
  by_cases hs : e.source ∈ t.states
  · by_cases ht : e.target ∈ t.states
    · have hw : e.Within t.graph.states := ⟨hs, ht⟩
      rw [NondetGraph.addEdge_of_within hw, ← hnew]
      simp only [addEdge, bind, EStateM.bind, requireDeclared_apply, hs, ht, if_true]
      rfl
    · have hw : ¬ e.Within t.graph.states := fun h => ht h.2
      rw [NondetGraph.addEdge_of_not_within hw]
      simp only [addEdge, bind, EStateM.bind, requireDeclared_apply, hstates, hs, ht, if_true, if_false]
  · have hw : ¬ e.Within t.graph.states := fun h => hs h.1
    rw [NondetGraph.addEdge_of_not_within hw]
    simp only [addEdge, bind, EStateM.bind, requireDeclared_apply, hstates, hs, if_false]

/-- So an automaton whose table is edited in place is left as `Automaton.perform` leaves it. -/
theorem perform_addEdge {a : Automaton} :
    Automaton.perform (.addEdge e) { a with table := .nondet t.graph } = match addEdge e t with
      | .ok _ u => .ok () { a with table := .nondet u.graph }
      | .error err u => .error err { a with table := .nondet u.graph } := by
  rw [Automaton.perform_apply, addEdge_apply, Automaton.edit, Automaton.addEdge, Table.addEdge]
  by_cases hw : e.Within t.graph.states
  · rw [NondetGraph.addEdge_of_within hw, ← graph_put]
    rfl
  · rw [NondetGraph.addEdge_of_not_within hw]
    rfl

/-! ## No entry stays empty -/

def Tidy (t : EntryTable) : Prop := ∀ k : Key Symbol, t.targets[k]? ≠ some ∅

/-- An entry that is left empty shows: its character is on no edge. -/
example : ((ofStates ∅).openEntry ⟨⟨0⟩, .char 'x'⟩).symbols = .singleton 'x' ∧
    ((ofStates ∅).openEntry ⟨⟨0⟩, .char 'x'⟩).edges = [] := by decide

theorem tidy_ofStates : (ofStates s).Tidy := by simp [Tidy, ofStates]

theorem Tidy.extend (h : t.Tidy) (hs : s ≠ ∅) : (t.extend k s).Tidy := by
  intro l hl
  rw [getElem?_extend] at hl
  split at hl
  · obtain ⟨q, hq⟩ := SortedSet.ne_empty_iff.mp hs
    have hq : q ∈ t.targetsAt k ∪ s := SortedSet.mem_union.mpr (.inr hq)
    rw [Option.some.inj hl] at hq
    exact SortedSet.not_mem_empty hq
  · exact h l hl

theorem Tidy.put (h : t.Tidy) (e : Edge Symbol) : (t.put e).Tidy :=
  h.extend SortedSet.singleton_ne_empty

/-- Whatever the table was before: the entries left empty go. -/
theorem tidy_prune : (t.prune q).Tidy := by
  intro k hk
  rw [getElem?_prune, Option.filter_eq_some_iff] at hk
  obtain ⟨_, hn⟩ := of_decide_eq_true hk.2
  exact hn rfl

theorem Tidy.extendAll : ∀ {l : List (Key Symbol × StateSet)} {t : EntryTable}, t.Tidy → (∀ x ∈ l, x.2 ≠ ∅) →
    (t.extendAll l).Tidy
  | [], _, h, _ => h
  | x :: l, _, h, hl =>
    Tidy.extendAll (l := l) (h.extend (hl x (List.mem_cons_self ..))) fun y hy => hl y (List.mem_cons_of_mem _ hy)

theorem tidy_ofEdges {s : List State} {l : List (Edge Symbol)} : (ofEdges s l).Tidy := by
  rw [ofEdges, foldl_put_eq_extendAll]
  refine tidy_ofStates.extendAll fun x hx => ?_
  obtain ⟨e, _, rfl⟩ := List.mem_map.mp hx
  exact SortedSet.singleton_ne_empty

theorem Tidy.absorb (ht : t.Tidy) (hu : u.Tidy) : (t.absorb u).Tidy := by
  have ht : (mk (t.states ∪ u.states) t.targets).Tidy := ht
  -- only an empty entry of the other table could leave one behind
  refine ht.extendAll fun x hx he => ?_
  obtain ⟨k, s⟩ := x
  obtain rfl : s = ∅ := he
  exact hu k (Std.ExtTreeMap.mem_toList_iff_getElem?_eq_some.mp hx)

theorem Tidy.removeState (h : t.Tidy) : (t.removeState q).2.Tidy := by
  unfold EntryTable.removeState
  split
  · exact tidy_prune
  · exact h

theorem mem_keys (h : t.Tidy) : k ∈ t.targets.keys ↔ ∃ q, q ∈ t.targetsAt k := by
  rw [Std.ExtTreeMap.mem_keys, Std.ExtTreeMap.mem_iff_isSome_getElem?, Option.isSome_iff_exists]
  simp only [mem_targetsAt]
  constructor
  · intro hk
    obtain ⟨s, hs⟩ := hk
    obtain ⟨q, hq⟩ := SortedSet.ne_empty_iff.mp fun he => h k (hs.trans (congrArg some he))
    exact ⟨q, s, hs, hq⟩
  · intro hk
    obtain ⟨_, s, hs, _⟩ := hk
    exact ⟨s, hs⟩

theorem Tidy.symbols_graph (h : t.Tidy) : t.graph.symbols = t.symbols := by
  refine SortedSet.ext fun c => ?_
  rw [NondetGraph.mem_symbols, symbols, Alphabet.mem_ofSymbols, List.mem_map]
  simp only [mem_keys h, mem_edges_graph_iff]
  constructor
  · intro hc
    obtain ⟨e, he, hc⟩ := hc
    exact ⟨e.key, ⟨_, he⟩, hc⟩
  · intro hc
    obtain ⟨k, ⟨q, hq⟩, hc⟩ := hc
    exact ⟨⟨k.source, k.label, q⟩, hq, hc⟩

theorem Tidy.mem_symbols {c : Char} (h : t.Tidy) : c ∈ t.symbols ↔ ∃ e ∈ t.edges, e.label = .char c := by
  rw [← h.symbols_graph, NondetGraph.mem_symbols]
  simp only [mem_edges_graph]

theorem Tidy.eq_of_graph_eq (ht : t.Tidy) (hu : u.Tidy) (h : t.graph = u.graph) : t = u := by
  refine ext (congrArg Graph.states h) fun k => ?_
  have hat : t.targetsAt k = u.targetsAt k := by rw [← targets_graph, h, targets_graph]
  have hnt := ht k
  have hnu := hu k
  unfold targetsAt at hat
  cases htk : t.targets[k]? <;> cases huk : u.targets[k]? <;> simp_all

end EntryTable

end Automata
