import Automata.Proofs.KeyedTables

/-! # Histories of the two kinds of table -/

namespace Automata

structure Reading where
  states : StateSet
  edges : SortedSet (Edge Symbol)
  symbols : Alphabet
  size : Nat
  successors : State → Symbol → StateSet

def Table.reading (t : Table) : Reading := ⟨t.states, t.edges, t.symbols, t.size, t.successors⟩

/-- An edge that is added is answered by whether it is new, which in a deterministic table it is if no target was
replaced. -/
class TableKind (X : Type) where
  addState : X → State → Bool × X
  removeState : X → State → Bool × X
  addEdge : X → Edge Symbol → Except Error (Bool × X)
  reading : X → Reading

instance : TableKind DetGraph where
  addState := DetGraph.addState
  removeState := DetGraph.removeState
  addEdge g e := (g.addEdge e).map (Prod.map Option.isNone id)
  reading g := (Table.det g).reading

instance : TableKind NondetGraph where
  addState := Graph.addState
  removeState := Graph.removeState
  addEdge := NondetGraph.addEdge
  reading g := (Table.nondet g).reading

instance : TableKind DetTable where
  addState := DetTable.addState
  removeState := DetTable.removeState
  addEdge t e := (t.addEdge e).map (Prod.map Option.isNone id)
  reading t := ⟨t.states, .ofList t.edges, t.symbols, t.size, t.successors⟩

instance : TableKind NondetTable where
  addState := NondetTable.addState
  removeState := NondetTable.removeState
  addEdge := NondetTable.addEdge
  reading t := ⟨t.states, .ofList t.edges, t.symbols, t.size, fun p x => t.targetsAt ⟨p, x⟩⟩

inductive TableEdit
  | addState (q : State)
  | removeState (q : State)
  | addEdge (p : State) (c : Char) (q : State)

/-- The deterministic kind refuses an epsilon edge, and may give up a target for another. -/
inductive Change
  | addState (q : State)
  | removeState (q : State)
  | addEdge (e : Edge Symbol)

namespace TableKind

variable {X Y : Type} [TableKind X] [TableKind Y]

def perform (t : X) : TableEdit → Except Error Bool × X
  | .addState q => (addState t q).map .ok id
  | .removeState q => (removeState t q).map .ok id
  | .addEdge p c q =>
    match addEdge t ⟨p, .char c, q⟩ with
    | .ok (new, u) => (.ok new, u)
    | .error err => (.error err, t)

def after (t : X) (l : List TableEdit) : X := l.foldl (fun t e => (perform t e).2) t

def change (t : X) : Change → X
  | .addState q => (addState t q).2
  | .removeState q => (removeState t q).2
  | .addEdge e =>
    match addEdge t e with
    | .ok (_, u) => u
    | .error _ => t

def changed (t : X) (l : List Change) : X := l.foldl change t

structure Carries (f : X → Y) : Prop where
  addState : ∀ t q, (addState t q).map id f = addState (f t) q
  removeState : ∀ t q, (removeState t q).map id f = removeState (f t) q
  addEdge : ∀ t e, (addEdge t e).map (Prod.map id f) = addEdge (f t) e
  reading : ∀ t, reading (f t) = reading t

namespace Carries

variable {f : X → Y}

theorem perform (h : Carries f) (t : X) : ∀ e, perform (f t) e = (perform t e).map id f
  | .addState q => by
    simp only [TableKind.perform, ← h.addState]
    rfl
  | .removeState q => by
    simp only [TableKind.perform, ← h.removeState]
    rfl
  | .addEdge p c q => by
    simp only [TableKind.perform, ← h.addEdge]
    cases TableKind.addEdge t ⟨p, .char c, q⟩ <;> rfl

theorem after (h : Carries f) : ∀ (l : List TableEdit) (t : X), f (after t l) = after (f t) l
  | [], _ => rfl
  | e :: l, t => by
    refine (h.after l _).trans ?_
    simp only [TableKind.after, List.foldl_cons, h.perform]
    rfl

theorem change (h : Carries f) (t : X) : ∀ x, f (change t x) = change (f t) x
  | .addState q => congrArg Prod.snd (h.addState t q)
  | .removeState q => congrArg Prod.snd (h.removeState t q)
  | .addEdge e => by
    simp only [TableKind.change, ← h.addEdge]
    cases TableKind.addEdge t e <;> rfl

theorem changed (h : Carries f) : ∀ (l : List Change) (t : X), f (changed t l) = changed (f t) l
  | [], _ => rfl
  | x :: l, t => by
    refine (h.changed l _).trans ?_
    rw [h.change]
    rfl

end Carries

end TableKind

open TableKind

/-! ## Tables by key are graphs -/

theorem DetTable.graph_ofStates {s : StateSet} : (ofStates s).graph = .ofStates s := rfl

theorem DetTable.carries_graph : Carries DetTable.graph where
  addState _ _ := graph_addState
  removeState _ _ := graph_removeState
  addEdge t e := by
    show ((t.addEdge e).map _).map _ = (t.graph.addEdge e).map _
    rw [← graph_addEdge]
    cases t.addEdge e <;> rfl
  reading t := by
    have he : t.graph.toNondet.edges = .ofList t.edges := by
      rw [← graph_toNondet]
      exact congrArg Graph.edges EntryTable.graph_ofEdges
    have hx : (Table.det t.graph).successors = t.successors := funext fun _ => funext fun _ => successors_graph
    show Reading.mk t.states t.graph.toNondet.edges t.graph.symbols t.graph.size (Table.det t.graph).successors = _
    rw [he, hx, symbols_graph, size_graph]
    rfl

theorem NondetTable.graph_ofStates {s : StateSet} : (ofStates s).graph = .ofStates s := rfl

theorem NondetTable.carries_graph : Carries NondetTable.graph where
  addState _ _ := graph_addState
  removeState _ _ := graph_removeState
  addEdge _ _ := graph_addEdge
  reading t := by
    have hx : (Table.nondet t.graph).successors = fun p x => t.targetsAt ⟨p, x⟩ :=
      funext fun _ => funext fun _ => EntryTable.targets_graph
    show Reading.mk t.states (.ofList t.edges) t.graph.symbols t.graph.size (Table.nondet t.graph).successors = _
    rw [hx, t.tidy.symbols_graph, EntryTable.size_graph]
    rfl

/-! ## Deterministic graphs are nondeterministic ones -/

namespace DetGraph

variable {g : DetGraph} {p q : State} {c : Char}

def Admits (g : DetGraph) : TableEdit → Prop
  | .addEdge p c q => p ∈ g.states ∧ q ∈ g.states → g.target? p c = none ∨ g.target? p c = some q
  | .addState _ | .removeState _ => True

instance (g : DetGraph) : ∀ e, Decidable (g.Admits e)
  | .addEdge p c q =>
    inferInstanceAs (Decidable (p ∈ g.states ∧ q ∈ g.states → g.target? p c = none ∨ g.target? p c = some q))
  | .addState _ | .removeState _ => inferInstanceAs (Decidable True)

theorem toNondet_ofStates {s : StateSet} : (ofStates s).toNondet = Graph.ofStates s := rfl

theorem toNondet_removeState : (g.removeState q).map id toNondet = Graph.removeState g.toNondet q := by
  by_cases hq : q ∈ g.states
  · have h : Graph.removeState g.toNondet q = _ := Graph.removeState_of_declared hq
    rw [removeState_of_declared hq, h, ← toNondet_withdraw]
    rfl
  · have h : Graph.removeState g.toNondet q = _ := Graph.removeState_of_undeclared hq
    rw [removeState_of_undeclared hq, h]
    rfl

theorem addEdge_char : g.addEdge ⟨p, .char c, q⟩ =
    (NondetGraph.addEdge g.toNondet ⟨p, .char c, q⟩).map fun _ => (g.target? p c, g.direct ⟨p, c, q⟩) := by
  have hs : g.toNondet.states = g.states := rfl
  unfold addEdge NondetGraph.addEdge
  simp only [hs]
  cases g.states.require p with
  | error err => rfl
  | ok _ => cases g.states.require q <;> rfl

section
variable (h : g.target? p c = none ∨ g.target? p c = some q)
include h

theorem isNone_target? : (g.target? p c).isNone = decide (⟨p, .char c, q⟩ ∉ g.toNondet.edges) := by
  have he : ⟨p, .char c, q⟩ ∈ g.toNondet.edges ↔ g.target? p c = some q := by
    rw [mem_edges_toNondet, target?_eq_some]
    simp
  simp only [he]
  rcases h with h | h <;> simp [h]

theorem toNondet_direct : (g.direct ⟨p, c, q⟩).toNondet = Graph.connect g.toNondet ⟨p, .char c, q⟩ := by
  refine Graph.ext (fun _ => Iff.rfl) fun e => ?_
  obtain ⟨p', x, q'⟩ := e
  refine mem_edges_toNondet.trans (Iff.trans ?_ SortedSet.mem_insert.symm)
  rw [mem_edges_toNondet]
  constructor
  · intro he
    obtain ⟨c', rfl, he⟩ := he
    rcases mem_edges_direct.mp he with he | ⟨he, _⟩
    · cases he
      exact .inl rfl
    · exact .inr ⟨c', rfl, he⟩
  · intro he
    rcases he with he | ⟨c', rfl, he⟩
    · cases he
      exact ⟨c, rfl, mem_edges_direct.mpr (.inl rfl)⟩
    refine ⟨c', rfl, mem_edges_direct.mpr ?_⟩
    by_cases hk : p' = p ∧ c' = c
    · obtain ⟨rfl, rfl⟩ := hk
      rcases h with hn | hq
      · exact absurd he (target?_eq_none.mp hn q')
      · rw [target?_eq_some.mpr he] at hq
        exact .inl (by rw [Option.some.inj hq])
    · exact .inr ⟨he, hk⟩

end

theorem perform_toNondet : ∀ {e : TableEdit}, g.Admits e → perform g.toNondet e = (perform g e).map id toNondet
  | .addState _, _ => rfl
  | .removeState q, _ => by
    show (Graph.removeState g.toNondet q).map Except.ok id = _
    rw [← toNondet_removeState]
    rfl
  | .addEdge p c q, h => by
    by_cases hw : Edge.Within ⟨p, Symbol.char c, q⟩ g.states
    · have h := h hw
      have hd : TableKind.addEdge g ⟨p, .char c, q⟩ = .ok ((g.target? p c).isNone, g.direct ⟨p, c, q⟩) := by
        show (g.addEdge _).map _ = _
        rw [addEdge_char, NondetGraph.addEdge_of_within hw]
        rfl
      have hn : TableKind.addEdge g.toNondet ⟨p, .char c, q⟩ = .ok _ := NondetGraph.addEdge_of_within hw
      simp only [perform, hd, hn, isNone_target? h, ← toNondet_direct h]
      rfl
    · have hn : TableKind.addEdge g.toNondet ⟨p, .char c, q⟩ = .error _ := NondetGraph.addEdge_of_not_within hw
      have hd : TableKind.addEdge g ⟨p, .char c, q⟩ = .error (.unknownState (if p ∈ g.states then q else p)) := by
        show (g.addEdge _).map _ = _
        rw [addEdge_char, NondetGraph.addEdge_of_not_within hw]
        rfl
      simp only [perform, hd, hn]
      rfl

theorem size_toNondet : Graph.size g.toNondet = g.size := by
  have hinj : Function.Injective fun e : Edge Char => (⟨e.source, .char e.label, e.target⟩ : Edge Symbol) := by
    intro e f h
    obtain ⟨_, _, _⟩ := e
    cases h
    rfl
  exact (SortedSet.size_ofList (g.edges.nodup_toList.map hinj)).trans (List.length_map _)

theorem targets_toNondet : ∀ {x : Symbol}, Graph.targets g.toNondet p x = (Table.det g).successors p x
  | .epsilon => by
    refine SortedSet.ext fun q => ?_
    rw [Graph.mem_targets, mem_edges_toNondet]
    exact iff_of_false (fun h => nomatch h) SortedSet.not_mem_empty
  | .char c => by
    refine SortedSet.ext fun q => ?_
    rw [Graph.mem_targets, mem_edges_toNondet, Table.successors, SortedSet.mem_ofList, Option.mem_toList,
      target?_eq_some]
    simp

theorem reading_toNondet : reading g.toNondet = reading g := by
  have hsymbols : (Table.nondet g.toNondet).symbols = (Table.det g).symbols := by
    refine SortedSet.ext fun c => ?_
    rw [Table.mem_symbols, Table.mem_symbols]
    rfl
  have hsuccessors : (Table.nondet g.toNondet).successors = (Table.det g).successors :=
    funext fun _ => funext fun _ => targets_toNondet
  show Reading.mk g.states g.toNondet.edges (Table.nondet g.toNondet).symbols (Graph.size g.toNondet)
    (Table.nondet g.toNondet).successors = _
  rw [hsymbols, hsuccessors, size_toNondet]
  rfl

end DetGraph

/-- No edit in turn would have the table give up a target. -/
def Unambiguous : DetGraph → List TableEdit → Prop
  | _, [] => True
  | g, e :: l => g.Admits e ∧ Unambiguous (perform g e).2 l

instance : ∀ (g : DetGraph) (l : List TableEdit), Decidable (Unambiguous g l)
  | _, [] => inferInstanceAs (Decidable True)
  | g, e :: l =>
    have := instDecidableUnambiguous (perform g e).2 l
    inferInstanceAs (Decidable (g.Admits e ∧ Unambiguous (perform g e).2 l))

theorem after_toNondet : ∀ {l : List TableEdit} {g : DetGraph}, Unambiguous g l →
    (after g l).toNondet = after g.toNondet l
  | [], _, _ => rfl
  | e :: l, g, h => by
    refine (after_toNondet h.2).trans ?_
    simp only [after, List.foldl_cons, DetGraph.perform_toNondet h.1]
    rfl

theorem NondetGraph.perform_eq_error {h : NondetGraph} {err : Error} : ∀ {e : TableEdit},
    (perform h e).1 = .error err → ∃ q, q ∉ h.states ∧ err = .unknownState q
  | .addEdge p c q, he => by
    by_cases hw : Edge.Within ⟨p, Symbol.char c, q⟩ h.states
    · have hn : TableKind.addEdge h ⟨p, .char c, q⟩ = .ok _ := addEdge_of_within hw
      simp only [perform, hn] at he
      cases he
    · have hn : TableKind.addEdge h ⟨p, .char c, q⟩ = .error _ := addEdge_of_not_within hw
      simp only [perform, hn] at he
      cases he
      refine ⟨_, ?_, rfl⟩
      split
      · rename_i hp
        exact fun hq => hw ⟨hp, hq⟩
      · assumption

/-- As long as no edge would replace another, the deterministic table and the nondeterministic one give the same answers
and hold the same edges, as graphs and by key. -/
theorem kinds_agree {s : StateSet} {l : List TableEdit} (hl : Unambiguous (.ofStates s) l)
    {g : DetGraph} (hg : after (DetGraph.ofStates s) l = g)
    {h : NondetGraph} (hh : after (Graph.ofStates s : NondetGraph) l = h)
    {t : DetTable} (ht : after (DetTable.ofStates s) l = t)
    {n : NondetTable} (hn : after (NondetTable.ofStates s) l = n) :
    (g.toNondet = h ∧ reading g = reading h ∧ ∀ e, g.Admits e → (perform g e).1 = (perform h e).1) ∧
      (∀ e err, (perform h e).1 = .error err → ∃ q, q ∉ h.states ∧ err = .unknownState q) ∧
      (t.graph = g ∧ n.graph = h) ∧
      (t.toNondet = n ∧ reading t = reading n ∧ ∀ e, g.Admits e → (perform t e).1 = (perform n e).1) := by
  have htg : t.graph = g := by rw [← ht, DetTable.carries_graph.after, DetTable.graph_ofStates, hg]
  have hnh : n.graph = h := by rw [← hn, NondetTable.carries_graph.after, NondetTable.graph_ofStates, hh]
  have hgh : g.toNondet = h := by rw [← hg, after_toNondet hl, DetGraph.toNondet_ofStates, hh]
  have hread : reading g = reading h := by rw [← hgh, DetGraph.reading_toNondet]
  have hanswer : ∀ e, g.Admits e → (perform g e).1 = (perform h e).1 := fun e he => by
    rw [← hgh, DetGraph.perform_toNondet he]
    rfl
  refine ⟨⟨hgh, hread, hanswer⟩, fun _ _ => NondetGraph.perform_eq_error, ⟨htg, hnh⟩, ?_, ?_, fun e he => ?_⟩
  · apply NondetTable.graph_injective
    rw [DetTable.graph_toNondet, htg, hgh, hnh]
  · rw [← DetTable.carries_graph.reading, ← NondetTable.carries_graph.reading, htg, hnh, hread]
  · have hperform := hanswer e he
    rw [← htg, ← hnh, DetTable.carries_graph.perform, NondetTable.carries_graph.perform] at hperform
    exact hperform

/-- An edge is added twice, one to a state that is not declared is refused, and once the target is removed
and declared again, the key is given another target. -/
def edgeReplaced : List TableEdit :=
  [.addEdge ⟨0⟩ 'x' ⟨1⟩, .addEdge ⟨0⟩ 'x' ⟨1⟩, .addEdge ⟨0⟩ 'y' ⟨2⟩, .removeState ⟨1⟩, .addState ⟨1⟩,
    .addEdge ⟨0⟩ 'x' ⟨0⟩]

theorem kinds_agree_edgeReplaced :
    Unambiguous (.ofStates (.ofList [⟨0⟩, ⟨1⟩])) edgeReplaced ∧
      ∃ (g : DetGraph) (h : NondetGraph) (t : DetTable) (n : NondetTable),
        (after (DetGraph.ofStates (.ofList [⟨0⟩, ⟨1⟩])) edgeReplaced = g ∧
          after (Graph.ofStates (.ofList [⟨0⟩, ⟨1⟩]) : NondetGraph) edgeReplaced = h ∧
          after (DetTable.ofStates (.ofList [⟨0⟩, ⟨1⟩])) edgeReplaced = t ∧
          after (NondetTable.ofStates (.ofList [⟨0⟩, ⟨1⟩])) edgeReplaced = n) ∧
        (g.toNondet = h ∧ reading g = reading h ∧ ∀ e, g.Admits e → (perform g e).1 = (perform h e).1) ∧
        (∀ e err, (perform h e).1 = .error err → ∃ q, q ∉ h.states ∧ err = .unknownState q) ∧
        (t.graph = g ∧ n.graph = h) ∧
        (t.toNondet = n ∧ reading t = reading n ∧ ∀ e, g.Admits e → (perform t e).1 = (perform n e).1) :=
  ⟨by decide, _, _, _, _, ⟨rfl, rfl, rfl, rfl⟩, kinds_agree (by decide) rfl rfl rfl rfl⟩

end Automata
