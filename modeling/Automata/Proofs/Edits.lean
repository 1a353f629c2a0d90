import Automata.Automaton

/-!
# Edits

The edits of an automaton, each on its own (`edit`) and carried out in place (`perform`),
where what has been written before a refusal stays written.
-/

namespace Automata

namespace DetGraph

variable {g : DetGraph} {q : State} {e : Edge Char}

theorem toNondet_withdraw : (g.withdraw q).toNondet = Graph.withdraw g.toNondet q := by
  refine Graph.ext (fun _ => Iff.rfl) fun e => ?_
  obtain ⟨p, x, r⟩ := e
  rw [mem_edges_toNondet, Graph.mem_edges_withdraw, mem_edges_toNondet]
  constructor
  · intro h
    obtain ⟨c, hx, he⟩ := h
    obtain ⟨he, hp, hr⟩ := Graph.mem_edges_withdraw.mp he
    exact ⟨⟨c, hx, he⟩, hp, hr⟩
  · intro h
    obtain ⟨⟨c, hx, he⟩, hp, hr⟩ := h
    exact ⟨c, hx, Graph.mem_edges_withdraw.mpr ⟨he, hp, hr⟩⟩

theorem addEdge_char_eq_ok {p r : State} {c : Char} {x : Option State × DetGraph}
    (h : g.addEdge ⟨p, .char c, r⟩ = .ok x) :
    (p ∈ g.states ∧ r ∈ g.states) ∧ x = (g.target? p c, g.direct ⟨p, c, r⟩) := by
  unfold addEdge StateSet.require at h
  by_cases hp : p ∈ g.states
  · by_cases hr : r ∈ g.states
    · simp only [hp, hr, if_true] at h
      cases h
      exact ⟨⟨hp, hr⟩, rfl⟩
    · simp only [hp, hr, if_true, if_false] at h
      cases h
  · simp only [hp, if_false] at h
    cases h

end DetGraph

namespace Table

variable {t t' : Table} {q : State} {e : Edge Symbol}

theorem toNondet_addState : ∀ {t : Table}, (t.addState q).2.toNondet = Graph.declare t.toNondet q
  | det _ => rfl
  | nondet _ => rfl

theorem removeState_of_declared (hq : q ∈ t.states) :
    (t.removeState q).1 = true ∧ (t.removeState q).2.toNondet = Graph.withdraw t.toNondet q := by
  cases t with
  | det g =>
    rw [removeState, DetGraph.removeState_of_declared hq]
    exact ⟨rfl, DetGraph.toNondet_withdraw⟩
  | nondet g =>
    rw [removeState, Graph.removeState_of_declared hq]
    exact ⟨rfl, rfl⟩

theorem removeState_of_undeclared (hq : q ∉ t.states) : t.removeState q = (false, t) := by
  cases t with
  | det g =>
    rw [removeState, DetGraph.removeState_of_undeclared hq]
    rfl
  | nondet g =>
    rw [removeState, Graph.removeState_of_undeclared hq]
    rfl

theorem addEdge_eq_ok (h : t.addEdge e = .ok t') :
    e.Within t.states ∧ t'.states = t.states ∧ ∀ f ∈ t'.toNondet.edges, f = e ∨ f ∈ t.toNondet.edges := by
  cases t with
  | det g =>
    obtain ⟨p, x, r⟩ := e
    cases x with
    | epsilon => cases h
    | char c =>
      rw [addEdge] at h
      cases hg : g.addEdge ⟨p, .char c, r⟩ with
      | error err =>
        rw [hg] at h
        cases h
      | ok y =>
        obtain ⟨hw, rfl⟩ := DetGraph.addEdge_char_eq_ok hg
        rw [hg] at h
        cases h
        refine ⟨hw, rfl, fun f hf => ?_⟩
        obtain ⟨p', x, r'⟩ := f
        obtain ⟨c', rfl, hd⟩ := DetGraph.mem_edges_toNondet.mp hf
        rcases DetGraph.mem_edges_direct.mp hd with hf | ⟨hf, _⟩
        · cases hf
          exact .inl rfl
        · exact .inr (DetGraph.mem_edges_toNondet.mpr ⟨c', rfl, hf⟩)
  | nondet g =>
    by_cases hw : e.Within g.states
    · rw [addEdge, NondetGraph.addEdge_of_within hw] at h
      cases h
      exact ⟨hw, rfl, fun f hf => SortedSet.mem_insert.mp hf⟩
    · rw [addEdge, NondetGraph.addEdge_of_not_within hw] at h
      cases h

theorem functional_of_isDet : ∀ {t : Table}, t.isDet →
    (∀ e ∈ t.edges, e.label ≠ .epsilon) ∧
      ∀ p c q r, ⟨p, .char c, q⟩ ∈ t.edges → ⟨p, .char c, r⟩ ∈ t.edges → q = r
  | det g, _ => by
    constructor
    · intro e he hx
      obtain ⟨p, x, q⟩ := e
      obtain ⟨c, hc, _⟩ := DetGraph.mem_edges_toNondet.mp he
      rw [hc] at hx
      cases hx
    · intro p c q r hq hr
      obtain ⟨_, hc, hq⟩ := DetGraph.mem_edges_toNondet.mp hq
      cases hc
      obtain ⟨_, hc, hr⟩ := DetGraph.mem_edges_toNondet.mp hr
      cases hc
      exact congrArg Edge.target (g.functional _ hq _ hr rfl rfl)

end Table

namespace Automaton

variable {a b : Automaton} {err : Error}

/-! ## Edits -/

inductive Edit
  | addState (q : State)
  | removeState (q : State)
  | setInitial (q : State)
  | dropInitial
  | addFinal (q : State)
  | dropFinal (q : State)
  | addEdge (e : Edge Symbol)
  | setOptions (o : Options)

variable {e : Edit}

def edit (a : Automaton) : Edit → Except Error Automaton
  | .addState q => .ok (a.addState q).2
  | .removeState q => a.removeState q
  | .setInitial q => a.setInitial q
  | .dropInitial => .ok a.dropInitial.2
  | .addFinal q => a.addFinal q
  | .dropFinal q => a.dropFinal q
  | .addEdge e => a.addEdge e
  | .setOptions o => .ok (a.setOptions o)

def guarded {α : Type} (check : Automaton → Except Error α) (write : α → Automaton → Automaton) :
    EStateM Error Automaton Unit := do
  let x ← MonadExcept.ofExcept (check (← get))
  modify (write x)

/-- The edit carried out in place, one part of the automaton after the other. What has been written before
a refusal stays written. -/
def perform : Edit → EStateM Error Automaton Unit
  | .addState q => modify fun a => { a with table := (a.table.addState q).2 }
  | .removeState q => do
    let (found, t) := (← get).table.removeState q
    modify fun a => { a with table := t }
    unless found do throw (.unknownState q)
    modify fun a => { a with initial := if a.initial = some q then none else a.initial }
    modify fun a => { a with finals := a.finals.erase q }
  | .setInitial q => guarded (·.states.require q) fun _ a => { a with initial := some q }
  | .dropInitial => modify fun a => { a with initial := none }
  | .addFinal q => guarded (·.states.require q) fun _ a => { a with finals := a.finals.insert q }
  | .dropFinal q => guarded (·.states.require q) fun _ a => { a with finals := a.finals.erase q }
  -- what the table itself writes here is in `EntryTable.perform_addEdge`
  | .addEdge e => guarded (·.table.addEdge e) fun t a => { a with table := t }
  | .setOptions o => modify fun a => { a with options := o }

theorem guarded_apply {α : Type} {check : Automaton → Except Error α} {write : α → Automaton → Automaton} :
    guarded check write a = match (do return write (← check a) a : Except Error Automaton) with
      | .ok b => .ok () b
      | .error err => .error err a := by
  unfold guarded
  have hget : (get : EStateM Error Automaton Automaton) a = .ok a a := rfl
  simp only [bind, EStateM.bind, hget]
  cases check a with
  | ok x => rfl
  | error err => rfl

theorem perform_apply : ∀ {e : Edit}, perform e a = match a.edit e with
    | .ok b => .ok () b
    | .error err => .error err a
  | .removeState q => by
    have hget : (get : EStateM Error Automaton Automaton) a = .ok a a := rfl
    simp only [perform, edit, removeState, bind, EStateM.bind, hget]
    by_cases hq : q ∈ a.table.states
    · obtain ⟨h, _⟩ := Table.removeState_of_declared hq
      cases hr : a.table.removeState q with
      | mk found t =>
        rw [hr] at h
        obtain rfl : found = true := h
        rfl
    · rw [Table.removeState_of_undeclared hq]
      rfl
  | .setInitial _ | .addFinal _ | .dropFinal _ | .addEdge _ => guarded_apply
  | .addState _ | .dropInitial | .setOptions _ => rfl

theorem perform_eq_ok (h : perform e a = .ok () b) : a.edit e = .ok b := by
  rw [perform_apply] at h
  cases he : a.edit e with
  | ok c =>
    rw [he] at h
    cases h
    rfl
  | error err =>
    rw [he] at h
    cases h

theorem perform_eq_error (h : perform e a = .error err b) : b = a := by
  rw [perform_apply] at h
  cases he : a.edit e with
  | ok c =>
    rw [he] at h
    cases h
  | error err =>
    rw [he] at h
    cases h
    rfl

end Automaton

end Automata
