import Automata.Proofs.StateLimit

/-!
# The subset construction with a work list

A set that joins the queue stops being nameless, so each turn of the loop leaves fewer
sets that are nameless or in the queue (`remaining_turn`).
-/

namespace Automata

/-- Besides what is named and the queue, there is a record of what has joined the queue and of what has left it. -/
structure Construction where
  alloc : Allocator
  named : List (StateSet × State)
  table : DetGraph
  finals : StateSet
  queue : List (StateSet × State)
  enqueued : List (StateSet × State)
  dequeued : List (StateSet × State)

namespace Construction

variable {k : Construction} {s : StateSet} {q r : State} {accepting : Bool} {m : Allocator}

def empty (m : Allocator) : Construction := ⟨m, [], default, ∅, [], [], []⟩

def assign (k : Construction) (s : StateSet) (q : State) (accepting : Bool) (m : Allocator) : Construction where
  alloc := m
  named := k.named ++ [(s, q)]
  table := k.table.declare q
  finals := if accepting then k.finals.insert q else k.finals
  queue := k.queue ++ [(s, q)]
  enqueued := k.enqueued ++ [(s, q)]
  dequeued := k.dequeued

def take (k : Construction) (p : StateSet × State) (queue : List (StateSet × State)) : Construction :=
  { k with queue, dequeued := k.dequeued ++ [p] }

def sets (k : Construction) : List StateSet := k.named.map Prod.fst

def names (k : Construction) : List State := k.named.map Prod.snd

theorem length_sets : k.sets.length = k.named.length := List.length_map ..

theorem length_named_assign : (k.assign s q accepting m).named.length = k.named.length + 1 := List.length_append

@[simp] theorem sets_assign : (k.assign s q accepting m).sets = k.sets ++ [s] := List.map_append

theorem names_assign : (k.assign s q accepting m).names = k.names ++ [q] := List.map_append

theorem mem_finals_assign : r ∈ (k.assign s q accepting m).finals ↔ r ∈ k.finals ∨ r = q ∧ accepting := by
  cases accepting with
  | false => simp [assign]
  | true => simp [assign, or_comm]

theorem lookup_eq_none : k.named.lookup s = none ↔ s ∉ k.sets := by
  rw [List.lookup_eq_none_iff]
  refine ⟨fun h hs => ?_, fun h p hp => bne_iff_ne.mpr fun hs => ?_⟩
  · obtain ⟨p, hp, rfl⟩ := List.mem_map.mp hs
    simpa using h p hp
  · exact h (List.mem_map.mpr ⟨p, hp, hs.symm⟩)

theorem mem_of_lookup (h : k.named.lookup s = some q) : (s, q) ∈ k.named := by
  obtain ⟨l, m, h, _⟩ := List.lookup_eq_some_iff.mp h
  rw [h]
  simp

/-- How many sets have no name, and how many are in the queue. -/
noncomputable def remaining (k : Construction) : Nat := {s | s ∉ k.sets}.ncard + k.queue.length

theorem remaining_assign (hs : s ∉ k.sets) : (k.assign s q accepting m).remaining = k.remaining := by
  have hsets : {t | t ∉ (k.assign s q accepting m).sets} = {t | t ∉ k.sets} \ {s} := Set.ext fun t => by simp
  have hcard : ({t | t ∉ k.sets} \ {s}).ncard + 1 = {t | t ∉ k.sets}.ncard :=
    Set.ncard_sdiff_singleton_add_one hs
  have hqueue : (k.assign s q accepting m).queue.length = k.queue.length + 1 := List.length_append
  unfold remaining
  rw [hsets, hqueue]
  omega

end Construction

abbrev Constructing := EStateM Fault Construction

namespace Automaton

variable {a : Automaton} {limit : Option Nat}

/-! ## The loop -/

/-- A set without a state gets the next one of the allocator, but only up to the limit. -/
def stateOf (a : Automaton) (limit : Option Nat) (s : StateSet) : Constructing State := fun k =>
  match k.named.lookup s with
  | some q => .ok q k
  | none =>
    match limit.filter (· ≤ k.named.length) with
    | some n => .error (.refused (.tooManyStates n)) k
    | none =>
      match Allocator.mint k.alloc with
      | .ok q m => .ok q (k.assign s q (a.accepting s) m)
      | .error e m => .error e { k with alloc := m }

def record (e : Edge Symbol) : Constructing Unit := fun k =>
  match k.table.addEdge e with
  | .ok (_, g) => .ok () { k with table := g }
  | .error e => .error (.refused e) k

def follow (a : Automaton) (limit : Option Nat) (s : StateSet) (q : State) : List Char → Constructing Unit
  | [] => pure ()
  | c :: l => do
    let r ← a.stateOf limit (a.graph.move s (.char c))
    record ⟨q, .char c, r⟩
    a.follow limit s q l

theorem stateOf_remaining (s : StateSet) (k : Construction) :
    Meets (a.stateOf limit s) k (fun _ k' => k'.remaining = k.remaining) fun _ _ => True := by
  unfold Meets stateOf
  cases hs : k.named.lookup s with
  | some q => rfl
  | none =>
    cases limit.filter (· ≤ k.named.length) with
    | some n => trivial
    | none =>
      cases Allocator.mint k.alloc with
      | ok q m => exact Construction.remaining_assign (Construction.lookup_eq_none.mp hs)
      | error e m => trivial

theorem record_remaining (e : Edge Symbol) (k : Construction) :
    Meets (record e) k (fun _ k' => k'.remaining = k.remaining) fun _ _ => True := by
  unfold Meets record
  cases k.table.addEdge e with
  | ok x => rfl
  | error e => trivial

theorem follow_remaining (s : StateSet) (q : State) : ∀ (l : List Char) (k : Construction),
    Meets (a.follow limit s q l) k (fun _ k' => k'.remaining = k.remaining) fun _ _ => True
  | [], _ => rfl
  | c :: l, k => by
    refine (stateOf_remaining _ k).bind fun r k₁ h₁ => ?_
    refine (record_remaining _ k₁).bind fun _ k₂ h₂ => ?_
    rw [← h₁, ← h₂]
    exact follow_remaining s q l k₂

theorem remaining_turn {queue : List (StateSet × State)} {k k' : Construction} {s : StateSet} {q : State}
    {l : List Char} (hq : k.queue = (s, q) :: queue)
    (h : a.follow limit s q l (k.take (s, q) queue) = .ok () k') : k'.remaining < k.remaining := by
  rw [(follow_remaining s q l _).of_ok h]
  unfold Construction.remaining
  rw [hq, List.length_cons]
  exact Nat.lt_succ_self _

def loop (a : Automaton) (limit : Option Nat) : Constructing Unit := fun k =>
  match _ : k.queue with
  | [] => .ok () k
  | (s, q) :: queue =>
    match _ : a.follow limit s q a.symbols.toList (k.take (s, q) queue) with
    | .ok () k' => a.loop limit k'
    | .error e k' => .error e k'
termination_by k => k.remaining
decreasing_by exact remaining_turn ‹_› ‹_›

section
variable {k k' : Construction} {s : StateSet} {q : State} {queue : List (StateSet × State)}
variable {I : Construction → Prop} {E : Fault → Construction → Prop}

theorem loop_of_nil (hq : k.queue = []) : a.loop limit k = .ok () k := by
  rw [loop]
  split
  · rfl
  · rename_i h
    rw [hq] at h
    cases h

theorem loop_of_cons (hq : k.queue = (s, q) :: queue) :
    a.loop limit k = (do a.follow limit s q a.symbols.toList; a.loop limit) (k.take (s, q) queue) := by
  rw [loop]
  simp only [Bind.bind, EStateM.bind]
  split <;> rename_i h
  · rw [hq] at h
    cases h
  · rw [hq] at h
    cases h
    split <;> rename_i hf <;> rw [hf]

theorem loop_meets (hturn : ∀ k s q queue, I k → k.queue = (s, q) :: queue →
      Meets (a.follow limit s q a.symbols.toList) (k.take (s, q) queue) (fun _ => I) E) (k : Construction) (hk : I k) :
    Meets (a.loop limit) k (fun _ k' => I k' ∧ k'.queue = []) E := by
  unfold Meets
  induction k using loop.induct a limit with
  | case1 k hq =>
    rw [loop_of_nil hq]
    exact ⟨hk, hq⟩
  | case2 k s q queue hq k' hf ih =>
    rw [loop_of_cons hq]
    simp only [Bind.bind, EStateM.bind, hf]
    exact ih ((hturn k s q queue hk hq).of_ok hf)
  | case3 k s q queue hq e k' hf =>
    rw [loop_of_cons hq]
    simp only [Bind.bind, EStateM.bind, hf]
    exact (hturn k s q queue hk hq).of_error hf

end

end Automaton

end Automata
