import Automata.Proofs.Traces
import Automata.Proofs.WellFormedness

/-!
# Withdrawing a state

A nondeterministic automaton without one of its states has the routes that did not visit
it, and no others.
-/

namespace Automata

def visited (p : State) (es : List (Edge Symbol)) : List State := p :: es.map Edge.target

theorem not_mem_visited_cons {p q : State} {e : Edge Symbol} {es : List (Edge Symbol)} :
    q ∉ visited p (e :: es) ↔ p ≠ q ∧ q ∉ visited e.target es := by
  simp [visited, eq_comm]

namespace NondetGraph

variable {g : NondetGraph} {p q r : State} {es : List (Edge Symbol)} {l : List Symbol}

/-- The edges follow one another from the first state to the last. -/
inductive Route (g : NondetGraph) : State → List (Edge Symbol) → State → Prop
  | nil (q : State) : Route g q [] q
  | cons {p q r : State} {x : Symbol} {es : List (Edge Symbol)} :
    ⟨p, x, q⟩ ∈ g.edges → Route g q es r → Route g p (⟨p, x, q⟩ :: es) r

theorem Route.trace (h : g.Route p es r) : g.Trace p (es.map Edge.label) r := by
  induction h with
  | nil q => exact .nil q
  | cons he _ ih => exact .cons he ih

theorem Trace.exists_route (h : g.Trace p l r) : ∃ es, g.Route p es r ∧ es.map Edge.label = l := by
  induction h with
  | nil q => exact ⟨[], .nil q, rfl⟩
  | @cons p q _ x _ he _ ih =>
    obtain ⟨es, hes, hl⟩ := ih
    exact ⟨⟨p, x, q⟩ :: es, .cons he hes, by rw [List.map_cons, hl]⟩

theorem Route.last_visited (h : g.Route p es r) : r ∈ visited p es := by
  induction h with
  | nil => exact List.mem_singleton_self _
  | cons _ _ ih => exact List.mem_cons_of_mem _ ih

theorem route_withdraw (hp : p ≠ q) :
    NondetGraph.Route (Graph.withdraw g q) p es r ↔ g.Route p es r ∧ q ∉ visited p es := by
  constructor
  · intro h
    induction h with
    | nil p => exact ⟨.nil p, by simpa [visited] using hp.symm⟩
    | cons he _ ih =>
      obtain ⟨he, hs, ht⟩ := Graph.mem_edges_withdraw.mp he
      obtain ⟨hes, hq⟩ := ih ht
      exact ⟨.cons he hes, not_mem_visited_cons.mpr ⟨hs, hq⟩⟩
  · intro h
    obtain ⟨h, hq⟩ := h
    induction h with
    | nil p => exact .nil p
    | cons he _ ih =>
      obtain ⟨_, hq⟩ := not_mem_visited_cons.mp hq
      -- the edge leads to the next state that is visited, so that it touches the withdrawn one at neither end
      have ht := (List.ne_of_not_mem_cons hq).symm
      exact .cons (Graph.mem_edges_withdraw.mpr ⟨he, hp, ht⟩) (ih ht hq)

end NondetGraph

/-! ## Acceptance -/

namespace Automaton

open Automata.Symbol

variable {a b : Automaton} {p q : State} {es : List (Edge Symbol)} {w : List Char}

/-- The edges lead from the initial state to a final one and read the word; when trailing epsilon edges
are ignored, none of them comes after the edge that reads the last character. -/
structure AcceptedAlong (a : Automaton) (p : State) (es : List (Edge Symbol)) (w : List Char) : Prop where
  initial : a.initial = some p
  final : ∃ r ∈ a.finals, a.graph.Route p es r
  reads : characters (es.map Edge.label) = w
  ends : a.options.trailing = .ignore → EndsReading (es.map Edge.label)

theorem accepts_iff_route (hv : a.validate = .ok ()) : a.accepts w = .ok true ↔ ∃ p es, a.AcceptedAlong p es w := by
  rw [(accepts_iff_trace hv w).1]
  constructor
  · intro h
    obtain ⟨l, ⟨p, hp, r, hr, hl⟩, hw, hend⟩ := h
    obtain ⟨es, hes, rfl⟩ := hl.exists_route
    exact ⟨p, es, hp, ⟨r, hr, hes⟩, hw, hend⟩
  · intro h
    obtain ⟨p, es, hp, ⟨r, hr, hes⟩, hw, hend⟩ := h
    exact ⟨_, ⟨p, hp, r, hr, hes.trace⟩, hw, hend⟩

/-! ## Removal -/

theorem removeState_of_ne_initial (hn : a.table.isDet = false) (hq : q ∈ a.states) (hi : a.initial ≠ some q) :
    a.removeState q =
      .ok { a with table := .nondet (Graph.withdraw a.graph q), finals := a.finals.erase q } := by
  obtain ⟨t, _, _, _⟩ := a
  cases t with
  | det => cases hn
  | nondet g =>
    have ht : (Table.nondet g).removeState q = (true, .nondet (Graph.withdraw g q)) := by
      rw [Table.removeState, Graph.removeState_of_declared hq]
      rfl
    unfold removeState
    rw [ht, if_neg hi]
    rfl

section
variable (hn : a.table.isDet = false) (hq : q ∈ a.states) (hi : a.initial ≠ some q) (hb : a.removeState q = .ok b)
include hn hq hi hb

theorem acceptedAlong_removeState : b.AcceptedAlong p es w ↔ a.AcceptedAlong p es w ∧ q ∉ visited p es := by
  rw [removeState_of_ne_initial hn hq hi] at hb
  cases hb
  constructor
  · intro h
    obtain ⟨hp, ⟨r, hr, hes⟩, hw, hend⟩ := h
    obtain ⟨hr, _⟩ := SortedSet.mem_erase.mp hr
    have hne : p ≠ q := fun e => hi (e ▸ hp)
    obtain ⟨hes, hv⟩ := (NondetGraph.route_withdraw hne).mp hes
    exact ⟨⟨hp, ⟨r, hr, hes⟩, hw, hend⟩, hv⟩
  · intro h
    obtain ⟨⟨hp, ⟨r, hr, hes⟩, hw, hend⟩, hv⟩ := h
    have hne : p ≠ q := fun e => hi (e ▸ hp)
    have hr' : r ≠ q := fun e => hv (e ▸ hes.last_visited)
    exact ⟨hp, ⟨r, SortedSet.mem_erase.mpr ⟨hr, hr'⟩, (NondetGraph.route_withdraw hne).mpr ⟨hes, hv⟩⟩, hw, hend⟩

theorem validate_removeState (hv : a.validate = .ok ()) (hf : a.finals ≠ .singleton q) : b.validate = .ok () := by
  have h := validate_eq_ok.mp hv
  have hw := h.wellFormed.removeState hb
  rw [removeState_of_ne_initial hn hq hi] at hb
  cases hb
  refine validate_eq_ok.mpr (hw.valid h.initial ?_ fun _ hg => nomatch hg)
  -- were there no other final state, the withdrawn one would be the only one
  by_contra hnone
  have hall : ∀ r ∈ a.finals, r = q := fun r hr =>
    Classical.not_not.mp fun hne => hnone ⟨r, SortedSet.mem_erase.mpr ⟨hr, hne⟩⟩
  obtain ⟨r, hr⟩ := h.finals
  refine hf (SortedSet.ext fun s => ⟨fun hs => SortedSet.mem_singleton.mpr (hall s hs), fun hs => ?_⟩)
  obtain rfl := SortedSet.mem_singleton.mp hs
  exact hall r hr ▸ hr

end

/-- What is left is valid and accepts the words that were accepted along a route on which the state is not visited. -/
theorem removeState_keeps_other_routes {a : Automaton} {q : State} (hv : a.validate = .ok ())
    (hn : a.table.isDet = false) (hq : q ∈ a.states) (hi : a.initial ≠ some q) (hf : a.finals ≠ .singleton q) :
    ∃ b, a.removeState q = .ok b ∧ b.validate = .ok () ∧
      ∀ w, (b.accepts w = .ok true ↔ ∃ p es, a.AcceptedAlong p es w ∧ q ∉ visited p es) ∧
        (b.accepts w ≠ .ok true → b.accepts w = .ok false) := by
  have hb := removeState_of_ne_initial hn hq hi
  have hvb := validate_removeState hn hq hi hb hv hf
  refine ⟨_, hb, hvb, fun w => ⟨?_, (accepts_iff_trace hvb w).2⟩⟩
  rw [accepts_iff_route hvb]
  exact exists_congr fun p => exists_congr fun es => acceptedAlong_removeState hn hq hi hb

/-- State 1 is final, lies behind an epsilon edge both before and after `x`, and reads `y`. -/
def epsilonDetour : Automaton :=
  ofTable (.nondet ⟨.ofList [⟨0⟩, ⟨1⟩, ⟨2⟩],
      .ofList [⟨⟨0⟩, .epsilon, ⟨1⟩⟩, ⟨⟨0⟩, .char 'x', ⟨2⟩⟩, ⟨⟨1⟩, .char 'y', ⟨2⟩⟩, ⟨⟨2⟩, .epsilon, ⟨1⟩⟩]⟩)
    (some ⟨0⟩) (.ofList [⟨1⟩, ⟨2⟩])

theorem removeState_keeps_other_routes_epsilonDetour :
    (epsilonDetour.validate = .ok () ∧ epsilonDetour.table.isDet = false ∧ ⟨1⟩ ∈ epsilonDetour.states ∧
        epsilonDetour.initial ≠ some ⟨1⟩ ∧ epsilonDetour.finals ≠ .singleton ⟨1⟩) ∧
      ∃ b, epsilonDetour.removeState ⟨1⟩ = .ok b ∧ b.validate = .ok () ∧
        ∀ w, (b.accepts w = .ok true ↔ ∃ p es, epsilonDetour.AcceptedAlong p es w ∧ ⟨1⟩ ∉ visited p es) ∧
          (b.accepts w ≠ .ok true → b.accepts w = .ok false) :=
  ⟨⟨rfl, rfl, by decide, by decide, by decide⟩,
    removeState_keeps_other_routes rfl rfl (by decide) (by decide) (by decide)⟩

example : epsilonDetour.accepts ['x', 'y'] = .ok true := rfl

example : (epsilonDetour.removeState ⟨1⟩ >>= fun b => b.accepts ['x', 'y']) = .ok false := rfl

example : (epsilonDetour.removeState ⟨1⟩ >>= fun b => b.accepts ['x']) = .ok true := rfl

end Automaton

end Automata
