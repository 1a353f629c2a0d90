import Automata.Proofs.Acceptance

/-!
# Acceptance by labels along a path

A trace lists the labels of consecutive edges. A run keeps no traces, only sets of states,
which it closes before each character and at most once at the end.
-/

namespace Automata

namespace Symbol

variable {l m : List Symbol} {w : List Char} {c : Char}

def characters (l : List Symbol) : List Char := l.filterMap char?

@[simp] theorem characters_nil : characters [] = [] := rfl

@[simp] theorem characters_epsilon : characters (.epsilon :: l) = characters l := rfl

@[simp] theorem characters_char : characters (.char c :: l) = c :: characters l := rfl

@[simp] theorem characters_append : characters (l ++ m) = characters l ++ characters m := List.filterMap_append

theorem exists_last_read (h : characters l = w ++ [c]) :
    ∃ u v, l = u ++ .char c :: v ∧ characters u = w ∧ characters v = [] := by
  obtain ⟨l₁, l₂, rfl, hw, hc⟩ := List.filterMap_eq_append_iff.mp h
  obtain ⟨m₁, x, m₂, rfl, hm, hx, hv⟩ := List.filterMap_eq_cons_iff.mp hc
  obtain rfl : x = .char c := char?_inj hx
  have hm : characters m₁ = [] := List.filterMap_eq_nil_iff.mpr hm
  refine ⟨l₁ ++ m₁, m₂, by simp, ?_, hv⟩
  rw [characters_append, hm, List.append_nil]
  exact hw

/-- Nothing comes after the label that reads the last character. -/
def EndsReading (l : List Symbol) : Prop := ∀ u c v, l = u ++ .char c :: v → characters v = [] → v = []

theorem endsReading_of_no_character (h : characters l = []) : EndsReading l := by
  intro u c v hl
  subst hl
  simp at h

theorem endsReading_concat : EndsReading (l ++ [.char c]) := by
  intro u c' v hl hv
  rcases List.eq_nil_or_concat v with rfl | ⟨v, x, rfl⟩
  · rfl
  rw [List.concat_eq_append] at hl hv
  have hl : l ++ [.char c] = (u ++ .char c' :: v) ++ [x] := by simpa using hl
  obtain ⟨_, hx⟩ := List.append_inj' hl rfl
  obtain rfl : Symbol.char c = x := by simpa using hx
  simp at hv

end Symbol

/-! ## Traces -/

namespace NondetGraph

open Automata.Symbol

variable {g : NondetGraph} {p q r : State} {l m : List Symbol} {w : List Char} {t : Trailing}

inductive Trace (g : NondetGraph) : State → List Symbol → State → Prop
  | nil (q : State) : Trace g q [] q
  | cons {p q r : State} {x : Symbol} {l : List Symbol} :
    ⟨p, x, q⟩ ∈ g.edges → Trace g q l r → Trace g p (x :: l) r

theorem Trace.append (h : g.Trace p l q) (h' : g.Trace q m r) : g.Trace p (l ++ m) r := by
  induction h with
  | nil => exact h'
  | cons he _ ih => exact .cons he (ih h')

theorem Trace.split : ∀ {l : List Symbol} {p : State}, g.Trace p (l ++ m) r →
    ∃ q, g.Trace p l q ∧ g.Trace q m r
  | [], p, h => ⟨p, .nil p, h⟩
  | x :: l, p, h => by
    cases h with
    | cons he h =>
      obtain ⟨q, hl, hm⟩ := Trace.split h
      exact ⟨q, .cons he hl, hm⟩

theorem Trace.path (h : g.Trace p l r) : g.Path p (characters l) r := by
  induction h with
  | nil q => exact .nil q
  | @cons _ _ _ x _ he _ ih =>
    cases x with
    | epsilon => exact .epsilon he ih
    | char c => exact .char he ih

theorem Path.exists_trace (h : g.Path p w r) : ∃ l, g.Trace p l r ∧ characters l = w := by
  induction h with
  | nil q => exact ⟨[], .nil q, rfl⟩
  | epsilon he _ ih =>
    obtain ⟨l, hl, hw⟩ := ih
    exact ⟨.epsilon :: l, .cons he hl, hw⟩
  | @char _ _ _ c _ he _ ih =>
    obtain ⟨l, hl, hw⟩ := ih
    exact ⟨.char c :: l, .cons he hl, by rw [characters_char, hw]⟩

theorem path_iff_trace : g.Path p w r ↔ ∃ l, g.Trace p l r ∧ characters l = w := by
  constructor
  · exact Path.exists_trace
  · intro h
    obtain ⟨l, hl, hw⟩ := h
    subst hw
    exact hl.path

theorem leads_iff_trace :
    g.Leads t p w r ↔ ∃ l, g.Trace p l r ∧ characters l = w ∧ (t = .ignore → EndsReading l) := by
  cases t with
  | follow => simpa [Leads] using path_iff_trace
  | ignore =>
    simp only [forall_const]
    rcases List.eq_nil_or_concat w with rfl | ⟨u, c, rfl⟩
    · rw [leads_nil, path_iff_trace]
      exact exists_congr fun l => and_congr_right fun _ => ⟨fun h => ⟨h, endsReading_of_no_character h⟩, And.left⟩
    rw [List.concat_eq_append, leads_ignore_snoc]
    constructor
    · intro h
      obtain ⟨q, hu, he⟩ := h
      obtain ⟨l, hl, hu⟩ := hu.exists_trace
      exact ⟨l ++ [.char c], hl.append (.cons he (.nil r)), by simp [hu], endsReading_concat⟩
    · intro h
      obtain ⟨l, hl, hw, hend⟩ := h
      obtain ⟨l, v, rfl, hu, hv⟩ := exists_last_read hw
      obtain rfl := hend _ _ _ rfl hv
      obtain ⟨q, hl, hc⟩ := hl.split
      cases hc with
      | cons he hr =>
        cases hr
        exact ⟨q, hu ▸ hl.path, he⟩

end NondetGraph

/-! ## Acceptance -/

namespace Automaton

open Automata.Symbol

variable {a : Automaton} {w : List Char} {t : Trailing}

/-- The labels lie along a path from the initial state to a final one. -/
def AcceptingTrace (a : Automaton) (l : List Symbol) : Prop :=
  ∃ p, a.initial = some p ∧ ∃ q ∈ a.finals, a.graph.Trace p l q

theorem spells_iff_acceptingTrace :
    a.Spells t w ↔ ∃ l, a.AcceptingTrace l ∧ characters l = w ∧ (t = .ignore → EndsReading l) := by
  unfold Spells AcceptingTrace
  simp only [NondetGraph.leads_iff_trace]
  constructor
  · intro h
    obtain ⟨p, hp, q, hq, l, hl, h⟩ := h
    exact ⟨l, ⟨p, hp, q, hq, hl⟩, h⟩
  · intro h
    obtain ⟨l, ⟨p, hp, q, hq, hl⟩, h⟩ := h
    exact ⟨p, hp, q, hq, l, hl, h⟩

theorem accepts_iff_trace {a : Automaton} (hv : a.validate = .ok ()) :
    ∀ w, (a.accepts w = .ok true ↔
        ∃ l, a.AcceptingTrace l ∧ characters l = w ∧ (a.options.trailing = .ignore → EndsReading l)) ∧
      (a.accepts w ≠ .ok true → a.accepts w = .ok false) := by
  intro w
  have h := validate_eq_ok.mp hv
  have hl : a.accepts w = .ok true ↔ a.Spells a.options.trailing w := mem_language h
  refine ⟨hl.trans spells_iff_acceptingTrace, fun hn => ?_⟩
  rw [accepts_of_valid h] at hn ⊢
  cases hr : a.run w with
  | true => exact absurd (by rw [hr]) hn
  | false => rfl

/-- An epsilon cycle through the initial state, and after `x` an epsilon edge to the final state, which
the word `x` must not take and the word `xy` does not need. -/
def epsilonsAround : Automaton :=
  (ofTable (.nondet ⟨.ofList [⟨0⟩, ⟨1⟩, ⟨2⟩, ⟨3⟩],
      .ofList [⟨⟨0⟩, .epsilon, ⟨1⟩⟩, ⟨⟨1⟩, .epsilon, ⟨0⟩⟩, ⟨⟨1⟩, .char 'x', ⟨2⟩⟩, ⟨⟨2⟩, .epsilon, ⟨3⟩⟩,
        ⟨⟨2⟩, .char 'y', ⟨3⟩⟩]⟩)
    (some ⟨0⟩) (.singleton ⟨3⟩)).under .ignore

theorem accepts_iff_trace_epsilonsAround :
    epsilonsAround.validate = .ok () ∧ epsilonsAround.options.trailing = .ignore ∧
      ∀ w, (epsilonsAround.accepts w = .ok true ↔
          ∃ l, epsilonsAround.AcceptingTrace l ∧ characters l = w ∧
            (epsilonsAround.options.trailing = .ignore → EndsReading l)) ∧
        (epsilonsAround.accepts w ≠ .ok true → epsilonsAround.accepts w = .ok false) :=
  ⟨rfl, rfl, accepts_iff_trace rfl⟩

example : epsilonsAround.accepts ['x'] = .ok false := rfl

example : epsilonsAround.accepts ['x', 'y'] = .ok true := rfl

end Automaton

end Automata
