import Automata.Graph.Nondet

/-! # Paths -/

namespace Automata.NondetGraph

inductive Path (g : NondetGraph) : State → List Char → State → Prop
  | nil (q : State) : Path g q [] q
  | epsilon {p q r : State} {w : List Char} : ⟨p, .epsilon, q⟩ ∈ g.edges → Path g q w r → Path g p w r
  | char {p q r : State} {c : Char} {w : List Char} :
    ⟨p, .char c, q⟩ ∈ g.edges → Path g q w r → Path g p (c :: w) r

namespace Path

variable {g : NondetGraph} {p q r : State} {u v w : List Char} {c : Char}

theorem trans (h : g.Path p u q) (h' : g.Path q v r) : g.Path p (u ++ v) r := by
  induction h with
  | nil => exact h'
  | epsilon he _ ih => exact .epsilon he (ih h')
  | char he _ ih => exact .char he (ih h')

theorem of_epsilon (he : ⟨p, .epsilon, q⟩ ∈ g.edges) : g.Path p [] q := .epsilon he (.nil q)

theorem of_char (he : ⟨p, .char c, q⟩ ∈ g.edges) : g.Path p [c] q := .char he (.nil q)

theorem uncons (h : g.Path p (c :: w) r) :
    ∃ q q', g.Path p [] q ∧ ⟨q, .char c, q'⟩ ∈ g.edges ∧ g.Path q' w r := by
  generalize hu : c :: w = u at h
  induction h with
  | nil => cases hu
  | epsilon he _ ih =>
    obtain ⟨q, q', hp, hc, hq⟩ := ih hu
    exact ⟨q, q', .epsilon he hp, hc, hq⟩
  | char he h =>
    cases hu
    exact ⟨_, _, .nil _, he, h⟩

theorem split : ∀ {u : List Char} {p : State}, g.Path p (u ++ v) r → ∃ q, g.Path p u q ∧ g.Path q v r
  | [], p, h => ⟨p, .nil p, h⟩
  | c :: u, p, h => by
    obtain ⟨q, q', hp, hc, hq⟩ := uncons (w := u ++ v) h
    obtain ⟨s, hu, hv⟩ := split hq
    exact ⟨s, hp.trans (.char hc hu), hv⟩

end Path

end Automata.NondetGraph
