import Automata.Combination
import Automata.Proofs.Acceptance

/-!
# Gluing graphs

A path through glued edges falls into a stretch up to the first of them, rounds from the
target back to a glued state, and a last stretch from the target (`path_glued`).
-/

namespace Automata

namespace NondetGraph

variable {g h : NondetGraph} {s : StateSet} {p q r t : State} {u v w x : List Char} {tr : Trailing}

theorem Path.mono (hgh : ∀ e ∈ g.edges, e ∈ h.edges) (hw : g.Path p w r) : h.Path p w r := by
  induction hw with
  | nil => exact .nil _
  | epsilon he _ ih => exact .epsilon (hgh _ he) ih
  | char he _ ih => exact .char (hgh _ he) ih

theorem Leads.mono (hgh : ∀ e ∈ g.edges, e ∈ h.edges) (hw : g.Leads tr p w r) : h.Leads tr p w r := by
  cases tr with
  | follow => exact Path.mono hgh hw
  | ignore =>
    rcases hw with ⟨rfl, hw⟩ | ⟨u, c, q, rfl, hu, he⟩
    · exact leads_nil.mpr (hw.mono hgh)
    · exact leads_ignore_snoc.mpr ⟨q, hu.mono hgh, hgh _ he⟩

/-- The edges of `h` that leave states of `S` are edges of `g` and lead to states of `S`. -/
def Confines (g h : NondetGraph) (S : State → Prop) : Prop :=
  ∀ e ∈ h.edges, S e.source → e ∈ g.edges ∧ S e.target

variable {S : State → Prop}

theorem Path.confine (hS : Confines g h S) (hw : h.Path p w r) (hp : S p) : g.Path p w r ∧ S r := by
  induction hw with
  | nil => exact ⟨.nil _, hp⟩
  | epsilon he _ ih =>
    obtain ⟨he, hq⟩ := hS _ he hp
    obtain ⟨hw, hr⟩ := ih hq
    exact ⟨.epsilon he hw, hr⟩
  | char he _ ih =>
    obtain ⟨he, hq⟩ := hS _ he hp
    obtain ⟨hw, hr⟩ := ih hq
    exact ⟨.char he hw, hr⟩

theorem Leads.confine (hS : Confines g h S) (hw : h.Leads tr p w r) (hp : S p) : g.Leads tr p w r ∧ S r := by
  cases tr with
  | follow => exact Path.confine hS hw hp
  | ignore =>
    rcases hw with ⟨rfl, hw⟩ | ⟨u, c, q, rfl, hu, he⟩
    · rw [leads_nil]
      exact hw.confine hS hp
    · obtain ⟨hu, hq⟩ := hu.confine hS hp
      obtain ⟨he, hr⟩ := hS _ he hq
      exact ⟨leads_ignore_snoc.mpr ⟨q, hu, he⟩, hr⟩

theorem confines_self (hg : g.Closed) : Confines g g (· ∈ g.states) := fun e he _ => ⟨he, (hg e he).2⟩

theorem confines_absorb_left (hg : g.Closed) (hh : h.Closed) (hd : ∀ q ∈ g.states, q ∉ h.states) :
    Confines g (g.absorb h) (· ∈ g.states) := by
  intro e he hs
  rcases Graph.mem_edges_absorb.mp he with he | he
  · exact ⟨he, (hg e he).2⟩
  · exact absurd (hh e he).1 (hd _ hs)

theorem confines_absorb_right (hg : g.Closed) (hh : h.Closed) (hd : ∀ q ∈ g.states, q ∉ h.states) :
    Confines h (g.absorb h) (· ∈ h.states) := by
  intro e he hs
  rcases Graph.mem_edges_absorb.mp he with he | he
  · exact absurd hs (hd _ (hg e he).1)
  · exact ⟨he, (hh e he).2⟩

theorem mem_absorb_left (e : Edge Symbol) (he : e ∈ g.edges) : e ∈ (g.absorb h).edges :=
  Graph.mem_edges_absorb.mpr (.inl he)

theorem mem_absorb_right (e : Edge Symbol) (he : e ∈ h.edges) : e ∈ (g.absorb h).edges :=
  Graph.mem_edges_absorb.mpr (.inr he)

theorem closed_absorb (hg : g.Closed) (hh : h.Closed) : (g.absorb h).Closed := by
  intro e he
  unfold Edge.Within
  rw [Graph.mem_states_absorb, Graph.mem_states_absorb]
  rcases Graph.mem_edges_absorb.mp he with he | he
  · exact ⟨.inl (hg e he).1, .inl (hg e he).2⟩
  · exact ⟨.inr (hh e he).1, .inr (hh e he).2⟩

/-! ## Glued edges -/

/-- The graph with an epsilon edge to the target from each state of the set. -/
def glued (g : NondetGraph) (s : StateSet) (t : State) : NondetGraph :=
  { g with edges := g.edges ∪ s.map fun q => ⟨q, .epsilon, t⟩ }

@[simp] theorem states_glued : (g.glued s t).states = g.states := rfl

theorem mem_edges_glued {e : Edge Symbol} :
    e ∈ (g.glued s t).edges ↔ e ∈ g.edges ∨ ∃ q ∈ s, ⟨q, .epsilon, t⟩ = e := by
  simp [glued]

theorem mem_glued (e : Edge Symbol) (he : e ∈ g.edges) : e ∈ (g.glued s t).edges :=
  mem_edges_glued.mpr (.inl he)

theorem char_mem_edges_glued {c : Char} :
    ⟨p, .char c, r⟩ ∈ (g.glued s t).edges ↔ ⟨p, .char c, r⟩ ∈ g.edges := by
  rw [mem_edges_glued]
  simp

theorem closed_glued (hg : g.Closed) (hs : ∀ q ∈ s, q ∈ g.states) (ht : t ∈ g.states) : (g.glued s t).Closed := by
  intro e he
  rcases mem_edges_glued.mp he with he | ⟨q, hq, rfl⟩
  · exact hg e he
  · exact ⟨hs q hq, ht⟩

theorem foldlM_addEdge_eq_ok : ∀ {l : List State} {g : NondetGraph},
    l.foldlM (fun g q => do return (← g.addEdge ⟨q, .epsilon, t⟩).2) g = .ok h ↔
      (∀ q ∈ l, q ∈ g.states ∧ t ∈ g.states) ∧
        h = l.foldl (fun g q => g.connect ⟨q, .epsilon, t⟩) g
  | [], g => by simp [pure, Except.pure, eq_comm]
  | q :: l, g => by
    rw [List.foldlM_cons]
    by_cases hw : Edge.Within ⟨q, Symbol.epsilon, t⟩ g.states
    · have he : g.addEdge ⟨q, .epsilon, t⟩ = .ok (_, g.connect _) := addEdge_of_within hw
      have hw : q ∈ g.states ∧ t ∈ g.states := hw
      rw [he]
      refine foldlM_addEdge_eq_ok.trans ?_
      simp [hw, Graph.connect]
    · rw [addEdge_of_not_within hw]
      constructor
      · intro hn; cases hn
      · intro hn; exact absurd (hn.1 q (List.mem_cons_self ..)) hw

theorem mem_edges_foldl_connect {e : Edge Symbol} : ∀ {l : List State} {g : NondetGraph},
    e ∈ (l.foldl (fun g q => g.connect ⟨q, .epsilon, t⟩) g).edges ↔
      e ∈ g.edges ∨ ∃ q ∈ l, ⟨q, .epsilon, t⟩ = e
  | [], g => by simp
  | q :: l, g => by
    rw [List.foldl_cons, mem_edges_foldl_connect]
    simp [Graph.connect, eq_comm, or_assoc, or_left_comm]

theorem states_foldl_connect : ∀ {l : List State} {g : NondetGraph},
    (l.foldl (fun g q => g.connect ⟨q, .epsilon, t⟩) g).states = g.states
  | [], _ => rfl
  | q :: l, g => by rw [List.foldl_cons, states_foldl_connect]; rfl

theorem glue_eq_ok :
    g.glue s t = .ok h ↔ (∀ q ∈ s, q ∈ g.states ∧ t ∈ g.states) ∧ h = g.glued s t := by
  unfold glue
  have hf : s.toList.foldl (fun g q => g.connect ⟨q, .epsilon, t⟩) g = g.glued s t := by
    refine Graph.ext (fun q => ?_) (fun e => ?_)
    · rw [states_foldl_connect, states_glued]
    · rw [mem_edges_foldl_connect, mem_edges_glued]
      rfl
  rw [foldlM_addEdge_eq_ok, hf]
  rfl

theorem glue_of_declared (hs : ∀ q ∈ s, q ∈ g.states) (ht : t ∈ g.states) : g.glue s t = .ok (g.glued s t) :=
  glue_eq_ok.mpr ⟨fun q hq => ⟨hs q hq, ht⟩, rfl⟩

def joined (g h : NondetGraph) (s : StateSet) (t : State) : NondetGraph := glued (g.absorb h) s t

/-! ## Paths through glued edges -/

open scoped Computability

/-- The words that lead from the target back to a glued state. -/
def rounds (g : NondetGraph) (s : StateSet) (t : State) : Language Char := {w | ∃ q ∈ s, g.Path t w q}

theorem append_mem_kstar {l : Language Char} (hu : u ∈ l∗) (hx : x ∈ l∗) : u ++ x ∈ l∗ := by
  have h : u ++ x ∈ l∗ * l∗ := Language.append_mem_mul hu hx
  rwa [kstar_mul_kstar] at h

theorem mem_kstar_of_mem {l : Language Char} (hu : u ∈ l) : u ∈ l∗ := by
  have h : l ≤ l∗ := le_kstar
  exact h hu

theorem path_of_mem_rounds (hq : ∃ q ∈ s, g.Path p u q) : (g.glued s t).Path p u t := by
  obtain ⟨q, hq, hu⟩ := hq
  have he : (g.glued s t).Path q [] t := .of_epsilon (mem_edges_glued.mpr (.inr ⟨q, hq, rfl⟩))
  simpa using (hu.mono mem_glued).trans he

theorem path_of_mem_kstar_rounds (hx : x ∈ (g.rounds s t)∗) : (g.glued s t).Path t x t := by
  obtain ⟨L, rfl, hL⟩ := Language.mem_kstar.mp hx
  clear hx
  induction L with
  | nil => exact .nil t
  | cons u L ih =>
    rw [List.flatten_cons]
    have hu : (g.glued s t).Path t u t := path_of_mem_rounds (hL u (List.mem_cons_self ..))
    exact hu.trans (ih fun y hy => hL y (List.mem_cons_of_mem _ hy))

theorem path_glued :
    (g.glued s t).Path p w r ↔ g.Path p w r ∨
      ∃ u x v, w = u ++ (x ++ v) ∧ (∃ q ∈ s, g.Path p u q) ∧ x ∈ (g.rounds s t)∗ ∧ g.Path t v r := by
  constructor
  · intro hw
    induction hw with
    | nil => exact .inl (.nil _)
    | epsilon he hw ih =>
      rcases mem_edges_glued.mp he with he | ⟨q, hq, he⟩
      · rcases ih with hw | ⟨u, x, v, rfl, ⟨q, hq, hu⟩, hx, hv⟩
        · exact .inl (.epsilon he hw)
        · exact .inr ⟨u, x, v, rfl, ⟨q, hq, .epsilon he hu⟩, hx, hv⟩
      -- the path stands at a glued state: the rest is the last stretch, or its first stretch is a round
      · cases he
        rcases ih with hw | ⟨u, x, v, rfl, hu, hx, hv⟩
        · exact .inr ⟨[], [], _, rfl, ⟨_, hq, .nil _⟩, Language.nil_mem_kstar _, hw⟩
        · exact .inr ⟨[], u ++ x, v, by simp, ⟨_, hq, .nil _⟩, append_mem_kstar (mem_kstar_of_mem hu) hx, hv⟩
    | char he hw ih =>
      have he := char_mem_edges_glued.mp he
      rcases ih with hw | ⟨u, x, v, rfl, ⟨q, hq, hu⟩, hx, hv⟩
      · exact .inl (.char he hw)
      · exact .inr ⟨_ :: u, x, v, rfl, ⟨q, hq, .char he hu⟩, hx, hv⟩
  · intro hw
    rcases hw with hw | ⟨u, x, v, rfl, hu, hx, hv⟩
    · exact hw.mono mem_glued
    · exact (path_of_mem_rounds hu).trans ((path_of_mem_kstar_rounds hx).trans (hv.mono mem_glued))

theorem path_glued_target :
    (g.glued s t).Path t w r ↔ ∃ x v, w = x ++ v ∧ x ∈ (g.rounds s t)∗ ∧ g.Path t v r := by
  constructor
  · intro hw
    rcases path_glued.mp hw with hw | ⟨u, x, v, rfl, hu, hx, hv⟩
    · exact ⟨[], w, rfl, Language.nil_mem_kstar _, hw⟩
    · exact ⟨u ++ x, v, by simp, append_mem_kstar (mem_kstar_of_mem hu) hx, hv⟩
  · intro hw
    obtain ⟨x, v, hw, hx, hv⟩ := hw
    subst hw
    exact (path_of_mem_kstar_rounds hx).trans (hv.mono mem_glued)

end NondetGraph

/-! ## Operands -/

namespace Automaton

variable {a b : Automaton} {p q : State}

theorem operands_of_disjoint (hd : ∀ q ∈ a.graph.states, q ∉ b.graph.states) (hp : a.initial = some p)
    (hq : b.initial = some q) : operands a b = .ok (p, q) := by
  have hs : (a.states.inter b.states).size = 0 := by
    have he : (a.states.inter b.states).toList = [] := by
      rw [List.eq_nil_iff_forall_not_mem]
      intro r hr
      obtain ⟨ha, hb⟩ := SortedSet.mem_inter.mp hr
      exact hd r (by simpa using ha) (by simpa using hb)
    unfold SortedSet.size
    rw [he]
    rfl
  unfold operands
  rw [hs, hp, hq]

theorem operands_eq_ok (h : operands a b = .ok (p, q)) : a.initial = some p ∧ b.initial = some q := by
  unfold operands at h
  split at h
  · rename_i hp hq
    cases h
    exact ⟨hp, hq⟩
  · cases h
  · cases h

end Automaton

end Automata
