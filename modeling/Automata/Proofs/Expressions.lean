import Automata.Proofs.Concatenation
import Automata.Proofs.EmptyLanguage
import Automata.Proofs.Star
import Automata.Proofs.StateLimit
import Automata.Proofs.Union
import Automata.Proofs.WordAutomaton

/-!
# Expressions

All states come from one allocator, and a subexpression has only those minted during its
own evaluation (`Built`). So operands never share a state, and no evaluation is refused.
-/

namespace Automata

/-- The operand that is evaluated first. -/
inductive Side where
  | left
  | right

inductive Expr where
  | word (w : List Char)
  | union (first : Side) (e f : Expr)
  | concat (first : Side) (e f : Expr)
  | star (e : Expr)
  | determinize (e : Expr)

def Minting.inOrder {α β : Type} (first : Side) (x : Minting α) (y : Minting β) : Minting (α × β) :=
  match first with
  | .left => do
    let a ← x
    let b ← y
    return (a, b)
  | .right => do
    let b ← y
    let a ← x
    return (a, b)

namespace Expr

open Minting (Safe safe_of_exhausted)
open scoped Computability

def eval : Expr → Minting Automaton
  | word w => Automaton.spellOut w
  | union first e f => do
    let x ← Minting.inOrder first e.eval f.eval
    x.1.union x.2
  | concat first e f => do
    let x ← Minting.inOrder first e.eval f.eval
    Minting.ofExcept (x.1.concat x.2)
  | star e => do
    let a ← e.eval
    Minting.ofExcept a.star
  | determinize e => do
    let a ← e.eval
    a.determinize none

def language : Expr → Language Char
  | word w => {w}
  | union _ e f => e.language + f.language
  | concat _ e f => e.language * f.language
  | star e => e.language∗
  | determinize e => e.language

def starFree : Expr → Bool
  | word _ => true
  | union _ e f => e.starFree && f.starFree
  | concat _ e f => e.starFree && f.starFree
  | star _ => false
  | determinize e => e.starFree

variable {e f : Expr} {a b : Automaton} {m m' n n' : Allocator} {first : Side}

structure Describes (e : Expr) (a : Automaton) : Prop where
  valid : a.Valid
  options : a.options = default
  -- of an automaton without a word, a determinization would have no final state
  inhabited : ∃ w, w ∈ a.language
  language : e.starFree → a.language = e.language

theorem Describes.trailing (h : e.Describes a) : a.options.trailing = .follow := congrArg Options.trailing h.options

/-- All states have been minted between two readings of the counter. -/
structure Built (e : Expr) (m : Allocator) (a : Automaton) (m' : Allocator) : Prop extends Describes e a where
  minted : ∀ q ∈ a.graph.states, m.Mints m' q

/-- Each state is one of the operands' or has been minted since the counter of `n` was read. -/
structure Made (e : Expr) (n : Allocator) (operands : List Automaton) (a : Automaton) (m' : Allocator) : Prop
    extends Describes e a where
  counter_le : n.counter.toNat ≤ m'.counter.toNat
  origin : ∀ q ∈ a.graph.states, (∃ b ∈ operands, q ∈ b.graph.states) ∨ n.Mints m' q

theorem Made.built {l : List Automaton} (h : e.Made n l a m') (hm : m.counter.toNat ≤ n.counter.toNat)
    (hl : ∀ b ∈ l, ∀ q ∈ b.graph.states, m.Mints n q) : e.Built m a m' := by
  refine { h with minted := fun q hq => ?_ }
  rcases h.origin q hq with ⟨b, hb, hq⟩ | hq
  · exact (hl b hb q hq).mono (Nat.le_refl _) h.counter_le
  · exact hq.mono hm (Nat.le_refl _)

namespace Built

theorem counter_le (h : e.Built m a m') : m.counter.toNat ≤ m'.counter.toNat := by
  obtain ⟨p, _, hp⟩ := h.valid.exists_initial
  obtain ⟨hl, hr⟩ := h.minted p hp
  exact Nat.le_of_lt (Nat.lt_of_le_of_lt hl hr)

theorem widen (h : e.Built m a m') (hm : n.counter.toNat ≤ m.counter.toNat)
    (hm' : m'.counter.toNat ≤ n'.counter.toNat) : e.Built n a n' :=
  { h with minted := fun q hq => (h.minted q hq).mono hm hm' }

theorem fresh (h : e.Built m a m') : ⟨m'.counter⟩ ∉ a.graph.states :=
  fun hq => Nat.lt_irrefl _ (h.minted _ hq).2

theorem disjoint (ha : e.Built m a n) (hb : f.Built n b m') : ∀ q ∈ a.graph.states, q ∉ b.graph.states := by
  intro q hqa hqb
  obtain ⟨_, hlt⟩ := ha.minted q hqa
  obtain ⟨hle, _⟩ := hb.minted q hqb
  exact Nat.lt_irrefl _ (Nat.lt_of_lt_of_le hlt hle)

theorem validate_minted_accepts (h : e.Built m a m') : a.validate = .ok () ∧
    (∀ q ∈ a.states, m.counter.toNat ≤ q.ordinal.toNat ∧ q.ordinal.toNat < m'.counter.toNat) ∧
    (e.starFree → ∀ w, (w ∈ e.language → a.accepts w = .ok true) ∧ (w ∉ e.language → a.accepts w = .ok false)) := by
  refine ⟨Automaton.validate_eq_ok.mpr h.valid, fun q hq => ?_, fun hfree w => ?_⟩
  · rw [← Automaton.states_graph] at hq
    exact h.minted q hq
  · rw [← h.language hfree]
    refine ⟨id, fun hw => ?_⟩
    have hw : a.accepts w ≠ .ok true := hw
    rw [Automaton.accepts_of_valid h.valid] at hw ⊢
    cases hrun : a.run w with
    | true => exact absurd (congrArg Except.ok hrun) hw
    | false => rfl

end Built

structure Operands (e f : Expr) (m : Allocator) (x : Automaton × Automaton) (m' : Allocator) : Prop where
  left : e.Built m x.1 m'
  right : f.Built m x.2 m'
  disjoint : ∀ q ∈ x.1.graph.states, q ∉ x.2.graph.states

theorem safe_inOrder (he : ∀ m, Safe e.eval m (e.Built m)) (hf : ∀ m, Safe f.eval m (f.Built m)) :
    Safe (Minting.inOrder first e.eval f.eval) m (Operands e f m) := by
  cases first with
  | left =>
    refine (he m).bind fun a n ha => (hf n).bind fun b m' hb => meets_of_ok rfl ?_
    exact ⟨ha.widen (Nat.le_refl _) hb.counter_le, hb.widen ha.counter_le (Nat.le_refl _), ha.disjoint hb⟩
  | right =>
    refine (hf m).bind fun b n hb => (he n).bind fun a m' ha => meets_of_ok rfl ?_
    refine ⟨ha.widen hb.counter_le (Nat.le_refl _), hb.widen (Nat.le_refl _) ha.counter_le, ?_⟩
    exact fun q hqa hqb => hb.disjoint ha q hqb hqa

/-! ## One step of evaluation -/

theorem safe_word {w : List Char} : Safe (Automaton.spellOut w) n ((word w).Made n []) := by
  rw [Automaton.spellOut_eq_ofWord]
  rcases Nat.lt_or_ge n.room (w.length + 1) with h | h
  · exact safe_of_exhausted (Automaton.ofWord_of_lt h) Allocator.room_advance_room
  refine meets_of_ok (Automaton.ofWord_of_le h) ?_
  have hn := Allocator.nodup_block h
  rw [← Automaton.chain_states (w := w)] at hn
  have hl := Automaton.language_chain hn
  rw [Automaton.map_fst_zip_block] at hl
  have hc : (n.advance (w.length + 1)).counter.toNat = n.counter.toNat + (w.length + 1) := Allocator.toNat_advance h
  refine ⟨⟨Automaton.valid_chain, rfl, ⟨w, ?_⟩, fun _ => hl⟩, by omega, fun q hq => .inr ?_⟩
  · rw [hl]
    exact Set.mem_singleton w
  · rw [Automaton.graph_chain, Automaton.mem_states_chainGraph, Automaton.chain_states] at hq
    exact Allocator.mints_of_mem_block h hq

theorem Operands.union (h : Operands e f m (a, b) m') : Safe (a.union b) m' ((union first e f).Made m' [a, b]) := by
  obtain ⟨ha, hb, hd⟩ := h
  obtain ⟨p, hp, _⟩ := ha.valid.exists_initial
  obtain ⟨q, hq, _⟩ := hb.valid.exists_initial
  rcases Nat.eq_zero_or_pos m'.room with hm | hm
  · exact safe_of_exhausted (Automaton.union_of_exhausted hp hq hd hm) hm
  refine meets_of_ok (Automaton.union_of_valid ha.valid hb.valid hp hq hd hm ha.fresh hb.fresh) ?_
  have hl := Automaton.language_united ha.valid hb.valid hp hq hd ha.fresh hb.fresh ha.trailing hb.trailing
  have hlt := Allocator.counter_lt_succ hm
  refine ⟨⟨Automaton.valid_united ha.valid hb.valid hp hq, ha.options, ?_, ?_⟩, Nat.le_of_lt hlt, ?_⟩
  · obtain ⟨w, hw⟩ := ha.inhabited
    rw [hl]
    exact ⟨w, .inl hw⟩
  · intro hfree
    obtain ⟨hea, hfb⟩ := Bool.and_eq_true_iff.mp hfree
    rw [hl, ha.language hea, hb.language hfb]
    rfl
  · intro r hr
    rcases NondetGraph.mem_states_forked.mp hr with rfl | hr | hr
    · exact .inr ⟨Nat.le_refl _, hlt⟩
    · exact .inl ⟨a, by simp, hr⟩
    · exact .inl ⟨b, by simp, hr⟩

theorem Operands.concat (h : Operands e f m (a, b) m') :
    Safe (Minting.ofExcept (a.concat b)) m' ((concat first e f).Made m' [a, b]) := by
  obtain ⟨ha, hb, hd⟩ := h
  obtain ⟨p, hp, _⟩ := ha.valid.exists_initial
  obtain ⟨q, hq, _⟩ := hb.valid.exists_initial
  rw [Automaton.concat_of_valid ha.valid hb.valid hp hq hd, Minting.ofExcept_ok]
  refine meets_of_ok rfl ?_
  have hl := Automaton.language_concatenated ha.valid hb.valid hd hp hq ha.trailing hb.trailing
  refine ⟨⟨Automaton.valid_concatenated ha.valid hb.valid hp hq, ha.options, ?_, ?_⟩, Nat.le_refl _, ?_⟩
  · obtain ⟨u, hu⟩ := ha.inhabited
    obtain ⟨v, hv⟩ := hb.inhabited
    rw [hl]
    exact ⟨u ++ v, Language.append_mem_mul hu hv⟩
  · intro hfree
    obtain ⟨hea, hfb⟩ := Bool.and_eq_true_iff.mp hfree
    rw [hl, ha.language hea, hb.language hfb]
    rfl
  · intro r hr
    rcases Graph.mem_states_absorb.mp hr with hr | hr
    · exact .inl ⟨a, by simp, hr⟩
    · exact .inl ⟨b, by simp, hr⟩

theorem Describes.star (h : e.Describes a) : Safe (Minting.ofExcept a.star) n ((star e).Made n [a]) := by
  obtain ⟨p, hp, _⟩ := h.valid.exists_initial
  rw [Automaton.star_of_valid h.valid hp, Minting.ofExcept_ok]
  have hn := Automaton.nil_mem_language_starred h.valid h.trailing hp
  refine meets_of_ok rfl ⟨⟨h.valid.starred hp, h.options, ⟨[], hn⟩, nofun⟩, Nat.le_refl _, fun q hq => .inl ?_⟩
  exact ⟨a, List.mem_singleton_self a, hq⟩

theorem Describes.determinize (h : e.Describes a) : Safe (a.determinize none) n ((determinize e).Made n [a]) := by
  have hlim : ∀ k, (none <|> a.options.maxSubsets) = some k → a.frontiers.ncard ≤ k := by
    rw [h.options]
    exact nofun
  have hdem : a.demand none = a.frontiers.ncard := Automaton.demand_of_le hlim
  rcases Nat.lt_or_ge n.room a.frontiers.ncard with hm | hm
  · rw [← hdem] at hm
    exact safe_of_exhausted (Automaton.determinize_of_exhausted h.valid hm) Allocator.room_advance_room
  have hd := Automaton.determinize_of_le h.valid hlim hm
  have hv := Automaton.valid_determinized hd ((Automaton.exists_final_iff_accepts_some hd).mpr h.inhabited)
  have hl := Automaton.language_determinized hd hv
  have hc : (n.advance a.frontiers.ncard).counter.toNat = n.counter.toNat + a.frontiers.ncard :=
    Allocator.toNat_advance hm
  refine meets_of_ok hd ⟨⟨hv, h.options, ?_, ?_⟩, by omega, fun q hq => .inr ?_⟩
  · rw [hl]
    exact h.inhabited
  · intro hfree
    rw [hl, h.language hfree]
    rfl
  · rw [Automaton.states_graph, Automaton.states_onSubsets, SortedSet.mem_ofList] at hq
    exact Allocator.mints_of_mem_block hm hq

/-! ## Whole evaluations -/

theorem Operands.built {x : Automaton × Automaton} {d : Expr} (h : Operands e f m x m')
    (hc : d.Made m' [x.1, x.2] a n) : d.Built m a n := by
  refine hc.built h.left.counter_le fun b hb => ?_
  rcases List.mem_pair.mp hb with rfl | rfl
  · exact h.left.minted
  · exact h.right.minted

theorem safe_eval : ∀ (e : Expr) (m : Allocator), Safe e.eval m (e.Built m)
  | word _, _ => safe_word.imp fun _ _ h => h.built (Nat.le_refl _) nofun
  | union _ e f, _ =>
    (safe_inOrder (safe_eval e) (safe_eval f)).bind fun _ _ h => h.union.imp fun _ _ hc => h.built hc
  | concat _ e f, _ =>
    (safe_inOrder (safe_eval e) (safe_eval f)).bind fun _ _ h => h.concat.imp fun _ _ hc => h.built hc
  | star e, m => (safe_eval e m).bind fun _ _ h =>
    h.star.imp fun _ _ hc => hc.built h.counter_le (List.forall_mem_singleton.mpr h.minted)
  | determinize e, m => (safe_eval e m).bind fun _ _ h =>
    h.determinize.imp fun _ _ hc => hc.built h.counter_le (List.forall_mem_singleton.mpr h.minted)

/-- An evaluation fails only when there is no state left to mint; else its result is valid, has only states minted on
the way, and decides the language of the expression if that has no star. -/
theorem eval_ok_unless_exhausted (e : Expr) (m : Allocator) :
    (∀ err m', e.eval m = .error err m' → err = .exhausted ∧ m'.room = 0) ∧
      ((∀ m', e.eval m ≠ .error .exhausted m') →
        ∃ a m', e.eval m = .ok a m' ∧ a.validate = .ok () ∧
          (∀ q ∈ a.states, m.counter.toNat ≤ q.ordinal.toNat ∧ q.ordinal.toNat < m'.counter.toNat) ∧
          (e.starFree → ∀ w,
            (w ∈ e.language → a.accepts w = .ok true) ∧ (w ∉ e.language → a.accepts w = .ok false))) := by
  have hsafe := safe_eval e m
  refine ⟨fun _ _ => hsafe.of_error, fun h => ?_⟩
  obtain ⟨a, m', heval, ha⟩ := hsafe.exists_ok h
  exact ⟨a, m', heval, ha.validate_minted_accepts⟩

/-- The words `abc` and `bc`. -/
def abOrBThenC : Expr :=
  .concat .right (.determinize (.union .left (.word ['a', 'b']) (.word ['b']))) (.word ['c'])

theorem eval_ok_unless_exhausted_abOrBThenC :
    (∀ m', abOrBThenC.eval ⟨7⟩ ≠ .error .exhausted m') ∧
      (∀ err m', abOrBThenC.eval ⟨7⟩ = .error err m' → err = .exhausted ∧ m'.room = 0) ∧
      ∃ a m', abOrBThenC.eval ⟨7⟩ = .ok a m' ∧ a.validate = .ok () ∧
        (∀ q ∈ a.states, (7 : UInt32).toNat ≤ q.ordinal.toNat ∧ q.ordinal.toNat < m'.counter.toNat) ∧
        ∀ w, (w ∈ abOrBThenC.language → a.accepts w = .ok true) ∧
          (w ∉ abOrBThenC.language → a.accepts w = .ok false) := by
  have h : ∃ a m', abOrBThenC.eval ⟨7⟩ = .ok a m' := ⟨_, _, rfl⟩
  obtain ⟨a, m', h⟩ := h
  have hne : ∀ m', abOrBThenC.eval ⟨7⟩ ≠ .error .exhausted m' := fun _ he => nomatch h.symm.trans he
  obtain ⟨herr, hok⟩ := eval_ok_unless_exhausted abOrBThenC ⟨7⟩
  obtain ⟨a, m', heval, hv, hminted, hlang⟩ := hok hne
  exact ⟨hne, herr, a, m', heval, hv, hminted, hlang rfl⟩

end Expr

end Automata
