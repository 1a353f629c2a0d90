import Automata.Proofs.Expressions

/-!
# Schedules

A schedule makes automata in any order and keeps those that are not yet part of another
one in a pool, where no two of them ever have a state in common.
-/

namespace Automata

/-- The left operand and the right one, of the one that was made last and the one that was made first. -/
def Side.operands {α : Type} : Side → α → α → α × α
  | left, last, first => (first, last)
  | right, last, first => (last, first)

namespace Schedule

open Minting (Safe)

structure Part where
  expr : Expr
  automaton : Automaton

/-- What is done next to the pool. A combination is made of what lies on top, and replaces it. -/
inductive Step
  | word (w : List Char)
  | bring (i : Nat)
  | union (first : Side)
  | concat (first : Side)
  | star
  | determinize

-- a step does nothing if there is not enough in the pool
def Step.exec : Step → List Part → Minting (List Part)
  | word w, l => do
    let a ← Automaton.spellOut w
    return ⟨.word w, a⟩ :: l
  | bring i, l => return l[i]?.elim l (· :: l.eraseIdx i)
  | union first, x :: y :: l => do
    let z := first.operands x y
    let a ← z.1.automaton.union z.2.automaton
    return ⟨.union first z.1.expr z.2.expr, a⟩ :: l
  | concat first, x :: y :: l => do
    let z := first.operands x y
    let a ← Minting.ofExcept (z.1.automaton.concat z.2.automaton)
    return ⟨.concat first z.1.expr z.2.expr, a⟩ :: l
  | star, x :: l => do
    let a ← Minting.ofExcept x.automaton.star
    return ⟨.star x.expr, a⟩ :: l
  | determinize, x :: l => do
    let a ← x.automaton.determinize none
    return ⟨.determinize x.expr, a⟩ :: l
  | _, l => pure l

def run : List Step → List Part → Minting (List Part)
  | [], l => pure l
  | s :: r, l => do
    let l ← s.exec l
    run r l

/-- All parts have been built since the counter of `m` was read, from states of their own. -/
structure Pool (m : Allocator) (l : List Part) (n : Allocator) : Prop where
  counter_le : m.counter.toNat ≤ n.counter.toNat
  built : ∀ x ∈ l, x.expr.Built m x.automaton n
  disjoint : l.Pairwise fun x y => ∀ q ∈ x.automaton.graph.states, q ∉ y.automaton.graph.states

namespace Pool

variable {m n m' : Allocator} {l u : List Part} {x y : Part} {first : Side} {e : Expr} {a : Automaton}

theorem perm {l' : List Part} (h : Pool m l n) (hl : l.Perm l') : Pool m l' n where
  counter_le := h.counter_le
  built x hx := h.built x (hl.mem_iff.mpr hx)
  disjoint := hl.pairwise h.disjoint fun hd q hq hq' => hd q hq' hq

/-- What is made of some parts has no state of another, since all states minted meanwhile are new. -/
theorem replace (h : Pool m (u ++ l) n) (ha : e.Made n (u.map Part.automaton) a m') : Pool m (⟨e, a⟩ :: l) m' := by
  obtain ⟨_, hl, hdisjoint⟩ := List.pairwise_append.mp h.disjoint
  have hminted : ∀ b ∈ u.map Part.automaton, ∀ q ∈ b.graph.states, m.Mints n q := by
    intro b hb
    obtain ⟨x, hx, rfl⟩ := List.mem_map.mp hb
    exact (h.built x (List.mem_append_left l hx)).minted
  have hold : ∀ y ∈ l, y.expr.Built m y.automaton n := fun y hy => h.built y (List.mem_append_right u hy)
  refine ⟨Nat.le_trans h.counter_le ha.counter_le, fun y hy => ?_, List.pairwise_cons.mpr ⟨fun y hy q hq hqy => ?_, hl⟩⟩
  · rcases List.mem_cons.mp hy with rfl | hy
    · exact ha.built h.counter_le hminted
    · exact (hold y hy).widen (Nat.le_refl _) ha.counter_le
  · rcases ha.origin q hq with ⟨b, hb, hqb⟩ | hnew
    · obtain ⟨x, hx, rfl⟩ := List.mem_map.mp hb
      exact hdisjoint x hx y hy q hqb hqy
    · exact Nat.lt_irrefl _ (Nat.lt_of_lt_of_le ((hold y hy).minted q hqy).2 hnew.1)

theorem safe_replace {c : Minting Automaton} (h : Pool m (u ++ l) n)
    (hc : Safe c n (e.Made n (u.map Part.automaton))) : Safe (do return ⟨e, ← c⟩ :: l) n (Pool m) :=
  hc.bind fun _ _ ha => meets_of_ok rfl (h.replace ha)

theorem operands (h : Pool m (x :: y :: l) n) :
    Pool m ([(first.operands x y).1, (first.operands x y).2] ++ l) n := by
  cases first with
  | left => exact h.perm (.swap y x l)
  | right => exact h

theorem on_top (h : Pool m (x :: y :: l) n) : Expr.Operands x.expr y.expr m (x.automaton, y.automaton) n := by
  obtain ⟨hx, _⟩ := List.pairwise_cons.mp h.disjoint
  exact ⟨h.built x (by simp), h.built y (by simp), hx y (List.mem_cons_self ..)⟩

theorem bring {i : Nat} (h : Pool m l n) : Pool m (l[i]?.elim l (· :: l.eraseIdx i)) n := by
  rcases Nat.lt_or_ge i l.length with hi | hi
  · rw [List.getElem?_eq_getElem hi]
    exact h.perm (List.getElem_cons_eraseIdx_perm hi).symm
  · rw [List.getElem?_eq_none hi]
    exact h

theorem exec : ∀ {s : Step} {l : List Part}, Pool m l n → Safe (s.exec l) n (Pool m)
  | .word _, _, h => h.safe_replace (u := []) Expr.safe_word
  | .bring _, _, h => meets_of_ok rfl h.bring
  | .union _, _ :: _ :: _, h => h.operands.safe_replace h.operands.on_top.union
  | .concat _, _ :: _ :: _, h => h.operands.safe_replace h.operands.on_top.concat
  | .star, x :: _, h => h.safe_replace (u := [x]) (h.built x (List.mem_cons_self ..)).star
  | .determinize, x :: _, h => h.safe_replace (u := [x]) (h.built x (List.mem_cons_self ..)).determinize
  | .union _, [], h | .union _, [_], h | .concat _, [], h | .concat _, [_], h | .star, [], h | .determinize, [], h =>
    meets_of_ok rfl h

theorem run : ∀ {r : List Step} {l : List Part} {n : Allocator}, Pool m l n → Safe (run r l) n (Pool m)
  | [], _, _, h => meets_of_ok rfl h
  | _ :: _, _, _, h => h.exec.bind fun _ _ h => h.run

end Pool

/-- Whatever the order of its steps, a schedule fails only when there is no state left to mint; else the automata in the
pool do what their expressions ask for and share no state. -/
theorem run_ok_unless_exhausted (r : List Step) (m : Allocator) :
    (∀ err m', run r [] m = .error err m' → err = .exhausted ∧ m'.room = 0) ∧
      ((∀ m', run r [] m ≠ .error .exhausted m') →
        ∃ l m', run r [] m = .ok l m' ∧
          (∀ x ∈ l, x.automaton.validate = .ok () ∧
            (∀ q ∈ x.automaton.states, m.counter.toNat ≤ q.ordinal.toNat ∧ q.ordinal.toNat < m'.counter.toNat) ∧
            (x.expr.starFree → ∀ w, (w ∈ x.expr.language → x.automaton.accepts w = .ok true) ∧
              (w ∉ x.expr.language → x.automaton.accepts w = .ok false))) ∧
          l.Pairwise fun x y => ∀ q ∈ x.automaton.states, q ∉ y.automaton.states) := by
  have hempty : Pool m [] m := ⟨Nat.le_refl _, nofun, .nil⟩
  have hsafe := hempty.run (r := r)
  refine ⟨fun _ _ => hsafe.of_error, fun h => ?_⟩
  obtain ⟨l, m', hrun, hl⟩ := hsafe.exists_ok h
  refine ⟨l, m', hrun, fun x hx => (hl.built x hx).validate_minted_accepts, ?_⟩
  simp only [← Automaton.states_graph]
  exact hl.disjoint

/-- All words are spelt out before any two of them are combined. -/
example : ∃ a m', run [.word ['a'], .word ['b'], .word ['c'], .bring 2, .bring 2, .union .left, .concat .right] [] ⟨7⟩ =
    .ok [⟨.concat .right (.union .left (.word ['a']) (.word ['b'])) (.word ['c']), a⟩] m' := ⟨_, _, rfl⟩

/-! ## The order of the tree -/

def inOrder (first : Side) (k l : List Step) : List Step :=
  match first with
  | .left => k ++ l
  | .right => l ++ k

def ofExpr : Expr → List Step
  | .word w => [.word w]
  | .union first e f => inOrder first (ofExpr e) (ofExpr f) ++ [.union first]
  | .concat first e f => inOrder first (ofExpr e) (ofExpr f) ++ [.concat first]
  | .star e => ofExpr e ++ [.star]
  | .determinize e => ofExpr e ++ [.determinize]

theorem run_ofExpr : ∀ (e : Expr) (r : List Step) (l : List Part),
    run (ofExpr e ++ r) l = do run r (⟨e, ← e.eval⟩ :: l)
  | .word w, r, l => by simp [ofExpr, run, Step.exec, Expr.eval]
  | .union first e f, r, l => by
    cases first <;>
      simp [ofExpr, inOrder, run_ofExpr e, run_ofExpr f, run, Step.exec, Expr.eval, Side.operands, Minting.inOrder]
  | .concat first e f, r, l => by
    cases first <;>
      simp [ofExpr, inOrder, run_ofExpr e, run_ofExpr f, run, Step.exec, Expr.eval, Side.operands, Minting.inOrder]
  | .star e, r, l => by simp [ofExpr, run_ofExpr e, run, Step.exec, Expr.eval]
  | .determinize e, r, l => by simp [ofExpr, run_ofExpr e, run, Step.exec, Expr.eval]

end Schedule

end Automata
