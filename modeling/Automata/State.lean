import Automata.SortedSet

/-! # States -/

namespace Automata

structure State where
  ordinal : UInt32
deriving DecidableEq, Inhabited

namespace State

instance : Ord State := ⟨compareOn ordinal⟩

instance : Std.TransOrd State := inferInstanceAs (Std.TransCmp (compareOn ordinal))

instance : Std.LawfulEqOrd State where
  eq_of_compare {p q} h := by
    obtain ⟨p⟩ := p; obtain ⟨q⟩ := q
    exact congrArg mk (Std.LawfulEqOrd.eq_of_compare (α := UInt32) h)

theorem ordinal_inj {p q : State} : p.ordinal = q.ordinal ↔ p = q := by
  cases p; cases q; simp

theorem compare_eq_lt {p q : State} : compare p q = .lt ↔ p.ordinal < q.ordinal :=
  Std.compare_eq_lt (a := p.ordinal) (b := q.ordinal)

def text (q : State) : String := "q" ++ q.ordinal.toNat.repr

end State

abbrev StateSet := SortedSet State

namespace StateSet

/-- A listing `{q1, q3}`; the empty set has a sign of its own. -/
def text (s : StateSet) : String :=
  if s.isEmpty then "∅" else "\x7b" ++ ", ".intercalate (s.toList.map State.text) ++ "\x7d"

end StateSet

end Automata
