/-! # Options of an automaton -/

namespace Automata

/-- The treatment of epsilon edges that leave the states reached at the end of the input. -/
inductive Trailing where
  /-- They are followed before a final state is looked for. -/
  | follow
  /-- A final state behind such an edge does not count. -/
  | ignore
deriving DecidableEq, Inhabited

structure Options where
  trailing : Trailing
  maxSubsets : Option Nat
deriving DecidableEq

namespace Options

instance : Inhabited Options := ⟨⟨.follow, none⟩⟩

def withTrailing (o : Options) (t : Trailing) : Options := { o with trailing := t }

def withMaxSubsets (o : Options) (n : Nat) : Options := { o with maxSubsets := some n }

def unbounded (o : Options) : Options := { o with maxSubsets := none }

end Options

end Automata
