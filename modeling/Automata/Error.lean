import Automata.State
import Automata.Symbol

/-! # Errors -/

namespace Automata

inductive Error where
  | epsilonInDeterministic (source : State)
  | unknownState (q : State)
  | missingInitial
  | noFinalStates
  | undeclaredTransition (source : State) (symbol : Symbol) (target : State)
  | undeclaredState (q : State)
  | incompleteTable (q : State) (c : Char)
  | staleState (q : State)
  | sharedStates (count : Nat)
  | tooManyStates (limit : Nat)
deriving DecidableEq

inductive ErrorKind where
  | invalidArgument
  | invalidState
  | invalidMachine
  | preconditionViolation
  | resourceLimit
deriving DecidableEq

namespace Error

def kind : Error → ErrorKind
  | epsilonInDeterministic _ => .invalidArgument
  | unknownState _ => .invalidState
  | missingInitial | noFinalStates | undeclaredTransition .. | undeclaredState _ | incompleteTable .. =>
    .invalidMachine
  | staleState _ | sharedStates _ => .preconditionViolation
  | tooManyStates _ => .resourceLimit

def message : Error → String
  | epsilonInDeterministic p =>
    "epsilon can not label a transition in a deterministic table (from " ++ p.text ++ ")"
  | unknownState q => "state " ++ q.text ++ " is not part of the automaton"
  | missingInitial => "automaton has no initial state"
  | noFinalStates => "automaton has no final states"
  | undeclaredTransition p x q =>
    "transition " ++ p.text ++ " --" ++ x.text ++ "--> " ++ q.text ++ " uses a state that is not declared"
  | undeclaredState q => "state " ++ q.text ++ " is designated initial or final but not declared"
  | incompleteTable q c =>
    "transition table incomplete: no transition from " ++ q.text ++ " on '" ++ c.toString ++ "'"
  | staleState q =>
    "freshly minted state " ++ q.text ++ " is already in use, the allocator was probably reset"
  | sharedStates n => "the operands share " ++ n.repr ++ " states"
  | tooManyStates n => "subset construction exceeded the limit of " ++ n.repr ++ " states"

end Error

end Automata
