import Automata.SortedSet

/-! # Symbols and alphabets -/

namespace Automata

inductive Symbol where
  | epsilon
  | char (c : Char)
deriving DecidableEq, Inhabited

namespace Symbol

def char? : Symbol → Option Char
  | epsilon => none
  | char c => some c

def isEpsilon : Symbol → Bool
  | epsilon => true
  | char _ => false

theorem char?_inj : ∀ {x y : Symbol}, x.char? = y.char? → x = y
  | epsilon, epsilon, _ => rfl
  | char _, char _, h => congrArg char (Option.some.inj h)

/-- Epsilon comes before all characters, which keep their order by code point. -/
instance : Ord Symbol := ⟨compareOn char?⟩

instance : Std.TransOrd Symbol := inferInstanceAs (Std.TransCmp (compareOn char?))

instance : Std.LawfulEqOrd Symbol where
  eq_of_compare h := char?_inj (Std.LawfulEqOrd.eq_of_compare (α := Option Char) h)

def text : Symbol → String
  | epsilon => "ε"
  | char c => c.toString

end Symbol

abbrev Alphabet := SortedSet Char

namespace Alphabet

def ofSymbols (l : List Symbol) : Alphabet := SortedSet.ofList (l.filterMap Symbol.char?)

theorem mem_ofSymbols {l : List Symbol} {c : Char} : c ∈ ofSymbols l ↔ .char c ∈ l := by
  simp only [ofSymbols, SortedSet.mem_ofList, List.mem_filterMap]
  refine ⟨fun h => ?_, fun h => ⟨_, h, rfl⟩⟩
  obtain ⟨x, hx, h⟩ := h
  rwa [← Symbol.char?_inj (y := .char c) h]

def addSymbol (s : Alphabet) : Symbol → Bool × Alphabet
  | .epsilon => (false, s)
  | .char c => (c ∉ s, s.insert c)

def text (s : Alphabet) : String := "\x7b" ++ ", ".intercalate (s.toList.map Char.toString) ++ "\x7d"

end Alphabet

end Automata
