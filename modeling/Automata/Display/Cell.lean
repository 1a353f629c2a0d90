import Automata.Display.Width

/-! # Cells of text -/

namespace Automata.Display

inductive Style where
  | plain
  | bold
  | green
deriving DecidableEq

structure Cell where
  style : Style
  text : String
deriving DecidableEq

namespace Cell

def width (c : Cell) : Nat := c.text.toList.foldl (fun n x => n + charWidth x) 0

def ansi (c : Cell) : String :=
  match c.style with
  | .plain => c.text
  | .bold => "\x1b[1m" ++ c.text ++ "\x1b[0m"
  | .green => "\x1b[32m" ++ c.text ++ "\x1b[39m"

end Cell

end Automata.Display
