import Automata.Display.Cell

/-! # Boxes -/

namespace Automata.Display

structure Grid where
  header : List Cell
  rows : List (List Cell)
deriving DecidableEq

namespace Grid

def columnWidths (g : Grid) : List Nat :=
  g.rows.foldl (fun ws row => List.zipWith max ws (row.map Cell.width)) (g.header.map Cell.width)

def texts (g : Grid) : List (List String) := (g.header :: g.rows).map (·.map Cell.ansi)

end Grid

namespace Box

def rule (left cross right : String) (widths : List Nat) : String :=
  left ++ cross.intercalate (widths.map fun w => String.ofList (List.replicate (w + 2) '─')) ++ right

def pad (w : Nat) (c : Cell) : String := c.ansi ++ String.ofList (List.replicate (w - c.width) ' ')

def line (widths : List Nat) (row : List Cell) : String :=
  "│ " ++ " │ ".intercalate (List.zipWith pad widths row) ++ " │"

def lines (g : Grid) : List String :=
  let ws := g.columnWidths
  let top := [rule "╭" "┬" "╮" ws, line ws g.header, rule "├" "┼" "┤" ws]
  let bottom := if g.rows.isEmpty then [] else [rule "╰" "┴" "╯" ws]
  top ++ g.rows.map (line ws) ++ bottom

def render (g : Grid) : String := "\n".intercalate (lines g)

end Box

end Automata.Display
