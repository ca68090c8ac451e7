import Terse.Text.CellWidth

/-!
# Tables

Boxed tables of text. Every column is as wide as its widest line, with one space
on either side. A cell may hold several lines, and then its row is that many
lines high. A double rule follows the header and a dashed rule separates rows; a
table without rows is its header between a double rule and the bottom edge.
-/

namespace Terse.Report

inductive Alignment where
  | left
  | right
  deriving DecidableEq, Repr

/-- The content of one field, line by line. -/
structure Cell where
  lines : List (List Char)
  alignment : Alignment := .left

namespace Cell

def left (s : String) : Cell where
  lines := s.toList.splitOn '\n'

def right (s : String) : Cell where
  lines := s.toList.splitOn '\n'
  alignment := .right

def width (c : Cell) : Nat := (c.lines.map Text.CellWidth.ofText).foldl max 0

/-- Line `i` of the cell, filled up to `w` cells and set off by a space on
either side. -/
def line (c : Cell) (w i : Nat) : List Char :=
  let text := c.lines.getD i []
  let fill := List.replicate (w - Text.CellWidth.ofText text) ' '
  ' ' :: (match c.alignment with
    | .left => text ++ fill
    | .right => fill ++ text) ++ [' ']

end Cell

structure Table where
  header : List String
  rows : List (List Cell)

namespace Table

def headerCells (t : Table) : List Cell := t.header.map Cell.left

def widths (t : Table) : List Nat :=
  t.rows.foldl (fun ws row => ws.zipWith max (row.map Cell.width))
    (t.headerCells.map Cell.width)

/-- A horizontal rule, from its left end, its line, its crossings and its right
end. -/
def rule (ws : List Nat) (start stroke cross stop : Char) : List Char :=
  start :: [cross].intercalate (ws.map fun w => List.replicate (w + 2) stroke)
    ++ [stop]

def rowLines (ws : List Nat) (row : List Cell) : List (List Char) :=
  let height := (row.map (·.lines.length)).foldl max 0
  (List.range height).map fun i =>
    '│' :: ['┆'].intercalate (ws.zipWith (fun w c => c.line w i) row) ++ ['│']

def lines (t : Table) : List (List Char) :=
  let ws := t.widths
  [rule ws '┌' '─' '┬' '┐'] ++ rowLines ws t.headerCells ++
    [rule ws '╞' '═' '╪' '╡'] ++
    [rule ws '├' '╌' '┼' '┤'].intercalate (t.rows.map (rowLines ws)) ++
    [rule ws '└' '─' '┴' '┘']

def render (t : Table) : String :=
  String.ofList (t.lines.flatMap (· ++ ['\n']))

end Table

end Terse.Report
