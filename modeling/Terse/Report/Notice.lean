/-!
# Notices

One-line messages to the person at the terminal. Errors are introduced by a
word, since a terminal without colour shows no other difference; with colour the
whole line but not its line break is coloured.
-/

namespace Terse.Report

inductive Notice where
  | info
  | success
  | error
  deriving DecidableEq, Repr

inductive Colour where
  | blue
  | green
  | red
  deriving DecidableEq, Repr

def Colour.code : Colour → Nat
  | .blue => 34
  | .green => 32
  | .red => 31

namespace Notice

def colour : Notice → Colour
  | .info => .blue
  | .success => .green
  | .error => .red

def lead : Notice → String
  | .error => "Error: "
  | _ => ""

def render (n : Notice) (coloured : Bool) (text : String) : String :=
  let line := n.lead ++ text
  if coloured then "\x1b[" ++ toString n.colour.code ++ "m" ++ line ++
    "\x1b[39m\n" else line ++ "\n"

end Notice

end Terse.Report
