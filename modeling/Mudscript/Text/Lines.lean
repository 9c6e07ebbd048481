/-!
# Lines

A line ends with a newline, which may have a carriage return in front. What stands behind the last
newline is a line too, unless it is empty.
-/

namespace Mudscript.Text

def dropReturn (line : String) : String :=
  if line.endsWith "\r" then (line.dropEnd 1).toString else line

def linesOf : List String → List String
  | [] => []
  | [last] => if last.isEmpty then [] else [last]
  | piece :: rest => dropReturn piece :: linesOf rest

def lines (s : String) : List String := linesOf (s.splitOn "\n")

end Mudscript.Text
