/-!
# Columns

Text brought to a least width, for listings and tables. Text that is already wider stays as it is.
-/

namespace Mudscript.Text

def padStart (width : Nat) (fill : Char) (s : String) : String :=
  "".pushn fill (width - s.length) ++ s

def padEnd (width : Nat) (fill : Char) (s : String) : String := s.pushn fill (width - s.length)

def joinLines (lines : List String) : String := "\n".intercalate lines

end Mudscript.Text
