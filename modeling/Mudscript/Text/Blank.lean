/-!
# Blank characters

The characters of the Unicode property White_Space, and the text without them at its ends.
-/

namespace Mudscript.Text

def isBlank (c : Char) : Bool :=
  let x := c.toNat
  (9 ≤ x && x ≤ 13) || x = 0x20 || x = 0x85 || x = 0xA0 || x = 0x1680 ||
    (0x2000 ≤ x && x ≤ 0x200A) || x = 0x2028 || x = 0x2029 || x = 0x202F || x = 0x205F || x = 0x3000

def trimStartChars (cs : List Char) : List Char := cs.dropWhile isBlank

def trimEndChars (cs : List Char) : List Char := (cs.reverse.dropWhile isBlank).reverse

def trimEnd (s : String) : String := String.ofList (trimEndChars s.toList)

def trim (s : String) : String := String.ofList (trimStartChars (trimEndChars s.toList))

end Mudscript.Text
