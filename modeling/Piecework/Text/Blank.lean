/-!
# White space

The characters that count as blank, and what it means for a text to be blank
or to be trimmed.  Two classes are in use: the full Unicode `White_Space`
property decides whether a text says anything at all, while an expression may
only be laid out with space, tab, line feed and carriage return.
-/

namespace Piecework.Text

/-- The code points with the Unicode property `White_Space`. -/
def isBlank (c : Char) : Bool :=
  let n := c.toNat
  (9 ≤ n && n ≤ 13) || n == 0x20 || n == 0x85 || n == 0xA0 || n == 0x1680 ||
    (0x2000 ≤ n && n ≤ 0x200A) || n == 0x2028 || n == 0x2029 || n == 0x202F ||
    n == 0x205F || n == 0x3000

/-- The text without the blank characters at its front. -/
def trimFront (cs : List Char) : List Char :=
  cs.dropWhile isBlank

/-- The text without the blank characters at either end. -/
def trim (cs : List Char) : List Char :=
  (trimFront (trimFront cs).reverse).reverse

/-- A text is blank when trimming leaves nothing of it. -/
def allBlank (cs : List Char) : Bool :=
  cs.all isBlank

/-- `trim` on strings. -/
def trimText (s : String) : String :=
  String.ofList (trim s.toList)

/-- A string of blank characters only, the empty string included. -/
def blankText (s : String) : Bool :=
  allBlank s.toList

end Piecework.Text
