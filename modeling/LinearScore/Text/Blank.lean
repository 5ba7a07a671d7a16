/-!
# Blanks, words and lines

White space is the set of the Unicode property `White_Space`, twenty-five characters.  Everything
here works on `List Char`; the functions on `String` only wrap it.

## Main definitions

* `isBlank`: membership in the property
* `trim`: a text without the blanks at its two ends
* `words`: the maximal blank-free pieces of a text
* `lines`: the lines of a text, each without its line end
-/

namespace LinearScore.Text

/-- The characters with the property `White_Space`. -/
def isBlank (c : Char) : Bool :=
  (9 ≤ c.val && c.val ≤ 13) || c.val == 0x20 || c.val == 0x85 || c.val == 0xA0 ||
  c.val == 0x1680 || (0x2000 ≤ c.val && c.val ≤ 0x200A) || c.val == 0x2028 || c.val == 0x2029 ||
  c.val == 0x202F || c.val == 0x205F || c.val == 0x3000

/-- The characters left when the blanks in front are dropped. -/
def trimLeft (cs : List Char) : List Char := cs.dropWhile isBlank

/-- The characters left when the blanks at the end are dropped. -/
def trimRight (cs : List Char) : List Char := (trimLeft cs.reverse).reverse

/-- A text without the blanks at its two ends. -/
def trim (s : String) : String := String.ofList (trimRight (trimLeft s.toList))

/-- The maximal blank-free runs of characters, in order. -/
def wordChars (cs : List Char) : List (List Char) :=
  (cs.splitOnP isBlank).filter fun w => !w.isEmpty

/-- The maximal blank-free pieces of a text, in order. -/
def words (s : String) : List String := (wordChars s.toList).map String.ofList

/-- A line as it stands before its line feed, without the carriage return that may end it. -/
def dropReturn (line : List Char) : List Char :=
  if line.getLast? == some '\r' then line.dropLast else line

/-- The lines of a text.  A line ends at a line feed, a carriage return just before the feed
belongs to the line end, and a text that ends with a feed has no further, empty line. -/
def lineChars (cs : List Char) : List (List Char) :=
  let pieces := cs.splitOnP (· == '\n')
  let last := pieces.getLastD []
  pieces.dropLast.map dropReturn ++ (if last.isEmpty then [] else [last])

/-- The lines of a text, each without its line end. -/
def lines (s : String) : List String := (lineChars s.toList).map String.ofList

end LinearScore.Text
