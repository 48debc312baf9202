/-!
# Blank characters

* `isBlank`: the characters of white space.
* `trim`: a text without the blanks at its ends.
-/

namespace FunRiscv.Text

/-- Whether a character is white space: the tab and the controls after it up to the carriage return,
the blank, the next line and the spaces of other widths. -/
def isBlank (c : Char) : Bool :=
  let n := c.toNat
  (9 ≤ n && n ≤ 13) || n == 0x20 || n == 0x85 || n == 0xa0 || n == 0x1680 ||
    (0x2000 ≤ n && n ≤ 0x200a) || n == 0x2028 || n == 0x2029 || n == 0x202f || n == 0x205f ||
    n == 0x3000

/-- A text without the blanks at its ends. -/
def trim (s : String) : String :=
  String.ofList (((s.toList.dropWhile isBlank).reverse.dropWhile isBlank).reverse)

end FunRiscv.Text
