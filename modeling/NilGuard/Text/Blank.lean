/-! White space. The reader of dumps and the reader of target files know only a few
blank characters of ASCII; numerals and target specifications admit every character
with the White_Space property. -/
namespace NilGuard.Text

/-- The White_Space property: tab to carriage return, the space, and the spaces and
line separators beyond ASCII. The four information separators below the space and
the zero-width characters do not have it. -/
def isBlank (c : Char) : Bool :=
  let n := c.toNat
  (9 ≤ n && n ≤ 13) || n == 0x20 || n == 0x85 || n == 0xA0 || n == 0x1680 ||
    (0x2000 ≤ n && n ≤ 0x200A) || n == 0x2028 || n == 0x2029 || n == 0x202F ||
    n == 0x205F || n == 0x3000

/-- The blank characters of ASCII: tab, newline, vertical tab, form feed, carriage
return and the space. -/
def isAsciiBlank (c : Char) : Bool :=
  let n := c.toNat
  (9 ≤ n && n ≤ 13) || n == 0x20

/-- Removes the blank characters at both ends. -/
def trim (cs : List Char) : List Char :=
  ((cs.dropWhile isBlank).reverse.dropWhile isBlank).reverse

end NilGuard.Text
