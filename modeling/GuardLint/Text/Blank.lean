/-!
# Blank characters

The characters that separate words: those with the Unicode property White_Space, and the four
information separators from U+001C to U+001F.
-/

namespace GuardLint.Text

/-- A blank character separates words and is never part of one. -/
def isBlank (c : Char) : Bool :=
  let n := c.toNat
  if n < 128 then (9 ≤ n && n ≤ 13) || (28 ≤ n && n ≤ 32)
  else n == 0x85 || n == 0xa0 || n == 0x1680 || (0x2000 ≤ n && n ≤ 0x200a) ||
    n == 0x2028 || n == 0x2029 || n == 0x202f || n == 0x205f || n == 0x3000

end GuardLint.Text
