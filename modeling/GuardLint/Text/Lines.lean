/-!
# Lines

Where the lines of a text end. A line feed, a carriage return, or the two together end a line, and
so do the other vertical controls, the three upper information separators, the next-line control
and the two Unicode separators.
-/

namespace GuardLint.Text

/-- A character that ends a line. -/
def endsLine (c : Char) : Bool :=
  let n := c.toNat
  (10 ≤ n && n ≤ 13) || (0x1c ≤ n && n ≤ 0x1e) || n == 0x85 || n == 0x2028 || n == 0x2029

/-- The lines of a text, each with what ends it; only the last may lack that. -/
def lines : List Char → List (List Char)
  | [] => []
  | '\r' :: '\n' :: text => ['\r', '\n'] :: lines text
  | c :: text =>
    if endsLine c then [c] :: lines text
    else match lines text with
      | [] => [[c]]
      | line :: others => (c :: line) :: others

/-- A text in which every line that a carriage return ends, with or without a line feed, ends in a
line feed alone. -/
def unifyNewlines : List Char → List Char
  | [] => []
  | '\r' :: '\n' :: text => '\n' :: unifyNewlines text
  | c :: text => (if c = '\r' then '\n' else c) :: unifyNewlines text

/-- Nothing is lost when a text is cut into lines. -/
theorem flatten_lines (text : List Char) : (lines text).flatten = text := by
  fun_induction lines text with
  | case1 => rfl
  | case2 text ih => simp [ih]
  | case3 c text h ih => simp_all
  | case4 c text h ih hend => simp_all
  | case5 c text h ih line others hend => simp_all

end GuardLint.Text
