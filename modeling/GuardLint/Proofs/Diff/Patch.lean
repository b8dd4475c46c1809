import GuardLint.Diff.Unified
import GuardLint.Proofs.Text.LineFeeds

/-!
# Patches

What a unified diff says to do with a text. A diff is taken apart at its line feeds. Lines before the
first head are passed over; a head says how many lines of either text its hunk has, so that a line
is a line of a hunk for its place and not for its look. A hunk is applied where its head puts it, to
lines that must be there already. A line that begins with a backslash takes the line feed from the
line before it: so a diff can speak of a last line that lacks one.

What `Hunk.render` writes is read back as the hunks it was written from.
-/

namespace GuardLint.Diff

variable {Line : Type}

/-- Reads a number and what follows it. -/
def number? (text : List Char) : Option (Nat × List Char) :=
  let digits := text.takeWhile Char.isDigit
  if digits.isEmpty then none
  else some (Nat.ofDigitChars 10 digits 0, text.dropWhile Char.isDigit)

/-- Reads how many lines are before some lines and how many these are, the inverse of `range`. -/
def range? (text : List Char) : Option ((Nat × Nat) × List Char) := do
  let (first, text) ← number? text
  let (count, text) ← match text with
    | ',' :: text => number? text
    | text => some (1, text)
  if count = 0 then some ((first, 0), text)
  else if first = 0 then none
  else some ((first - 1, count), text)

/-- What the head of a hunk says. -/
structure Head where
  oldStart : Nat
  oldCount : Nat
  newStart : Nat
  newCount : Nat
  deriving DecidableEq, Repr

/-- Reads the head of a hunk. -/
def head? : List Char → Option Head
  | '@' :: '@' :: ' ' :: '-' :: text => do
    let ((oldStart, oldCount), text) ← range? text
    let ' ' :: '+' :: text := text | none
    let ((newStart, newCount), text) ← range? text
    let ' ' :: '@' :: '@' :: _ := text | none
    some ⟨oldStart, oldCount, newStart, newCount⟩
  | _ => none

/-- Reads a line of a hunk. -/
def Change.ofLine? : List Char → Option (Change (List Char))
  | ' ' :: line => some (.keep line)
  | '-' :: line => some (.drop line)
  | '+' :: line => some (.add line)
  | _ => none

/-- Reads the changes that are left of a hunk, with `old` lines of the one text and `new` of the
other, and the hunks after it. -/
def hunks? (old new : Nat) :
    List (List Char) → Option (List (Change (List Char)) × List (Hunk (List Char)))
  | [] => if old = 0 ∧ new = 0 then some ([], []) else none
  | line :: lines =>
    if old = 0 ∧ new = 0 then do
      let h ← head? line
      let (changes, hunks) ← hunks? h.oldCount h.newCount lines
      some ([], ⟨h.oldStart, h.newStart, changes⟩ :: hunks)
    else do
      let c ← Change.ofLine? line
      if c.old?.toList.length ≤ old ∧ c.new?.toList.length ≤ new then
        let (changes, hunks) ←
          hunks? (old - c.old?.toList.length) (new - c.new?.toList.length) lines
        some (c :: changes, hunks)
      else none

/-- Takes the line feed from each line that a line with a backslash follows. -/
def unmark : List (List Char) → List (List Char)
  | line :: mark :: lines =>
    if mark.head? = some '\\' then line.dropLast :: unmark lines
    else line :: unmark (mark :: lines)
  | lines => lines

/-- Applies hunks to the lines that are left of a text, when `read` lines of it are behind and
`written` lines of the new text. -/
def patchLines [DecidableEq Line] (read written : Nat) :
    List (Hunk Line) → List Line → Option (List Line)
  | [], old => some old
  | h :: hunks, old =>
    let gap := h.oldStart - read
    let before := h.changes.filterMap Change.old?
    let after := h.changes.filterMap Change.new?
    if read ≤ h.oldStart ∧ written + gap = h.newStart ∧ gap ≤ old.length ∧
        before <+: old.drop gap then
      (patchLines (h.oldStart + before.length) (h.newStart + after.length) hunks
        ((old.drop gap).drop before.length)).map (old.take gap ++ after ++ ·)
    else none

/-- The text that a diff makes of a text, if it fits it. -/
def patch? (text diff : List Char) : Option (List Char) := do
  let lines := unmark ((Text.feedLines diff).dropWhile fun line ↦ (head? line).isNone)
  let (_, hunks) ← hunks? 0 0 lines
  let lines ← patchLines 0 0 hunks (Text.feedLines text)
  some lines.flatten

section Reading

/-- A number that is written is read back. -/
theorem number?_toDigits (n : Nat) {text : List Char}
    (h : ∀ c ∈ text.head?, c.isDigit = false) :
    number? (Nat.toDigits 10 n ++ text) = some (n, text) := by
  have hall : ∀ c ∈ Nat.toDigits 10 n, c.isDigit = true := fun c hc ↦
    Nat.isDigit_of_mem_toDigits (by decide) (by decide) hc
  have htake : text.takeWhile Char.isDigit = [] := by cases text <;> simp_all
  have hdrop : text.dropWhile Char.isDigit = text := by cases text <;> simp_all
  rw [number?, List.takeWhile_append_of_pos hall, List.dropWhile_append_of_pos hall, htake, hdrop,
    List.append_nil, Nat.ofDigitChars_toDigits (by decide) (by decide)]
  simp

theorem toList_range (start count : Nat) :
    (range start count).toList =
      if count = 1 then Nat.toDigits 10 (start + 1)
      else if count = 0 then Nat.toDigits 10 start ++ [',', '0']
      else Nat.toDigits 10 (start + 1) ++ ',' :: Nat.toDigits 10 count := by
  have comma : (toString ",").toList = [','] := rfl
  have zero : (toString ",0").toList = [',', '0'] := rfl
  unfold range
  split
  · simp
  · split <;> simp [comma, zero]

/-- A range that is written is read back. -/
theorem range?_range (start count : Nat) (text : List Char) :
    range? ((range start count).toList ++ ' ' :: text) = some ((start, count), ' ' :: text) := by
  have space : ∀ c ∈ (' ' :: text).head?, c.isDigit = false := by simp
  have comma : ∀ (rest : List Char), ∀ c ∈ (',' :: rest).head?, c.isDigit = false := by simp
  rw [toList_range]
  split
  · next hone => simp [range?, number?_toDigits _ space, hone]
  · next hone =>
    split
    · next hzero =>
      have h0 : number? ('0' :: ' ' :: text) = some (0, ' ' :: text) := number?_toDigits 0 space
      simp [range?, number?_toDigits _ (comma _), h0, hzero]
    · next hzero => simp [range?, number?_toDigits _ (comma _), number?_toDigits _ space, hzero]

theorem Hunk.toList_head (h : Hunk Line) :
    h.head.toList = '@' :: '@' :: ' ' :: '-' ::
      ((range h.oldStart (h.changes.filterMap Change.old?).length).toList ++ ' ' :: '+' ::
        ((range h.newStart (h.changes.filterMap Change.new?).length).toList ++
          [' ', '@', '@', '\n'])) := by
  simp only [Hunk.head, String.toList_append, List.append_assoc]
  rfl

/-- The head of a hunk that is written is read back. -/
theorem head?_head (h : Hunk Line) :
    head? h.head.toList = some
      ⟨h.oldStart, (h.changes.filterMap Change.old?).length, h.newStart,
        (h.changes.filterMap Change.new?).length⟩ := by
  simp [h.toList_head, head?, range?_range]

/-- A line of a hunk that is written is read back. -/
theorem Change.ofLine?_render (c : Change (List Char)) : Change.ofLine? c.render = some c := by
  cases c <;> rfl

/-- The number of lines that a change has in a text, and those after it. -/
theorem length_filterMap_cons {α β : Type} (side : α → Option β) (a : α) (l : List α) :
    ((a :: l).filterMap side).length = (side a).toList.length + (l.filterMap side).length := by
  cases h : side a <;> simp [h, Nat.add_comm]

/-- Every change is a line of one of the texts. -/
theorem Change.one_le_length (c : Change Line) :
    1 ≤ c.old?.toList.length + c.new?.toList.length := by
  cases c <;> simp [Change.old?, Change.new?]

/-- The changes of a hunk are read back up to where its head says that they end. -/
theorem hunks?_changes {lines : List (List Char)} {hs : List (Hunk (List Char))}
    (h : hunks? 0 0 lines = some ([], hs)) (changes : List (Change (List Char))) :
    hunks? (changes.filterMap Change.old?).length (changes.filterMap Change.new?).length
      (changes.map Change.render ++ lines) = some (changes, hs) := by
  induction changes with
  | nil => exact h
  | cons c changes ih =>
    have hone := c.one_le_length
    simp only [length_filterMap_cons, List.map_cons, List.cons_append]
    rw [hunks?, if_neg (by omega), Change.ofLine?_render]
    simp [ih]

/-- The lines of a hunk that is written. -/
def Hunk.lines (h : Hunk (List Char)) : List (List Char) :=
  h.head.toList :: h.changes.map Change.render

theorem Hunk.flatten_lines (h : Hunk (List Char)) : h.lines.flatten = h.render := by
  rw [Hunk.lines, Hunk.render, List.flatten_cons, List.flatMap_def]

/-- Hunks that are written are read back. -/
theorem hunks?_lines (hs : List (Hunk (List Char))) :
    hunks? 0 0 (hs.flatMap Hunk.lines) = some ([], hs) := by
  induction hs with
  | nil => rfl
  | cons h hs ih =>
    rw [List.flatMap_cons, Hunk.lines, List.cons_append, hunks?, if_pos ⟨rfl, rfl⟩, head?_head]
    simp [hunks?_changes ih]

/-- No line of a hunk takes a line feed from the one before it. -/
theorem unmark_lines (hs : List (Hunk (List Char))) :
    unmark (hs.flatMap Hunk.lines) = hs.flatMap Hunk.lines := by
  have unmarked : ∀ lines : List (List Char), (∀ line ∈ lines, line.head? ≠ some '\\') →
      unmark lines = lines := by
    intro lines hlines
    fun_induction unmark lines with
    | case1 line mark lines hmark ih => exact absurd hmark (hlines mark (by simp))
    | case2 line mark lines hmark ih =>
      rw [ih fun l hl ↦ hlines l (List.mem_cons_of_mem _ hl)]
    | case3 => rfl
  refine unmarked _ fun line hline ↦ ?_
  obtain ⟨h, -, hline⟩ := List.mem_flatMap.1 hline
  obtain rfl | hline := List.mem_cons.1 hline
  · simp [h.toList_head]
  · obtain ⟨c, -, rfl⟩ := List.mem_map.1 hline
    cases c <;> simp [Change.render]

end Reading

section Rendering

/-- The line that a change is about. -/
def Change.line : Change Line → Line
  | .keep line | .drop line | .add line => line

variable {c : Change (List Char)} {hs : List (Hunk (List Char))}

theorem Change.isLine_render (h : Text.IsLine c.line) : Text.IsLine c.render := by
  cases c <;> exact h.cons (by decide)

theorem Change.getLast?_render (h : c.line.getLast? = some '\n') :
    c.render.getLast? = some '\n' := by
  cases c <;> exact (List.getLast?_cons ..).trans (by simp_all [Change.line])

theorem notMem_range (start count : Nat) : '\n' ∉ (range start count).toList := by
  have notMem (n : Nat) : '\n' ∉ Nat.toDigits 10 n := fun h ↦
    absurd (Nat.isDigit_of_mem_toDigits (by decide) (by decide) h) (by decide)
  rw [toList_range]
  split
  · exact notMem _
  · split <;> simp [notMem]

/-- The head of a hunk is one line. -/
theorem Hunk.exists_head (h : Hunk Line) :
    ∃ front, h.head.toList = front ++ ['\n'] ∧ '\n' ∉ front := by
  refine ⟨['@', '@', ' ', '-'] ++ (range h.oldStart (h.changes.filterMap Change.old?).length).toList
    ++ [' ', '+'] ++ (range h.newStart (h.changes.filterMap Change.new?).length).toList
    ++ [' ', '@', '@'], by simp [h.toList_head], by simp [notMem_range]⟩

/-- Each line of hunks that are written is a line, if those of their changes are. -/
theorem isLine_of_mem_lines (hline : ∀ c ∈ hs.flatMap Hunk.changes, Text.IsLine c.line) :
    ∀ line ∈ hs.flatMap Hunk.lines, Text.IsLine line := by
  intro line hmem
  obtain ⟨h, hh, hmem⟩ := List.mem_flatMap.1 hmem
  obtain rfl | hmem := List.mem_cons.1 hmem
  · obtain ⟨front, heq, hfront⟩ := h.exists_head
    exact heq ▸ Text.isLine_concat hfront
  · obtain ⟨c, hc, rfl⟩ := List.mem_map.1 hmem
    exact Change.isLine_render (hline c (List.mem_flatMap.2 ⟨h, hh, hc⟩))

/-- A line of hunks that are written ends in a line feed where the line of its change does. -/
theorem pairwise_lines (hne : ∀ h ∈ hs, h.changes ≠ [])
    (hend : (hs.flatMap Hunk.changes).Pairwise fun c _ ↦ c.line.getLast? = some '\n') :
    (hs.flatMap Hunk.lines).Pairwise fun line _ ↦ line.getLast? = some '\n' := by
  induction hs with
  | nil => exact .nil
  | cons h hs ih =>
    rw [List.forall_mem_cons] at hne
    rw [List.flatMap_cons, List.pairwise_append] at hend
    obtain ⟨hown, hothers, hnext⟩ := hend
    rw [List.flatMap_cons, Hunk.lines, List.cons_append, List.pairwise_cons, List.pairwise_append]
    refine ⟨fun _ _ ↦ ?_, List.pairwise_map.2 (hown.imp Change.getLast?_render), ih hne.2 hothers,
      fun line hl other ho ↦ ?_⟩
    · obtain ⟨front, heq, -⟩ := h.exists_head
      simp [heq]
    · -- another hunk follows, and it has a change
      obtain ⟨c, hc, rfl⟩ := List.mem_map.1 hl
      obtain ⟨k, hk, -⟩ := List.mem_flatMap.1 ho
      obtain ⟨d, hd⟩ := List.exists_mem_of_ne_nil _ (hne.2 k hk)
      exact Change.getLast?_render (hnext c hc d (List.mem_flatMap.2 ⟨k, hk, hd⟩))

/-- Hunks that are written have the lines they were written from, if each line but the last ends in
a line feed. -/
theorem feedLines_render (hne : ∀ h ∈ hs, h.changes ≠ [])
    (hline : ∀ c ∈ hs.flatMap Hunk.changes, Text.IsLine c.line)
    (hend : (hs.flatMap Hunk.changes).Pairwise fun c _ ↦ c.line.getLast? = some '\n') :
    Text.feedLines (hs.flatMap Hunk.render) = hs.flatMap Hunk.lines := by
  have htext : hs.flatMap Hunk.render = (hs.flatMap Hunk.lines).flatten := by
    rw [← List.flatMap_id, List.flatMap_assoc]
    simp only [List.flatMap_id, Hunk.flatten_lines]
  rw [htext, Text.feedLines_flatten (isLine_of_mem_lines hline) (pairwise_lines hne hend)]

end Rendering

end GuardLint.Diff
