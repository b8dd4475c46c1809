import GuardLint.Text.Lines

/-!
# Lines that line feeds end

A reader of a diff takes a text apart at its line feeds and nowhere else. These lines are fewer than
those of `lines`: a line of the one kind can hold several of the other. Where each line of the other
kind ends in a line feed, the two readings agree.
-/

namespace GuardLint.Text

/-- The lines of a text that line feeds end, each with its line feed; only the last may lack it. -/
def feedLines : List Char → List (List Char)
  | [] => []
  | c :: text =>
    if c = '\n' then [c] :: feedLines text
    else match feedLines text with
      | [] => [[c]]
      | line :: others => (c :: line) :: others

theorem feedLines_feed (text : List Char) : feedLines ('\n' :: text) = ['\n'] :: feedLines text := by
  rw [feedLines, if_pos rfl]

theorem feedLines_of_ne {c : Char} (hc : c ≠ '\n') (text : List Char) :
    feedLines (c :: text) = match feedLines text with
      | [] => [[c]]
      | line :: others => (c :: line) :: others := by
  rw [feedLines, if_neg hc]

/-- Nothing is lost when a text is cut at its line feeds. -/
theorem flatten_feedLines (text : List Char) : (feedLines text).flatten = text := by
  fun_induction feedLines text with
  | case1 => rfl
  | case2 text ih => simp [ih]
  | case3 c text h hnil ih => simpa [hnil] using ih
  | case4 c text h line others hcons ih => simpa [hcons] using ih

/-- A text that holds no line feed before its last character. -/
structure IsLine (line : List Char) : Prop where
  ne_nil : line ≠ []
  notMem : '\n' ∉ line.dropLast

/-- A text with one line feed at its end is a line. -/
theorem isLine_concat {front : List Char} (h : '\n' ∉ front) : IsLine (front ++ ['\n']) :=
  ⟨by simp, by rwa [List.dropLast_concat]⟩

/-- A mark and a line are a line. -/
theorem IsLine.cons {line : List Char} (h : IsLine line) {mark : Char} (hmark : mark ≠ '\n') :
    IsLine (mark :: line) := by
  refine ⟨List.cons_ne_nil _ _, ?_⟩
  rw [List.dropLast_cons_of_ne_nil h.ne_nil, List.mem_cons, not_or]
  exact ⟨Ne.symm hmark, h.notMem⟩

/-- A line is the only line of its text. -/
theorem IsLine.feedLines_eq {line : List Char} (h : IsLine line) : feedLines line = [line] := by
  induction line with
  | nil => exact absurd rfl h.ne_nil
  | cons c line ih =>
    cases line with
    | nil => by_cases hc : c = '\n' <;> simp [feedLines, hc]
    | cons d line =>
      have hmem : '\n' ≠ c ∧ '\n' ∉ (d :: line).dropLast := by simpa using h.notMem
      rw [feedLines_of_ne (Ne.symm hmem.1), ih ⟨List.cons_ne_nil _ _, hmem.2⟩]

theorem feedLines_ne_nil {text : List Char} (h : text ≠ []) : feedLines text ≠ [] :=
  fun hnil ↦ h (by rw [← flatten_feedLines text, hnil]; rfl)

/-- After a line feed the lines begin anew. -/
theorem feedLines_append {front : List Char} (h : front.getLast? = some '\n') (text : List Char) :
    feedLines (front ++ text) = feedLines front ++ feedLines text := by
  induction front with
  | nil => simp at h
  | cons c front ih =>
    cases front with
    | nil =>
      obtain rfl : c = '\n' := by simpa using h
      simp [feedLines]
    | cons d front =>
      have hrest := ih (by simpa using h)
      by_cases hc : c = '\n'
      · subst hc
        rw [List.cons_append, feedLines_feed, hrest, feedLines_feed, List.cons_append]
      · obtain ⟨line, others, hl⟩ :=
          List.exists_cons_of_ne_nil (feedLines_ne_nil (List.cons_ne_nil d front))
        rw [List.cons_append, feedLines_of_ne hc, hrest, feedLines_of_ne hc, hl]
        rfl

/-- Lines of which each that another follows ends in a line feed are the lines of their text. -/
theorem feedLines_flatten {lines : List (List Char)} (hline : ∀ line ∈ lines, IsLine line)
    (hend : lines.Pairwise fun line _ ↦ line.getLast? = some '\n') :
    feedLines lines.flatten = lines := by
  induction lines with
  | nil => rfl
  | cons line others ih =>
    rw [List.forall_mem_cons] at hline
    rw [List.pairwise_cons] at hend
    rw [List.flatten_cons]
    cases others with
    | nil => rw [List.flatten_nil, List.append_nil, hline.1.feedLines_eq]
    | cons next others =>
      rw [feedLines_append (hend.1 next List.mem_cons_self), hline.1.feedLines_eq,
        ih hline.2 hend.2, List.singleton_append]

/-- A line that anything may have ended holds no line feed but at its end. -/
theorem isLine_of_mem_lines {text : List Char} : ∀ line ∈ lines text, IsLine line := by
  fun_induction lines text with
  | case1 => simp
  | case2 text ih => exact List.forall_mem_cons.2 ⟨⟨by simp, by decide⟩, ih⟩
  | case3 c text hc hend ih => exact List.forall_mem_cons.2 ⟨⟨by simp, by simp⟩, ih⟩
  | case4 c text hc hend hnil ih => exact List.forall_mem_singleton.2 ⟨by simp, by simp⟩
  | case5 c text hc hend first others hcons ih =>
    rw [hcons, List.forall_mem_cons] at ih
    refine List.forall_mem_cons.2 ⟨ih.1.cons ?_, ih.2⟩
    rintro rfl
    exact hend (by decide)

end GuardLint.Text
