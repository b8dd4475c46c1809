import GuardLint.Text.Lines

/-!
# Unified line ends

What is left of a text whose line ends are unified: every carriage return is gone, with a line feed
in its place or before it, and every other character stands where it stood.
-/

namespace GuardLint.Text

/-- Unified line ends leave no carriage return. -/
theorem notMem_unifyNewlines (text : List Char) : '\r' ∉ unifyNewlines text := by
  fun_induction unifyNewlines text with
  | case1 => exact List.not_mem_nil
  | case2 text ih => simpa using ih
  | case3 c text h ih =>
    rw [List.mem_cons, not_or]
    refine ⟨?_, ih⟩
    split
    · decide
    · next hc => exact fun h ↦ hc h.symm

/-- A text without carriage returns keeps its line ends. -/
theorem unifyNewlines_of_notMem {text : List Char} (h : '\r' ∉ text) : unifyNewlines text = text := by
  fun_induction unifyNewlines text with
  | case1 => rfl
  | case2 text ih => exact absurd List.mem_cons_self h
  | case3 c text _ ih =>
    rw [List.mem_cons, not_or] at h
    rw [ih h.2, if_neg (Ne.symm h.1)]

/-- Unified line ends are those of the text exactly if no carriage return stands in it. -/
theorem unifyNewlines_eq_self_iff {text : List Char} : unifyNewlines text = text ↔ '\r' ∉ text :=
  ⟨fun h ↦ h ▸ notMem_unifyNewlines text, unifyNewlines_of_notMem⟩

/-- A text does not grow when its line ends are unified. -/
theorem length_unifyNewlines_le (text : List Char) :
    (unifyNewlines text).length ≤ text.length := by
  fun_induction unifyNewlines text with
  | case1 => exact Nat.le_refl 0
  | case2 text ih => simp only [List.length_cons]; omega
  | case3 c text h ih => simpa using ih

/-- Where a text with unified line ends is cut, so can the text be. -/
theorem exists_of_unifyNewlines_eq_append {text front back : List Char}
    (h : unifyNewlines text = front ++ back) : ∃ front' back', text = front' ++ back' ∧
      unifyNewlines front' = front ∧ unifyNewlines back' = back := by
  fun_induction unifyNewlines text generalizing front with
  | case1 =>
    obtain ⟨rfl, rfl⟩ := List.append_eq_nil_iff.mp h.symm
    exact ⟨[], [], rfl, rfl, rfl⟩
  | case2 text ih =>
    cases front with
    | nil => exact ⟨[], '\r' :: '\n' :: text, rfl, rfl, by rw [unifyNewlines]; exact h⟩
    | cons d front =>
      obtain ⟨rfl, hrest⟩ := List.cons.inj h
      obtain ⟨front', back', rfl, rfl, rfl⟩ := ih hrest
      exact ⟨'\r' :: '\n' :: front', back', rfl, by rw [unifyNewlines], rfl⟩
  | case3 c text hc ih =>
    cases front with
    | nil => exact ⟨[], c :: text, rfl, rfl, by rw [unifyNewlines.eq_3 c text hc]; exact h⟩
    | cons d front =>
      obtain ⟨rfl, hrest⟩ := List.cons.inj h
      obtain ⟨front', back', rfl, rfl, rfl⟩ := ih hrest
      -- No line feed follows in the front of the text either.
      refine ⟨c :: front', back', rfl, unifyNewlines.eq_3 c front' fun t hr ht ↦ ?_, rfl⟩
      exact hc (t ++ back') hr (by rw [ht, List.cons_append])

end GuardLint.Text
