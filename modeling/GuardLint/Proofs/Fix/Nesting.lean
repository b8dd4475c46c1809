import GuardLint.Proofs.Fix.Application

/-!
# Nested fixes

Of some fixes any two lie apart, or one lies strictly inside the other. Then a fix is applied
exactly if no other lies inside it: the inner one starts later, so it comes first.
-/

namespace GuardLint

namespace Edit

/-- An edit lies strictly inside another. -/
def Inner (e f : Edit) : Prop := f.start < e.start ∧ e.stop < f.stop

/-- Two edits lie apart, or one lies strictly inside the other. -/
def Nested (e f : Edit) : Prop := e.Precedes f ∨ f.Precedes e ∨ e.Inner f ∨ f.Inner e

variable {n : Nat} {e f : Edit}

/-- Nested edits that overlap lie inside one another. -/
theorem Nested.inner_or (h : e.Nested f) (ho : e.overlaps f = true) : e.Inner f ∨ f.Inner e := by
  simp only [overlaps, Bool.and_eq_true, decide_eq_true_eq] at ho
  unfold Nested Precedes at h
  rcases h with h | h | h
  · omega
  · omega
  · exact h

/-- An edit neither lies apart from itself nor inside itself. -/
theorem Nested.irrefl (h : e.Nested e) (he : e.Inside n) : False := by
  have := he.nonempty
  unfold Nested Precedes Inner at h
  omega

/-- Edits that follow each other in a text do not lie inside one another. -/
theorem Inner.not_precedes (h : f.Inner e) (hf : f.Inside n) : ¬ e.Precedes f ∧ ¬ f.Precedes e := by
  have := hf.nonempty
  unfold Inner at h
  unfold Precedes
  omega

end Edit

namespace Fix

variable {n : Nat} {fixes : List Fix} {e f : Edit}

/-- If there are edits, some are applied. -/
theorem applied_ne_nil (h : fixes.filterMap edit? ≠ []) : applied fixes ≠ [] := by
  obtain ⟨e, he⟩ := List.exists_mem_of_ne_nil _ h
  rcases List.mem_append.mp ((applied_perm fixes).mem_iff.mpr he) with he | he
  · exact List.ne_nil_of_mem he
  · obtain ⟨f, hf, -⟩ := exists_applied_overlaps he
    exact List.ne_nil_of_mem hf

/-- Of two applied edits one ends before the other begins. -/
theorem precedes_or_of_mem_applied (h : ∀ f ∈ fixes, f.Fits n) (he : e ∈ applied fixes)
    (hf : f ∈ applied fixes) (hne : e ≠ f) : e.Precedes f ∨ f.Precedes e := by
  have : Std.Symm fun a b : Edit ↦ a.Precedes b ∨ b.Precedes a := ⟨fun _ _ h ↦ h.symm⟩
  have hall : (applied fixes).Pairwise fun a b ↦ a.Precedes b ∨ b.Precedes a :=
    (pairwise_applied h).imp Or.inl
  exact hall.forall he hf hne

section

variable (hn : ∀ e ∈ fixes.filterMap edit?, ∀ f ∈ fixes.filterMap edit?, e ≠ f → e.Nested f)

include hn

/-- An edit with no other inside it is applied. -/
private theorem mem_applied_of_innermost (he : e ∈ fixes.filterMap edit?)
    (hin : ∀ f ∈ fixes.filterMap edit?, ¬ f.Inner e) : e ∈ applied fixes := by
  rcases List.mem_append.mp ((applied_perm fixes).mem_iff.mpr he) with ha | hleft
  · exact ha
  · obtain ⟨f, hf, ho, hb⟩ := exists_applied_overlaps hleft
    by_cases hef : e = f
    · rwa [hef]
    · have hfe := mem_filterMap_of_mem_applied hf
      rcases (hn e he f hfe hef).inner_or ho with hi | hi
      · -- An edit inside another comes before it.
        rw [Bool.eq_false_iff, Ne, Edit.before_iff] at hb
        exact absurd (.inl hi.1) hb
      · exact absurd hi (hin f hfe)

/-- If an edit lies inside another, so does one that is applied. -/
private theorem exists_applied_inner (h : ∀ f ∈ fixes, f.Fits n)
    (hf : f ∈ fixes.filterMap edit?) (hi : f.Inner e) : ∃ g ∈ applied fixes, g.Inner e := by
  induction hlen : (f.stop - f.start).toNat using Nat.strongRecOn generalizing f with
  | ind k ih =>
    by_cases hin : ∀ g ∈ fixes.filterMap edit?, ¬ g.Inner f
    · exact ⟨f, mem_applied_of_innermost hn hf hin, hi⟩
    · obtain ⟨g, hg, hgf⟩ : ∃ g ∈ fixes.filterMap edit?, g.Inner f := by
        simpa only [not_forall, not_not, exists_prop] using hin
      have hsolid := (inside_of_mem_filterMap h hg).nonempty
      unfold Edit.Inner at hgf hi
      refine ih (g.stop - g.start).toNat (by omega) hg ?_ rfl
      unfold Edit.Inner
      omega

/-- Of edits that lie apart or inside one another, those are applied that have no other inside
them. -/
theorem mem_applied_iff (h : ∀ f ∈ fixes, f.Fits n) (he : e ∈ fixes.filterMap edit?) :
    e ∈ applied fixes ↔ ∀ f ∈ fixes.filterMap edit?, ¬ f.Inner e := by
  refine ⟨fun ha f hf hi ↦ ?_, mem_applied_of_innermost hn he⟩
  obtain ⟨g, hg, hge⟩ := exists_applied_inner hn h hf hi
  have hne : e ≠ g := by
    rintro rfl
    exact Int.lt_irrefl _ hge.1
  have hin := inside_of_mem_filterMap h (mem_filterMap_of_mem_applied hg)
  exact (precedes_or_of_mem_applied h ha hg hne).elim (hge.not_precedes hin).1
    (hge.not_precedes hin).2

end

end Fix

end GuardLint
