import Mathlib.Data.List.Induction
import Mathlib.Data.String.Basic
import GuardLint.Text.Order

/-!
# Sorted texts

The texts of a list, each once and sorted, are given by what texts there are: neither their order
nor repetitions matter.
-/

namespace GuardLint.Text

variable {text t : String} {texts others : List String}

private theorem mem_insertSorted : t ∈ insertSorted text texts ↔ t = text ∨ t ∈ texts := by
  induction texts with
  | nil => rw [insertSorted, List.mem_singleton, or_iff_left List.not_mem_nil]
  | cons u us ih =>
    rw [insertSorted]
    split
    · exact List.mem_cons
    · rw [List.mem_cons, List.mem_cons, ih, or_left_comm]

private theorem pairwise_insertSorted (h : texts.Pairwise (· < ·)) (hn : text ∉ texts) :
    (insertSorted text texts).Pairwise (· < ·) := by
  induction texts with
  | nil => exact List.pairwise_singleton _ _
  | cons u us ih =>
    obtain ⟨hu, hus⟩ := List.pairwise_cons.mp h
    obtain ⟨hne, hnus⟩ := not_or.mp (mt List.mem_cons.mpr hn)
    rw [insertSorted]
    split
    · next hlt =>
      have hfirst : ∀ t ∈ u :: us, text < t :=
        List.forall_mem_cons.mpr ⟨hlt, fun t ht ↦ hlt.trans (hu t ht)⟩
      exact List.pairwise_cons.mpr ⟨hfirst, h⟩
    · next hge =>
      have hlt : u < text := lt_of_le_of_ne (not_lt.mp hge) (Ne.symm hne)
      refine List.pairwise_cons.mpr ⟨fun t ht ↦ ?_, ih hus hnus⟩
      rcases mem_insertSorted.mp ht with rfl | ht
      · exact hlt
      · exact hu t ht

private theorem sortedSet_concat (texts : List String) (text : String) :
    sortedSet (texts ++ [text]) = if (sortedSet texts).contains text then sortedSet texts
      else insertSorted text (sortedSet texts) := List.foldl_concat ..

theorem mem_sortedSet : t ∈ sortedSet texts ↔ t ∈ texts := by
  induction texts using List.reverseRecOn with
  | nil => exact Iff.rfl
  | append_singleton texts text ih =>
    rw [sortedSet_concat, List.mem_append, List.mem_singleton]
    split
    · next hin =>
      rw [List.contains_iff_mem] at hin
      rw [ih, or_iff_left_of_imp]
      rintro rfl
      exact ih.mp hin
    · rw [mem_insertSorted, ih, or_comm]

theorem pairwise_sortedSet (texts : List String) : (sortedSet texts).Pairwise (· < ·) := by
  induction texts using List.reverseRecOn with
  | nil => exact .nil
  | append_singleton texts text ih =>
    rw [sortedSet_concat]
    split
    · exact ih
    · next hout => exact pairwise_insertSorted ih fun hin ↦ hout (List.contains_iff_mem.mpr hin)

/-- The same texts, in whatever order and how often ever, give the same sorted list. -/
theorem sortedSet_congr (h : ∀ t, t ∈ texts ↔ t ∈ others) : sortedSet texts = sortedSet others := by
  have hnodup : ∀ ts, (sortedSet ts).Nodup := fun ts ↦ (pairwise_sortedSet ts).imp ne_of_lt
  refine List.Perm.eq_of_pairwise (fun a b _ _ hab hba ↦ absurd hab (lt_asymm hba))
    (pairwise_sortedSet texts) (pairwise_sortedSet others) ?_
  rw [List.perm_ext_iff_of_nodup (hnodup texts) (hnodup others)]
  intro t
  rw [mem_sortedSet, mem_sortedSet, h t]

end GuardLint.Text
