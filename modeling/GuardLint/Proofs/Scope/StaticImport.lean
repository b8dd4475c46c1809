import GuardLint.Scope.UnitIndex

/-!
# What static imports give

A method name that no class around explains comes from a static import: from the class that gives
the name in an import of its own, and if there is none from one of the classes whose members are all
imported.
-/

namespace GuardLint

open Syntax

/-! ### Names without repetition -/

theorem mem_distinct {names : List String} {n : String} : n ∈ distinct names ↔ n ∈ names := by
  have hfold : ∀ seen : List String, n ∈ names.foldl
      (fun seen n ↦ if seen.contains n then seen else seen ++ [n]) seen ↔ n ∈ seen ∨ n ∈ names := by
    induction names with
    | nil => simp
    | cons m names ih =>
      intro seen
      rw [List.foldl_cons, ih, List.mem_cons]
      by_cases hm : m ∈ seen
      · rw [if_pos (List.contains_iff_mem.mpr hm)]
        constructor
        · rintro (h | h)
          · exact .inl h
          · exact .inr (.inr h)
        · rintro (h | rfl | h)
          · exact .inl h
          · exact .inl hm
          · exact .inr h
      · rw [if_neg (mt List.contains_iff_mem.mp hm), List.mem_append, List.mem_singleton, or_assoc]
  exact (hfold []).trans (by simp)

theorem nodup_distinct (names : List String) : (distinct names).Nodup := by
  unfold distinct
  refine List.foldlRecOn (motive := List.Nodup) _ _ List.nodup_nil fun seen hseen n _ ↦ ?_
  split
  · exact hseen
  · next hn =>
    rw [List.contains_iff_mem] at hn
    exact List.nodup_append.mpr ⟨hseen, List.pairwise_singleton _ n, fun a ha b hb ↦ by
      rintro rfl
      exact hn (List.mem_singleton.mp hb ▸ ha)⟩

namespace UnitIndex

/-- An import gives a static member of some name, and its class. -/
def Gives (i : ImportDecl) (member owner : String) : Prop :=
  i.isStatic = true ∧ i.onDemand = false ∧ lastPart i.name = member ∧ ownerPart i.name = owner

/-- The static imports of a source file say that a member comes from a class: an import of the
member itself, or if there is none an import of all members of the class. -/
def ImportsFrom (x : UnitIndex) (member owner : String) : Prop :=
  (∃ i ∈ x.imports, Gives i member owner) ∨
    (∀ i ∈ x.imports, ∀ other, ¬ Gives i member other) ∧
      ∃ i ∈ x.imports, i.isStatic = true ∧ i.onDemand = true ∧ i.name = owner

variable {x : UnitIndex} {member owner : String}

private theorem mem_single : owner ∈ (x.staticImports.filter (·.1 == member)).map Prod.snd ↔
    ∃ i ∈ x.imports, Gives i member owner := by
  simp only [staticImports, List.mem_map, List.mem_filter, Bool.and_eq_true, Bool.not_eq_true',
    beq_iff_eq, Gives, Prod.exists, Prod.mk.injEq, exists_eq_right]
  grind

theorem mem_staticOwners : owner ∈ x.staticOwners member ↔ x.ImportsFrom member owner := by
  unfold staticOwners ImportsFrom
  split
  · next hnone =>
    have hno : ∀ i ∈ x.imports, ∀ other, ¬ Gives i member other := fun i hi other hg ↦ by
      have hmem := mem_single.mpr ⟨i, hi, hg⟩
      rw [hnone] at hmem
      cases hmem
    rw [mem_distinct]
    constructor
    · intro h
      obtain ⟨i, hi, rfl⟩ := List.mem_map.mp h
      obtain ⟨hi, hstatic⟩ := List.mem_filter.mp hi
      rw [Bool.and_eq_true] at hstatic
      exact .inr ⟨hno, i, hi, hstatic.1, hstatic.2, rfl⟩
    · rintro (⟨i, hi, hg⟩ | ⟨-, i, hi, hs, hd, rfl⟩)
      · exact absurd hg (hno i hi owner)
      · exact List.mem_map_of_mem (List.mem_filter.mpr ⟨hi, by rw [hs, hd]; rfl⟩)
  · next hsome =>
    rw [mem_distinct, mem_single]
    refine ⟨.inl, fun h ↦ h.resolve_right ?_⟩
    rintro ⟨hno, -⟩
    refine hsome (List.eq_nil_iff_forall_not_mem.mpr fun other hother ↦ ?_)
    obtain ⟨i, hi, hg⟩ := mem_single.mp hother
    exact hno i hi other hg

theorem nodup_staticOwners (x : UnitIndex) (member : String) : (x.staticOwners member).Nodup := by
  unfold staticOwners
  split <;> exact nodup_distinct _

end UnitIndex

end GuardLint
