import GuardLint.Data.Table

/-!
# What a table says of a name

A value that is put in a table is the value of its name from then on, and no other name loses or
changes its value. In rows that have each name once the order does not matter.
-/

namespace GuardLint

variable {α : Type} {table rows others : List (String × α)} {n : String} {v : α}

private theorem lookup_row (m : String) (v : α) (rest : List (String × α)) (n : String) :
    ((m, v) :: rest).lookup n = if n = m then some v else rest.lookup n := by
  rw [List.lookup_cons]
  by_cases hn : n = m
  · rw [if_pos hn, beq_iff_eq.mpr hn]
  · rw [if_neg hn, beq_eq_false_iff_ne.mpr hn]

theorem lookup_setValue (table : List (String × α)) (name n : String) (value : α) :
    (setValue table name value).lookup n = if n = name then some value else table.lookup n := by
  induction table with
  | nil => exact lookup_row name value [] n
  | cons r rest ih =>
    obtain ⟨m, v⟩ := r
    rw [setValue]
    split
    · next hm =>
      subst hm
      rw [lookup_row, lookup_row]
      split <;> rfl
    · next hm =>
      rw [lookup_row, lookup_row, ih]
      split
      · next hn => rw [if_neg (hn ▸ hm)]
      · rfl

/-- Every row of a table with a new value was there before or has that value. -/
theorem forall_mem_setValue {p : String × α → Prop} {name : String} {value : α}
    (h : ∀ r ∈ table, p r) (hp : p (name, value)) : ∀ r ∈ setValue table name value, p r := by
  induction table with
  | nil => exact List.forall_mem_singleton.mpr hp
  | cons r rest ih =>
    obtain ⟨hr, hrest⟩ := List.forall_mem_cons.mp h
    obtain ⟨n, v⟩ := r
    rw [setValue]
    split
    · next heq => exact List.forall_mem_cons.mpr ⟨heq ▸ hp, hrest⟩
    · exact List.forall_mem_cons.mpr ⟨hr, ih hrest⟩

theorem nodup_setValue (h : (table.map Prod.fst).Nodup) (name : String) (value : α) :
    ((setValue table name value).map Prod.fst).Nodup := by
  induction table with
  | nil => exact List.pairwise_singleton _ _
  | cons r rest ih =>
    obtain ⟨m, v⟩ := r
    obtain ⟨hm, hrest⟩ := List.nodup_cons.mp h
    rw [setValue]
    split
    · exact h
    · next hne =>
      have hnew : ∀ r ∈ setValue rest name value, r.1 ≠ m :=
        forall_mem_setValue (fun r hr heq ↦ hm (List.mem_map.mpr ⟨r, hr, heq⟩)) (Ne.symm hne)
      refine List.nodup_cons.mpr ⟨fun hin ↦ ?_, ih hrest⟩
      obtain ⟨r, hr, heq⟩ := List.mem_map.mp hin
      exact hnew r hr heq

/-- Rows that are put in a table one after the other. -/
theorem nodup_foldl_setValue (h : (table.map Prod.fst).Nodup) (rows : List (String × α)) :
    ((rows.foldl (fun t r ↦ setValue t r.1 r.2) table).map Prod.fst).Nodup := by
  induction rows generalizing table with
  | nil => exact h
  | cons r rows ih => exact ih (nodup_setValue h r.1 r.2)

/-- Rows that have each name once take precedence over the table that they are put in. -/
theorem lookup_foldl_setValue (h : (rows.map Prod.fst).Nodup) (table : List (String × α))
    (n : String) : (rows.foldl (fun t r ↦ setValue t r.1 r.2) table).lookup n =
      (rows.lookup n).or (table.lookup n) := by
  induction rows generalizing table with
  | nil => rfl
  | cons r rows ih =>
    obtain ⟨m, v⟩ := r
    obtain ⟨hm, hrows⟩ := List.nodup_cons.mp h
    rw [List.foldl_cons, ih hrows, lookup_setValue, lookup_row]
    split
    · next hn =>
      have hnone : rows.lookup n = none := by
        rw [List.lookup_eq_none_iff]
        exact fun r hr ↦ bne_iff_ne.mpr fun heq ↦ hm (hn ▸ heq ▸ List.mem_map_of_mem hr)
      rw [hnone]
      rfl
    · rfl

theorem mem_of_lookup {κ β : Type} [BEq κ] [LawfulBEq κ] {rows : List (κ × β)} {k : κ} {b : β}
    (h : rows.lookup k = some b) : (k, b) ∈ rows := by
  obtain ⟨front, back, rfl, -⟩ := List.lookup_eq_some_iff.mp h
  exact List.mem_append_right front List.mem_cons_self

/-- In rows that have each name once, every row says what its name has for a value. -/
theorem lookup_of_mem (h : (rows.map Prod.fst).Nodup) (hv : (n, v) ∈ rows) :
    rows.lookup n = some v := by
  induction rows with
  | nil => cases hv
  | cons r rows ih =>
    obtain ⟨m, w⟩ := r
    obtain ⟨hm, hrows⟩ := List.nodup_cons.mp h
    rw [lookup_row]
    rcases List.mem_cons.mp hv with heq | hv
    · cases heq
      exact if_pos rfl
    · have hne : n ≠ m := fun heq ↦ hm (List.mem_map.mpr ⟨(n, v), hv, heq⟩)
      rw [if_neg hne, ih hrows hv]

theorem nodup_filter (h : (rows.map Prod.fst).Nodup) (p : String × α → Bool) :
    ((rows.filter p).map Prod.fst).Nodup :=
  h.sublist (List.filter_sublist.map Prod.fst)

/-- Rows that have each name once, those left out whose values are not wanted. -/
theorem lookup_filter (h : (rows.map Prod.fst).Nodup) (p : α → Bool) (n : String) :
    (rows.filter fun r ↦ p r.2).lookup n = (rows.lookup n).filter p := by
  cases hv : (rows.filter fun r ↦ p r.2).lookup n with
  | some v =>
    obtain ⟨hmem, hp⟩ := List.mem_filter.mp (mem_of_lookup hv)
    rw [lookup_of_mem h hmem, Option.filter_some, if_pos hp]
  | none =>
    cases hw : rows.lookup n with
    | none => rfl
    | some w =>
      by_cases hp : p w = true
      · have hmem := List.mem_filter (p := fun r ↦ p r.2).mpr ⟨mem_of_lookup hw, hp⟩
        rw [lookup_of_mem (nodup_filter h _) hmem] at hv
        cases hv
      · rw [Option.filter_some, if_neg hp]

/-- The order of rows that have each name once does not matter. -/
theorem lookup_of_perm (h : (rows.map Prod.fst).Nodup) (hp : rows.Perm others) (n : String) :
    rows.lookup n = others.lookup n := by
  have hothers : (others.map Prod.fst).Nodup := (hp.map Prod.fst).nodup h
  cases hv : others.lookup n with
  | some v => exact lookup_of_mem h (hp.mem_iff.mpr (mem_of_lookup hv))
  | none =>
    cases hw : rows.lookup n with
    | none => rfl
    | some v =>
      rw [lookup_of_mem hothers (hp.mem_iff.mp (mem_of_lookup hw))] at hv
      cases hv

end GuardLint
