import Mathlib.Data.List.Forall2
import GuardLint.Proofs.Scope.Declaration

/-!
# Scopes that show declarations

Binding the variables of some declarations in a scope puts these declarations in front of those that
the scope shows. Of the fields of a class that have one name only the last is bound, which is the one
that the name would denote anyway.
-/

namespace GuardLint

open Syntax

/-! ### Fields of one name -/

namespace Variable

variable {vars : List Variable} {v x : Variable}

private theorem mem_of_mem_put (h : x ∈ put vars v) : x = v ∨ x ∈ vars := by
  induction vars with
  | nil => exact .inl (List.mem_singleton.mp h)
  | cons w vars ih =>
    unfold put at h
    split at h
    · exact (List.mem_cons.mp h).imp_right (List.mem_cons_of_mem w)
    · rcases List.mem_cons.mp h with rfl | h
      · exact .inr List.mem_cons_self
      · exact (ih h).imp_right (List.mem_cons_of_mem w)

private theorem find?_put (n : String) :
    (put vars v).find? (·.name == n) =
      if v.name = n then some v else vars.find? (·.name == n) := by
  induction vars with
  | nil => by_cases hv : v.name = n <;> simp [put, hv]
  | cons w vars ih =>
    unfold put
    split
    · next hw => by_cases hv : v.name = n <;> simp [hw, hv]
    · next hw =>
      by_cases hn : w.name = n
      · have hv : v.name ≠ n := fun h ↦ hw (hn.trans h.symm)
        simp [hn, hv]
      · simp [hn, ih]

private theorem nodup_put (h : (vars.map name).Nodup) : ((put vars v).map name).Nodup := by
  induction vars with
  | nil => exact List.nodup_singleton _
  | cons w vars ih =>
    obtain ⟨hw, h⟩ := List.nodup_cons.mp h
    unfold put
    split
    · next heq => exact List.nodup_cons.mpr ⟨heq ▸ hw, h⟩
    · next hne =>
      refine List.nodup_cons.mpr ⟨fun hmem ↦ ?_, ih h⟩
      obtain ⟨x, hx, hname⟩ := List.mem_map.mp hmem
      rcases mem_of_mem_put hx with rfl | hx
      · exact hne hname.symm
      · exact hw (hname ▸ List.mem_map_of_mem hx)

/-- In a list with one variable to a name, the order does not matter to a name. -/
private theorem find?_reverse (h : (vars.map name).Nodup) (n : String) :
    vars.reverse.find? (·.name == n) = vars.find? (·.name == n) := by
  induction vars with
  | nil => rfl
  | cons w vars ih =>
    obtain ⟨hw, h⟩ := List.nodup_cons.mp h
    rw [List.reverse_cons, List.find?_append, ih h]
    by_cases hn : w.name = n
    · have hnone : vars.find? (·.name == n) = none := by
        rw [List.find?_eq_none]
        intro x hx hxn
        exact hw (List.mem_map.mpr ⟨x, hx, (beq_iff_eq.mp hxn).trans hn.symm⟩)
      rw [hnone]
      simp [hn]
    · simp [hn]

/-- Variables put one after the other into an empty list. -/
private def gathered (vars : List Variable) : List Variable := vars.foldl put []

private theorem gathered_append (vars : List Variable) (v : Variable) :
    gathered (vars ++ [v]) = put (gathered vars) v := List.foldl_concat ..

private theorem nodup_gathered (vars : List Variable) : ((gathered vars).map name).Nodup := by
  induction vars using List.reverseRecOn with
  | nil => exact .nil
  | append_singleton vars v ih =>
    rw [gathered_append]
    exact nodup_put ih

/-- Of the variables with one name, the last is kept. -/
private theorem find?_gathered (vars : List Variable) (n : String) :
    (gathered vars).reverse.find? (·.name == n) = vars.reverse.find? (·.name == n) := by
  rw [find?_reverse (nodup_gathered vars)]
  induction vars using List.reverseRecOn with
  | nil => rfl
  | append_singleton vars v ih =>
    rw [gathered_append, find?_put, ih, List.reverse_append, List.reverse_singleton]
    by_cases hv : v.name = n <;> simp [hv]

private theorem mem_of_mem_gathered (h : x ∈ gathered vars) : x ∈ vars := by
  induction vars using List.reverseRecOn with
  | nil => cases h
  | append_singleton vars v ih =>
    rw [gathered_append] at h
    rcases mem_of_mem_put h with rfl | h
    · exact List.mem_append_right vars (List.mem_singleton.mpr rfl)
    · exact List.mem_append_left [v] (ih h)

end Variable

theorem ClassInfo.kind_of_mem_fields {c : ClassInfo} {x : Variable} (h : x ∈ c.fields) :
    x.kind = .field :=
  c.kind_of_mem_written (Variable.mem_of_mem_gathered h)

theorem ClassInfo.owner_of_mem_fields {c : ClassInfo} {x : Variable} (h : x ∈ c.fields) :
    x.owner = some c.fullName :=
  c.owner_of_mem_written (Variable.mem_of_mem_gathered h)

/-- Every field of a class is the field of its name. -/
theorem ClassInfo.field?_name {c : ClassInfo} {x : Variable} (h : x ∈ c.fields) :
    c.field? x.name = some x := by
  have hnodup : (c.fields.map Variable.name).Nodup := Variable.nodup_gathered c.written
  rw [field?, List.find?_eq_some_iff_append]
  refine ⟨beq_self_eq_true _, ?_⟩
  obtain ⟨front, back, heq⟩ := List.append_of_mem h
  refine ⟨front, back, heq, fun y hy ↦ ?_⟩
  rw [heq, List.map_append, List.nodup_append] at hnodup
  have hne := hnodup.2.2 y.name (List.mem_map_of_mem hy) x.name List.mem_cons_self
  simpa using hne

/-- A class has one field to a name, so it does not matter from which end they are searched. -/
theorem ClassInfo.find?_reverse_fields (c : ClassInfo) (n : String) :
    c.fields.reverse.find? (·.name == n) = c.field? n :=
  Variable.find?_reverse (Variable.nodup_gathered c.written) n

/-! ### Scopes and declarations in force -/

/-- Values that may be missing are related if both are missing or both are there and related. -/
theorem rel_cases {α β : Type} {R : α → β → Prop} {a : Option α} {b : Option β}
    (h : Option.Rel R a b) : a = none ∧ b = none ∨ ∃ x y, a = some x ∧ b = some y ∧ R x y := by
  cases h with
  | none => exact .inl ⟨rfl, rfl⟩
  | some h => exact .inr ⟨_, _, rfl, rfl, h⟩

/-- The first hits in two lists that are related one by one are related. -/
theorem rel_find? {α β : Type} {R : α → β → Prop} {xs : List α} {ys : List β}
    (h : List.Forall₂ R xs ys) {p : α → Bool} {q : β → Bool} (hpq : ∀ x y, R x y → p x = q y) :
    Option.Rel R (xs.find? p) (ys.find? q) := by
  induction h with
  | nil => exact .none
  | @cons x y xs ys hxy _ ih =>
    rw [List.find?_cons, List.find?_cons, hpq x y hxy]
    cases q y with
    | true => exact .some hxy
    | false => exact ih

namespace Scope

/-- A scope shows some declarations, the innermost first: a name denotes the variable of the first
that declares it, and the variables other than fields are declared by those other than of fields,
one by one. -/
structure Shows (s : Scope) (bs : List Binding) : Prop where
  lookup (name : String) : Option.Rel (fun b x ↦ b.declaration.Declares x)
    (bs.find? (·.declaration.name == name)) (s.lookup name)
  vars : List.Forall₂ (fun b x ↦ b.declaration.Declares x)
    (bs.filter (!·.declaration.isField)) (s.filter (·.kind != .field))

variable {s : Scope} {bs cs : List Binding} {ds : List Declaration} {vars : List Variable}

theorem shows_nil : Shows [] [] where
  lookup _ := .none
  vars := .nil

private theorem rel_or {α β : Type} {R : α → β → Prop} {a a' : Option α} {b b' : Option β}
    (h : Option.Rel R a b) (h' : Option.Rel R a' b') : Option.Rel R (a.or a') (b.or b') := by
  cases h with
  | none => exact h'
  | some h => exact .some h

private theorem rel_filter (h : List.Forall₂ (fun b x ↦ b.declaration.Declares x) cs vars) :
    List.Forall₂ (fun b x ↦ b.declaration.Declares x) (cs.filter (!·.declaration.isField))
      (vars.filter (·.kind != .field)) := by
  refine List.rel_filter ?_ h
  intro b x hd
  simp [bne, hd.kind_eq]

/-- The declarations as they hold in a region, the last of them innermost. -/
def held (region : Location) (ds : List Declaration) : List Binding :=
  (ds.map fun d ↦ ⟨d, region⟩).reverse

private theorem declares_held (region : Location) (h : List.Forall₂ Declaration.Declares ds vars) :
    List.Forall₂ (fun b x ↦ b.declaration.Declares x) (held region ds) vars.reverse := by
  refine List.rel_reverse ?_
  rw [List.forall₂_map_left_iff]
  exact h

/-- Declared variables come in front of those in scope. -/
theorem Shows.bind (h : s.Shows bs) (hd : List.Forall₂ Declaration.Declares ds vars)
    (region : Location) : (s.bind vars).Shows (held region ds ++ bs) where
  lookup n := by
    rw [Scope.lookup, Scope.bind, List.find?_append, List.find?_append]
    refine rel_or (rel_find? (declares_held region hd) fun b x hx ↦ ?_) (h.lookup n)
    rw [hx.name_eq]
  vars := by
    rw [Scope.bind, List.filter_append, List.filter_append]
    exact List.rel_append (rel_filter (declares_held region hd)) h.vars

/-- The fields of a class come in front of those in scope; of several with one name the last
counts. -/
theorem Shows.bind_fields (h : s.Shows bs) (c : ClassInfo) (region : Location) :
    (s.bind c.fields).Shows (held region c.declarations ++ bs) where
  lookup n := by
    have hfind : (c.fields.reverse ++ s).find? (·.name == n) =
        (c.written.reverse ++ s).find? (·.name == n) := by
      rw [List.find?_append, List.find?_append]
      exact congrArg (Option.or · _) (Variable.find?_gathered c.written n)
    rw [Scope.lookup, Scope.bind, hfind]
    exact (h.bind c.declares_written region).lookup n
  vars := by
    have hkind : ∀ x ∈ c.fields.reverse, ¬ (x.kind != .field) = true := by
      intro x hx
      simp [ClassInfo.kind_of_mem_fields (List.mem_reverse.mp hx)]
    have hheld : ∀ b ∈ held region c.declarations, ¬ (!b.declaration.isField) = true := by
      intro b hb
      obtain ⟨d, hd, rfl⟩ := List.mem_map.mp (List.mem_reverse.mp hb)
      simp [Declaration.isField_of_mem_ofBody hd]
    rw [Scope.bind, List.filter_append, List.filter_append, List.filter_eq_nil_iff.mpr hkind,
      List.filter_eq_nil_iff.mpr hheld]
    exact h.vars

end Scope

end GuardLint
