import GuardLint.Proofs.Data.Table
import GuardLint.Proofs.Scope.NameText
import GuardLint.Proofs.Semantics.Numbering

/-!
# Source files with plain names of types

If the names of types in a source file are plain, so are the full names of its classes and those
that its imports give.
-/

namespace GuardLint

open Syntax

namespace UnitIndex

theorem plain_lastPart {n : String} (h : Plain n) : Plain (lastPart n) :=
  plain_ofList.mpr (h.of_subset fun _ hc ↦
    List.mem_reverse.mp ((List.takeWhile_prefix _).subset (List.mem_reverse.mp hc)))

/-- The single imports are those of the import declarations. -/
theorem plain_singleImports {x : UnitIndex}
    (h : ∀ i ∈ x.imports, ∀ n ∈ TypeName.ofImport i, Plain n) :
    ∀ r ∈ x.singleImports, Plain r.1 ∧ Plain r.2 := by
  unfold singleImports
  refine List.foldlRecOn
    (motive := fun table : List (String × String) ↦ ∀ r ∈ table, Plain r.1 ∧ Plain r.2) _ _
    (List.forall_mem_nil _) fun table htable i hi ↦ ?_
  obtain ⟨hi, hsingle⟩ := List.mem_filter.mp hi
  have hn : Plain i.name := h i hi i.name (by
    rw [← Bool.not_or, Bool.not_eq_true'] at hsingle
    rw [TypeName.ofImport, hsingle]
    exact List.mem_singleton_self _)
  exact forall_mem_setValue htable ⟨plain_lastPart hn, hn⟩

/-- The names of a class and in it are plain. -/
def PlainNest (k : Nest) : Prop :=
  Plain k.inner.fullName ∧ ∀ n ∈ TypeName.ofType k.inner.decl, Plain n

theorem plain_ofMember {k : Nest} {d : TypeDecl} (hk : Plain k.inner.fullName)
    (hd : ∀ n ∈ TypeName.ofType d, Plain n) : Plain (k.member d).inner.fullName :=
  plain_append.mpr ⟨plain_append.mpr ⟨hk, by decide⟩, hd _ (TypeName.name_mem_ofType d)⟩

mutual

theorem plainNest_nested (k : Nest) (d : TypeDecl) (hk : Plain k.inner.fullName)
    (heq : k.inner.decl = d) (hd : ∀ n ∈ TypeName.ofType d, Plain n) :
    ∀ j ∈ nested k d, PlainNest j := by
  obtain ⟨_, _, _, members, _, _, _, _⟩ := d
  rw [nested]
  refine List.forall_mem_cons.mpr ⟨⟨hk, heq ▸ hd⟩, ?_⟩
  refine plainNest_nestedMembers k members hk fun n hn ↦ hd n ?_
  rw [TypeName.ofType]
  exact List.mem_cons_of_mem _ (List.mem_append_right _ hn)

theorem plainNest_nestedMembers (k : Nest) (ms : List Member) (hk : Plain k.inner.fullName)
    (hms : ∀ n ∈ TypeName.ofMembers ms, Plain n) :
    ∀ j ∈ nestedMembers k ms, PlainNest j := by
  match ms with
  | [] =>
    rw [nestedMembers]
    exact List.forall_mem_nil _
  | m :: ms =>
    rw [TypeName.ofMembers] at hms
    obtain ⟨hm, hms⟩ := List.forall_mem_append.mp hms
    have ih := plainNest_nestedMembers k ms hk hms
    cases m with
    | type d =>
      rw [nestedMembers]
      rw [TypeName.ofMember] at hm
      refine List.forall_mem_append.mpr ⟨?_, ih⟩
      exact plainNest_nested (k.member d) d (plain_ofMember hk hm) rfl hm
    | field | method | initializer =>
      rw [nestedMembers]
      · exact ih
      · exact fun _ h ↦ nomatch h

end

theorem plain_topLevel {package : Option String} {d : TypeDecl} (hp : ∀ p ∈ package, Plain p)
    (hd : ∀ n ∈ TypeName.ofType d, Plain n) : Plain (topLevel package d).inner.fullName := by
  have hname : Plain d.name := hd _ (TypeName.name_mem_ofType d)
  unfold topLevel
  cases package with
  | none => exact hname
  | some p =>
    dsimp only
    split
    · exact hname
    · exact plain_append.mpr ⟨plain_append.mpr ⟨hp p rfl, by decide⟩, hname⟩

/-- What a source file says about names is plain if the names of types in it are. -/
theorem plainNames_ofUnit {unit : CompilationUnit} (h : ∀ n ∈ TypeName.ofUnit unit, Plain n) :
    (ofUnit unit).PlainNames := by
  simp only [TypeName.ofUnit, List.forall_mem_append, List.forall_mem_flatMap,
    Option.mem_toList] at h
  obtain ⟨⟨hpackage, himports⟩, htypes⟩ := h
  refine ⟨hpackage, plain_singleImports himports, fun k hk ↦ ?_⟩
  obtain ⟨d, hd, hk⟩ := List.mem_flatMap.mp hk
  exact plainNest_nested _ d (plain_topLevel hpackage (htypes d hd)) rfl (htypes d hd) k hk

end UnitIndex

/-- In a source file no name of a type has the mark of a variable, so without dollar signs they are
all plain. -/
theorem plain_of_parse {source : List Char} {unit : CompilationUnit}
    (h : CompilationUnit.parse source = .ok unit)
    (hd : ∀ n ∈ TypeName.ofUnit unit, '$' ∉ n.toList) : ∀ n ∈ TypeName.ofUnit unit, Plain n :=
  fun n hn ↦ ⟨hd n hn, CompilationUnit.unkeyed_of_parse h n hn⟩

end GuardLint
