import GuardLint.Proofs.Scope.ClassName
import GuardLint.Proofs.Scope.Import
import GuardLint.Proofs.Syntax.Numbers

/-!
# Which class a simple name means

Scoping makes the member class of the nearest class around visible, or else a class that no class
surrounds. The names of types are not resolved by it: of the classes of a source file that have a
simple name the first one is taken wherever the name is written. That is the visible one as long as
no other class of the file has the name and no anonymous class is around, whose member classes are
not listed.
-/

namespace GuardLint

open Syntax

/-- The class of some simple name that a class declares as a member. -/
def ClassInfo.memberClass? (k : ClassInfo) (n : String) : Option ClassInfo :=
  k.decl.members.findSome? fun
    | .type d => if d.name = n then some ⟨d, k.fullName ++ "." ++ d.name⟩ else none
    | _ => none

/-- The class of some simple name that scoping makes visible in some classes, the innermost first:
the member class of the nearest one that declares one, or else a class that no class surrounds. -/
def Syntax.CompilationUnit.visibleClass? (unit : CompilationUnit) (around : List ClassInfo)
    (n : String) : Option ClassInfo :=
  (around.findSome? (·.memberClass? n)).or
    ((unit.types.find? (·.name == n)).map fun d ↦ (UnitIndex.topLevel unit.package d).inner)

namespace UnitIndex

variable {unit : CompilationUnit} {m : Nest} {k : ClassInfo} {n : String} {around : List ClassInfo}

mutual

/-- The classes nested in a class nested in another are nested in that one. -/
theorem nested_subset_nested (n : Nest) (d : TypeDecl) (hd : n.inner.decl = d) :
    ∀ m ∈ nested n d, nested m m.inner.decl ⊆ nested n d := by
  obtain ⟨_, _, _, members, _, _, _, _⟩ := d
  intro m hm
  rw [nested] at hm
  rcases List.mem_cons.mp hm with rfl | hm
  · rw [hd]
    exact List.Subset.refl _
  · rw [nested]
    exact List.subset_cons_of_subset _ (nested_subset_nestedMembers n members m hm)

theorem nested_subset_nestedMembers (n : Nest) (ms : List Member) :
    ∀ m ∈ nestedMembers n ms, nested m m.inner.decl ⊆ nestedMembers n ms := by
  match ms with
  | [] =>
    rw [nestedMembers]
    exact List.forall_mem_nil _
  | .type d :: ms =>
    intro m hm
    rw [nestedMembers] at hm ⊢
    rcases List.mem_append.mp hm with hm | hm
    · exact List.subset_append_of_subset_left _ (nested_subset_nested (n.member d) d rfl m hm)
    · exact List.subset_append_of_subset_right _ (nested_subset_nestedMembers n ms m hm)
  | .field _ :: ms | .method _ :: ms | .initializer .. :: ms =>
    rw [nestedMembers]
    · exact nested_subset_nestedMembers n ms
    · exact fun _ h ↦ nomatch h

end

theorem topLevel_mem {d : TypeDecl} (hd : d ∈ unit.types) :
    topLevel unit.package d ∈ (ofUnit unit).classes :=
  List.mem_flatMap.mpr ⟨d, hd, mem_nested_self _ d⟩

/-- The member classes of the classes listed are listed. -/
theorem member_mem (hm : m ∈ (ofUnit unit).classes) {d : TypeDecl}
    (hd : .type d ∈ m.inner.decl.members) : m.member d ∈ (ofUnit unit).classes := by
  obtain ⟨e, he, hm⟩ := List.mem_flatMap.mp hm
  refine List.mem_flatMap.mpr ⟨e, he, ?_⟩
  exact nested_subset_nested (topLevel unit.package e) e rfl m hm
    (mem_nested_of_member (mem_nested_self _ d) hd)

/-- Around classes that are listed, the class that scoping makes visible is listed too. -/
theorem exists_of_visibleClass? (haround : ∀ k ∈ around, k ∈ (ofUnit unit).classes.map Nest.inner)
    (h : unit.visibleClass? around n = some k) :
    ∃ m ∈ (ofUnit unit).classes, m.inner = k ∧ k.decl.name = n := by
  rcases Option.or_eq_some_iff.mp h with hmember | ⟨-, htop⟩
  · obtain ⟨j, hj, hclass⟩ := List.exists_of_findSome?_eq_some hmember
    obtain ⟨m, hm, rfl⟩ := List.mem_map.mp (haround j hj)
    obtain ⟨member, hd, hclass⟩ := List.exists_of_findSome?_eq_some hclass
    cases member with
    | type d =>
      obtain ⟨hname, heq⟩ := Option.ite_none_right_eq_some.mp hclass
      cases heq
      exact ⟨m.member d, member_mem hm hd, rfl, hname⟩
    | _ => cases hclass
  · obtain ⟨d, hd, rfl⟩ := Option.map_eq_some_iff.mp htop
    have hname := List.find?_some hd
    exact ⟨_, topLevel_mem (List.mem_of_find?_eq_some hd), rfl, beq_iff_eq.mp hname⟩

theorem resolveType_class (hp : primitiveNames.contains n = false) (hd : '.' ∉ n.toList)
    {x : UnitIndex} (hm : x.classSimplyNamed? n = some m) :
    x.resolveType n = .ok m.inner.fullName := by
  rw [resolveType_simple hp hd, resolveSimple?_class hm]
  rfl

/-- Names that no class of a file has mean what they mean without these classes. -/
theorem resolveType_no_class (hp : primitiveNames.contains n = false) (hd : '.' ∉ n.toList)
    {x : UnitIndex} (hn : x.classSimplyNamed? n = none) :
    x.resolveType n = { x with classes := [] }.resolveType n := by
  have hsimple : x.resolveSimple? n = { x with classes := [] }.resolveSimple? n := by
    rw [resolveSimple?, hn]
    rfl
  rw [resolveType_simple hp hd, resolveType_simple hp hd, hsimple]
  rfl

/-- A simple name means the first class of the source file that has it, wherever that one is and
wherever the name is written; if there is none, the name means what it does without the classes of
the file. At a call all classes around which are listed, this is the class that scoping makes
visible, if it makes one visible and no other class of the file has the name, and it makes none
visible if no class of the file has the name. -/
theorem resolveType_visibleClass (hp : primitiveNames.contains n = false) (hd : '.' ∉ n.toList) :
    (∀ m, (ofUnit unit).classSimplyNamed? n = some m →
      (ofUnit unit).resolveType n = .ok m.inner.fullName) ∧
    ((ofUnit unit).classSimplyNamed? n = none →
      (ofUnit unit).resolveType n = { ofUnit unit with classes := [] }.resolveType n) ∧
    ∀ site : CallSite,
      (∀ k ∈ site.enclosing.chain, k ∈ (ofUnit unit).classes.map Nest.inner) →
      ((ofUnit unit).classSimplyNamed? n = none →
        unit.visibleClass? site.enclosing.chain n = none) ∧
      ∀ k, unit.visibleClass? site.enclosing.chain n = some k →
        (∀ m ∈ (ofUnit unit).classes, m.inner.decl.name = n → m.inner.fullName = k.fullName) →
        (ofUnit unit).resolveType n = .ok k.fullName := by
  refine ⟨fun m ↦ resolveType_class hp hd, resolveType_no_class hp hd, fun site hlisted ↦
    ⟨fun hnone ↦ ?_, fun k hk hunique ↦ ?_⟩⟩
  · by_contra hsome
    obtain ⟨k, hk⟩ := Option.ne_none_iff_exists'.mp hsome
    obtain ⟨m, hm, rfl, hname⟩ := exists_of_visibleClass? hlisted hk
    exact classSimplyNamed?_eq_none.mp hnone m hm hname
  · obtain ⟨m, hm, rfl, hname⟩ := exists_of_visibleClass? hlisted hk
    cases hfirst : (ofUnit unit).classSimplyNamed? n with
    | none => exact absurd hname (classSimplyNamed?_eq_none.mp hfirst m hm)
    | some j =>
      obtain ⟨hj, hjname⟩ := mem_of_classSimplyNamed? hfirst
      rw [resolveType_class hp hd hfirst, hunique j hj hjname]

/-- A text with two classes of one simple name, each in a class of its own. -/
private def builderText : List Char :=
  ("class A\x7bclass X\x7bclass B\x7b\x7d\x7d" ++
    "class Y\x7bclass B\x7b\x7d\x7bg((B)null);\x7d\x7d\x7d").toList

private theorem builderText_reads :
    (match CompilationUnit.parse builderText with
      | .ok unit =>
        match CallSite.ofUnit unit [] with
        | [g] =>
          let x := UnitIndex.ofUnit unit
          let visible := fun n ↦ (unit.visibleClass? g.enclosing.chain n).map ClassInfo.fullName
          (x.classes.map fun m ↦ (m.inner.decl.name, m.inner.fullName)) ==
              [("A", "A"), ("X", "A.X"), ("B", "A.X.B"), ("Y", "A.Y"), ("B", "A.Y.B")] &&
            (x.classSimplyNamed? "B").map (·.inner.fullName) == some "A.X.B" &&
            visible "B" == some "A.Y.B" && visible "Y" == some "A.Y" &&
            (g.call.args.map fun e ↦ ((g.setting x).staticType e).toOption) == [some "A.X.B"] &&
            g.enclosing.chain.all fun k ↦ !decide ('$' ∈ k.fullName.toList)
        | _ => false
      | .error _ => false) = true := by
  have htext : builderText = _ := Text.toList_ofList_append _ _
  rw [htext, CompilationUnit.parse_eq_parseNumbered]
  decide +kernel

private theorem exists_builder : ∃ unit, ∃ g ∈ CallSite.ofUnit unit [],
    CompilationUnit.parse builderText = .ok unit ∧
      ((ofUnit unit).classes.map fun m ↦ (m.inner.decl.name, m.inner.fullName)) =
        [("A", "A"), ("X", "A.X"), ("B", "A.X.B"), ("Y", "A.Y"), ("B", "A.Y.B")] ∧
      ((ofUnit unit).classSimplyNamed? "B").map (·.inner.fullName) = some "A.X.B" ∧
      (unit.visibleClass? g.enclosing.chain "B").map ClassInfo.fullName = some "A.Y.B" ∧
      (unit.visibleClass? g.enclosing.chain "Y").map ClassInfo.fullName = some "A.Y" ∧
      (g.call.args.map fun e ↦ ((g.setting (ofUnit unit)).staticType e).toOption) =
        [some "A.X.B"] ∧
      ∀ k ∈ g.enclosing.chain, k ∈ (ofUnit unit).classes.map Nest.inner := by
  have hreads := builderText_reads
  split at hreads
  · next unit hp =>
    split at hreads
    · next g hsites =>
      simp only [Bool.and_eq_true, beq_iff_eq, List.all_eq_true, Bool.not_eq_true',
        decide_eq_false_iff_not] at hreads
      obtain ⟨⟨⟨⟨⟨hclasses, hfirst⟩, hB⟩, hY⟩, hargs⟩, hplain⟩ := hreads
      have hg : g ∈ CallSite.ofUnit unit [] := by simp [hsites]
      exact ⟨unit, g, hg, hp, hclasses, hfirst, hB, hY, hargs, fun k hk ↦
        (CallSite.listed hg hk).resolve_right (hplain k hk)⟩
    · cases hreads
  · cases hreads

/-- In a class with a member class a name means the member class of another class, which comes first
in the text and does not surround the call. -/
theorem resolveType_builderText : ∃ unit, ∃ site ∈ CallSite.ofUnit unit [],
    CompilationUnit.parse builderText = .ok unit ∧
      (∃ k, unit.visibleClass? site.enclosing.chain "B" = some k ∧ k.fullName = "A.Y.B") ∧
      (ofUnit unit).resolveType "B" = .ok "A.X.B" ∧
      (site.call.args.map fun e ↦ ((site.setting (ofUnit unit)).staticType e).toOption) =
        [some "A.X.B"] := by
  obtain ⟨unit, g, hg, hp, -, hfirst, hB, -, hargs, -⟩ := exists_builder
  refine ⟨unit, g, hg, hp, Option.map_eq_some_iff.mp hB, ?_, hargs⟩
  obtain ⟨m, hm, hname⟩ := Option.map_eq_some_iff.mp hfirst
  rw [resolveType_class (by decide) (by decide) hm, hname]

/-- The class around a call is the visible one of its name, and the name means it. -/
theorem resolveType_visibleClass_around : ∃ unit, ∃ site ∈ CallSite.ofUnit unit [],
    CompilationUnit.parse builderText = .ok unit ∧
      ∃ k, unit.visibleClass? site.enclosing.chain "Y" = some k ∧ k.fullName = "A.Y" ∧
        (ofUnit unit).resolveType "Y" = .ok k.fullName := by
  obtain ⟨unit, g, hg, hp, hclasses, -, -, hY, -, hlisted⟩ := exists_builder
  obtain ⟨k, hk, hname⟩ := Option.map_eq_some_iff.mp hY
  obtain ⟨-, hvisible⟩ :=
    (resolveType_visibleClass (n := "Y") (by decide) (by decide)).2.2 g hlisted
  refine ⟨unit, g, hg, hp, k, hk, hname, hvisible k hk fun m hm hY ↦ ?_⟩
  have hmem : (m.inner.decl.name, m.inner.fullName) ∈ (ofUnit unit).classes.map fun m ↦
      (m.inner.decl.name, m.inner.fullName) := List.mem_map_of_mem hm
  rw [hclasses, hY] at hmem
  rw [hname]
  simpa using hmem

end UnitIndex

end GuardLint
