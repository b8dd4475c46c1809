import GuardLint.Proofs.Scope.Passage

/-!
# The classes around a call and their names

A walk goes from the body of a class into those of its member classes and of the anonymous classes
in it. The classes around a call are those that the source file lists, or anonymous ones and what is
declared in them, whose names have a dollar sign.
-/

namespace GuardLint

open Syntax

/-- The class bodies that matter to the calls of a source file: those that it lists, and those around
its calls. -/
def Syntax.CompilationUnit.bodies (unit : CompilationUnit) (skip : List String) : List ClassInfo :=
  (UnitIndex.ofUnit unit).classes.map Nest.inner ++
    (CallSite.ofUnit unit skip).flatMap (·.enclosing.chain)

/-- No two classes of a source file have the same full name. -/
def Syntax.CompilationUnit.NamesApart (unit : CompilationUnit) (skip : List String) : Prop :=
  ∀ a ∈ unit.bodies skip, ∀ b ∈ unit.bodies skip, a.fullName = b.fullName → a = b

namespace UnitIndex

theorem mem_nestedMembers {n m : Nest} {d : TypeDecl} (hm : m ∈ nested (n.member d) d)
    {ms : List Member} (hd : .type d ∈ ms) : m ∈ nestedMembers n ms := by
  induction ms with
  | nil => cases hd
  | cons member ms ih =>
    rcases List.mem_cons.mp hd with rfl | hrest
    · rw [nestedMembers]
      exact List.mem_append_left _ hm
    · have hrest := ih hrest
      cases member with
      | type e =>
        rw [nestedMembers]
        exact List.mem_append_right _ hrest
      | field | method | initializer => simpa only [nestedMembers] using hrest

theorem mem_nested_self (n : Nest) (d : TypeDecl) : n ∈ nested n d := by
  obtain ⟨_, _, _, _, _, _, _, _⟩ := d
  rw [nested]
  exact List.mem_cons_self

theorem mem_nested_of_member {n m : Nest} {d e : TypeDecl} (hm : m ∈ nested (n.member e) e)
    (he : .type e ∈ d.members) : m ∈ nested n d := by
  obtain ⟨_, _, _, _, _, _, _, _⟩ := d
  rw [nested]
  exact List.mem_cons_of_mem _ (mem_nestedMembers hm he)

end UnitIndex

namespace Part

variable {unit : CompilationUnit} {skip : List String} {a : Place × Part}

/-- The classes around a place and the member classes right inside the innermost one are listed, or
have a dollar sign in their names. -/
private theorem Reached.listed (h : Reached unit skip a) :
    (∀ k ∈ a.1.enclosing.chain,
      k ∈ (UnitIndex.ofUnit unit).classes.map Nest.inner ∨ '$' ∈ k.fullName.toList) ∧
    ((∀ d, .type d ∈ a.2.memberList →
        UnitIndex.nested (a.1.enclosing.member d) d ⊆ (UnitIndex.ofUnit unit).classes) ∨
      '$' ∈ a.1.enclosing.inner.fullName.toList) := by
  induction h using Reached.induction with
  | start d hd =>
    have hlisted : UnitIndex.nested (UnitIndex.topLevel unit.package d) d ⊆
        (UnitIndex.ofUnit unit).classes := fun n hn ↦ List.mem_flatMap.mpr ⟨d, hd, hn⟩
    refine ⟨fun k hk ↦ .inl ?_, .inl fun e he n hn ↦
      hlisted (UnitIndex.mem_nested_of_member hn he)⟩
    obtain rfl : k = (UnitIndex.topLevel unit.package d).inner := List.mem_singleton.mp hk
    exact List.mem_map_of_mem (hlisted (UnitIndex.mem_nested_self _ d))
  | step j p x b _ hb ih =>
    obtain ⟨hchain, hmembers⟩ := ih
    rcases inside_cases hb with ⟨hmoves, -, hsub⟩ | ⟨l, ms, t, rfl⟩ | ⟨d, ms, rfl, rfl⟩
    · rw [hmoves.enclosing]
      exact ⟨hchain, hmembers.imp_left fun h d hd ↦ h d (hsub hd)⟩
    · have hmark : '$' ∈ (p.anonymous l ms t j).enclosing.inner.fullName.toList := by
        simp [Place.anonymous, Nest.push, ClassInfo.anonymous]
      exact ⟨List.forall_mem_cons.mpr ⟨.inr hmark, hchain⟩, .inr hmark⟩
    · rcases hmembers with hlisted | hmark
      · have hd := hlisted d List.mem_cons_self
        refine ⟨List.forall_mem_cons.mpr ⟨.inl ?_, hchain⟩, .inl fun e he n hn ↦ ?_⟩
        · exact List.mem_map_of_mem (hd (UnitIndex.mem_nested_self _ d))
        · exact hd (UnitIndex.mem_nested_of_member hn he)
      · have hmark' : '$' ∈ (p.enclosing.member d).inner.fullName.toList := by
          simp only [Nest.member, Nest.push, String.toList_append, List.mem_append]
          exact .inl (.inl hmark)
        exact ⟨List.forall_mem_cons.mpr ⟨.inr hmark', hchain⟩, .inr hmark'⟩

end Part

/-- The classes around a call are listed, or have a dollar sign in their names. -/
theorem CallSite.listed {unit : CompilationUnit} {skip : List String} {site : CallSite}
    (hs : site ∈ CallSite.ofUnit unit skip) {k : ClassInfo} (hk : k ∈ site.enclosing.chain) :
    k ∈ (UnitIndex.ofUnit unit).classes.map Nest.inner ∨ '$' ∈ k.fullName.toList := by
  obtain ⟨q, hq, hsite⟩ := CallSite.reached hs
  rw [hsite] at hk
  exact hq.listed.1 k hk

/-- Names are apart if those of the classes listed are and there are no anonymous classes around
calls. -/
theorem Syntax.CompilationUnit.namesApart_of_nodup {unit : CompilationUnit} {skip : List String}
    (hnodup : ((UnitIndex.ofUnit unit).classes.map (·.inner.fullName)).Nodup)
    (hplain : ∀ site ∈ CallSite.ofUnit unit skip, ∀ k ∈ site.enclosing.chain,
      '$' ∉ k.fullName.toList) : unit.NamesApart skip := by
  have hlisted : ∀ k ∈ unit.bodies skip, ∃ n ∈ (UnitIndex.ofUnit unit).classes, n.inner = k := by
    intro k hk
    rcases List.mem_append.mp hk with hk | hk
    · exact List.mem_map.mp hk
    · obtain ⟨site, hs, hk⟩ := List.mem_flatMap.mp hk
      exact List.mem_map.mp ((CallSite.listed hs hk).resolve_right (hplain site hs k hk))
  intro a ha b hb hname
  obtain ⟨m, hm, rfl⟩ := hlisted a ha
  obtain ⟨n, hn, rfl⟩ := hlisted b hb
  rw [List.inj_on_of_nodup_map hnodup hm hn hname]

end GuardLint
