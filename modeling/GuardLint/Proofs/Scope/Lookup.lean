import GuardLint.Proofs.Scope.Visibility
import GuardLint.Proofs.Syntax.Numbers

/-!
# Where variables can be named

The declarations in force at a call hold there, and they stand in the order of the text. So a
parameter or local variable in scope at a call is declared by a declaration that holds at the call,
and a name denotes the variable of the last declaration of the name that holds there.

That is the variable which lexical scoping selects, but for two things. All variables of one
declaration are in scope in the first of its initializers already, where lexical scoping has only
the first of them. And a member class sees no parameters and local variables from outside, where
lexical scoping has those of the methods around an anonymous class that it is a member of.
-/

namespace GuardLint

open Syntax

/-! ### Declarations in force -/

namespace Landmark

/-- What is in force at a place is declared, in this order, and holds there. -/
theorem inForce_sublist (place : Location) (ls : List Landmark) :
    (inForce place ls).reverse.Sublist (ls.filterMap binding?) ∧
      ∀ b ∈ inForce place ls, place.Within b.region := by
  induction ls using List.reverseRecOn with
  | nil => exact ⟨List.nil_sublist _, fun b hb ↦ absurd hb List.not_mem_nil⟩
  | append_singleton ls l ih =>
    obtain ⟨hsub, hwithin⟩ := ih
    have hstep : inForce place (ls ++ [l]) = enter place (inForce place ls) l :=
      List.foldl_concat ..
    rw [hstep, List.filterMap_append]
    have hpast := hsub.trans (List.sublist_append_left _ ([l].filterMap binding?))
    cases l with
    | binding b =>
      rw [enter]
      split
      · next h =>
        rw [List.reverse_cons]
        exact ⟨hsub.append (List.Sublist.refl [b]), List.forall_mem_cons.mpr ⟨h, hwithin⟩⟩
      · exact ⟨hpast, hwithin⟩
    | memberClass body =>
      rw [enter]
      split
      · rw [← List.filter_reverse]
        exact ⟨List.filter_sublist.trans hpast, fun b hb ↦ hwithin b (List.mem_of_mem_filter hb)⟩
      · exact ⟨hpast, hwithin⟩

end Landmark

/-! ### Lexical scoping -/

namespace Binding

/-- Lexical scoping has a variable in scope in the region of its declaration; a local variable,
from its own part of the declaration on. -/
def holds (place : Location) (b : Binding) : Bool :=
  decide (place.Within b.region) &&
    match b.declaration with
    | .localVar _ v => v.location.start ≤ place.start
    | _ => true

/-- The declaration that lexical scoping selects for a name: the last that has the variable in
scope, since what is declared in a construct comes after all that is declared around it. -/
def selected (unit : CompilationUnit) (place : Location) (name : String) : Option Binding :=
  (ofUnit unit).reverse.find? fun b ↦ b.holds place && b.declaration.name == name

/-- A parameter or local variable is declared outside of a member class that a place is in. -/
def Lost (unit : CompilationUnit) (place : Location) (b : Binding) : Prop :=
  b.declaration.isField = false ∧ ∃ pre body post,
    Landmark.ofUnit unit = pre ++ .memberClass body :: post ∧ .binding b ∈ pre ∧ place.Within body

end Binding

namespace Landmark

variable {place : Location} {name : String} {b : Binding} {bs : List Binding} {ls : List Landmark}

/-- What is in force first for a name stays so if nothing later declares the name, and no member
class hides it. -/
private theorem find?_foldl_enter (hfind : bs.find? (·.declaration.name == name) = some b)
    (hname : ∀ c, .binding c ∈ ls → place.Within c.region → c.declaration.name ≠ name)
    (hkeep : b.declaration.isField = true ∨ ∀ body, .memberClass body ∈ ls → ¬ place.Within body) :
    (ls.foldl (enter place) bs).find? (·.declaration.name == name) = some b := by
  induction ls generalizing bs with
  | nil => exact hfind
  | cons l ls ih =>
    refine ih ?_ (fun c hc ↦ hname c (List.mem_cons_of_mem l hc))
      (hkeep.imp_right fun h body hb ↦ h body (List.mem_cons_of_mem l hb))
    cases l with
    | binding c =>
      rw [enter]
      split
      · next h =>
        rw [List.find?_cons_of_neg (by simpa using hname c List.mem_cons_self h)]
        exact hfind
      · exact hfind
    | memberClass body =>
      rw [enter]
      split
      · next h =>
        have hfield : b.declaration.isField = true :=
          hkeep.resolve_right fun hno ↦ hno body List.mem_cons_self h
        obtain ⟨hb, front, rest, rfl, hfront⟩ := List.find?_eq_some_iff_append.mp hfind
        rw [List.find?_eq_some_iff_append]
        refine ⟨hb, front.filter (·.declaration.isField), rest.filter (·.declaration.isField), ?_,
          fun c hc ↦ hfront c (List.mem_of_mem_filter hc)⟩
        rw [List.filter_append]
        exact congrArg _ (List.filter_cons_of_pos hfield)
      · exact hfind

/-- The landmarks around the last declaration of some. -/
private theorem exists_split {as cs : List Binding}
    (h : ls.filterMap binding? = as ++ b :: cs) :
    ∃ pre post, ls = pre ++ .binding b :: post ∧ post.filterMap binding? = cs := by
  obtain ⟨front, rest, rfl, -, hrest⟩ := List.filterMap_eq_append_iff.mp h
  obtain ⟨skipped, l, post, rfl, -, hl, hpost⟩ := List.filterMap_eq_cons_iff.mp hrest
  cases l with
  | memberClass body => cases hl
  | binding c =>
    cases hl
    exact ⟨front ++ skipped, post, (List.append_assoc ..).symm, hpost⟩

end Landmark

/-- What lexical scoping selects is what is in force first for the name, if the place is to the left
of no declaration of the name and what is selected is not lost. -/
private theorem Binding.selected_eq_find? {unit : CompilationUnit} {place : Location}
    {name : String}
    (hright : ∀ b ∈ Binding.ofUnit unit, b.declaration.name = name → place.Within b.region →
      b.holds place = true)
    (hlost : ∀ b, Binding.selected unit place name = some b → ¬ b.Lost unit place) :
    (Landmark.inForce place (Landmark.ofUnit unit)).find? (·.declaration.name == name) =
      Binding.selected unit place name := by
  obtain ⟨hsub, hwithin⟩ := Landmark.inForce_sublist place (Landmark.ofUnit unit)
  cases hsel : Binding.selected unit place name with
  | none =>
    rw [List.find?_eq_none]
    intro b hb hname
    have hof : b ∈ Binding.ofUnit unit := hsub.subset (List.mem_reverse.mpr hb)
    have hholds := hright b hof (beq_iff_eq.mp hname) (hwithin b hb)
    have hnone := List.find?_eq_none.mp hsel b (List.mem_reverse.mpr hof)
    simp [hholds, hname] at hnone
  | some b =>
    obtain ⟨hb, later, earlier, hsplit, hlater⟩ := List.find?_eq_some_iff_append.mp hsel
    obtain ⟨hholds, hname⟩ := Bool.and_eq_true_iff.mp hb
    have hof : Binding.ofUnit unit = earlier.reverse ++ b :: later.reverse := by
      rw [← List.reverse_reverse (Binding.ofUnit unit), hsplit]
      simp
    obtain ⟨pre, post, hls, hpost⟩ := Landmark.exists_split hof
    have hin : place.Within b.region := of_decide_eq_true (Bool.and_eq_true_iff.mp hholds).1
    have hforce : Landmark.inForce place (Landmark.ofUnit unit) =
        post.foldl (Landmark.enter place) (b :: Landmark.inForce place pre) := by
      rw [hls, Landmark.inForce, List.foldl_append, List.foldl_cons, Landmark.enter, if_pos hin,
        Landmark.inForce]
    rw [hforce]
    refine Landmark.find?_foldl_enter (List.find?_cons_of_pos hname) (fun c hc hcin hcname ↦ ?_) ?_
    · have hmem : c ∈ later :=
        List.mem_reverse.mp (hpost ▸ List.mem_filterMap.mpr ⟨.binding c, hc, rfl⟩)
      have hcof : c ∈ Binding.ofUnit unit := by
        rw [hof]
        exact List.mem_append_right _ (List.mem_cons_of_mem b (List.mem_reverse.mpr hmem))
      have hno := hlater c hmem
      simp [hright c hcof hcname hcin, hcname] at hno
    · by_cases hfield : b.declaration.isField = true
      · exact .inl hfield
      · refine .inr fun body hbody hinside ↦ hlost b hsel ⟨Bool.eq_false_iff.mpr hfield, ?_⟩
        obtain ⟨front, rest, rfl⟩ := List.append_of_mem hbody
        refine ⟨pre ++ .binding b :: front, body, rest, by rw [hls]; simp, ?_, hinside⟩
        exact List.mem_append_right pre List.mem_cons_self

/-! ### Call sites -/

variable {source : List Char} {unit : CompilationUnit} {skip : List String} {site : CallSite}

/-- The parameters and local variables in scope at a call site of a source text are declared one
after the other in the text, the outermost first, and each holds at the call: the call is in the
region of the declaration. -/
theorem CallSite.vars_in_region (hp : CompilationUnit.parse source = .ok unit)
    (hs : site ∈ CallSite.ofUnit unit skip) :
    ∃ bs, bs.Sublist (Binding.ofUnit unit) ∧
      (∀ b ∈ bs, site.call.location.Within b.region) ∧
      List.Forall₂ (fun b x ↦ b.declaration.Declares x) bs
        (site.scope.filter (·.kind != .field)).reverse := by
  have hshows := CallSite.shows_inForce hp hs
  obtain ⟨hsub, hwithin⟩ :=
    Landmark.inForce_sublist site.call.location (Landmark.ofUnit unit)
  refine ⟨((Landmark.inForce site.call.location (Landmark.ofUnit unit)).filter
    (!·.declaration.isField)).reverse, ?_, fun b hb ↦ ?_, List.rel_reverse hshows.vars⟩
  · rw [← List.filter_reverse]
    exact List.filter_sublist.trans hsub
  · exact hwithin b (List.mem_of_mem_filter (List.mem_reverse.mp hb))

/-- A text with a call in a method, and one in a member class of an anonymous class there. -/
private def capturedText : List Char :=
  "class A\x7bint y;void f(int x)\x7bg();new B()\x7bclass C\x7b\x7bh();\x7d\x7d\x7d;\x7d\x7d".toList

private theorem capturedText_scopes :
    (match CompilationUnit.parse capturedText with
      | .ok unit =>
        match CallSite.ofUnit unit [] with
        | [g, h] =>
          g.scope.map Variable.name == ["x", "y"] && h.scope.map Variable.name == ["y"] &&
            (Binding.ofUnit unit).all (fun b ↦
              b.holds g.call.location || !decide (g.call.location.Within b.region)) &&
            (Landmark.ofUnit unit).all (fun
              | .memberClass body => !decide (g.call.location.Within body)
              | .binding _ => true) &&
            (Binding.selected unit h.call.location "x").isSome
        | _ => false
      | .error _ => false) = true := by
  have htext : capturedText = _ := String.toList_ofList
  rw [htext, CompilationUnit.parse_eq_parseNumbered]
  decide +kernel

private theorem exists_captured : ∃ unit, ∃ g ∈ CallSite.ofUnit unit [],
    ∃ h ∈ CallSite.ofUnit unit [], CompilationUnit.parse capturedText = .ok unit ∧
      g.scope.map Variable.name = ["x", "y"] ∧ h.scope.map Variable.name = ["y"] ∧
      (∀ b ∈ Binding.ofUnit unit, g.call.location.Within b.region →
        b.holds g.call.location = true) ∧
      (∀ body, .memberClass body ∈ Landmark.ofUnit unit → ¬ g.call.location.Within body) ∧
      ∃ b, Binding.selected unit h.call.location "x" = some b := by
  have h := capturedText_scopes
  split at h
  · next unit hp =>
    split at h
    · next g h' hsites =>
      simp only [Bool.and_eq_true, beq_iff_eq, List.all_eq_true, Bool.or_eq_true,
        Bool.not_eq_true', decide_eq_false_iff_not] at h
      obtain ⟨⟨⟨⟨hg, hh⟩, hholds⟩, hmember⟩, hselected⟩ := h
      refine ⟨unit, g, by simp [hsites], h', by simp [hsites], hp, hg, hh, fun b hb hin ↦ ?_,
        fun body hbody ↦ ?_, Option.isSome_iff_exists.mp hselected⟩
      · exact (hholds b hb).resolve_right fun hout ↦ hout hin
      · simpa using hmember _ hbody
    · cases h
  · cases h

/-- The parameter of a method holds at a call in its body. -/
theorem CallSite.vars_in_region_method : ∃ unit, ∃ site ∈ CallSite.ofUnit unit [],
    CompilationUnit.parse capturedText = .ok unit ∧ site.scope.map Variable.name = ["x", "y"] ∧
    ∃ bs, bs.Sublist (Binding.ofUnit unit) ∧
      (∀ b ∈ bs, site.call.location.Within b.region) ∧
      List.Forall₂ (fun b x ↦ b.declaration.Declares x) bs
        (site.scope.filter (·.kind != .field)).reverse := by
  obtain ⟨unit, g, hg, -, -, hp, hnames, -⟩ := exists_captured
  exact ⟨unit, g, hg, hp, hnames, CallSite.vars_in_region hp hg⟩

/-- A name denotes the variable of the last declaration of the name that is in force at the call.
This is the one that lexical scoping selects, unless the call is to the left of the part of a
declaration that declares the name, or the selected parameter or local variable is declared outside
of a member class that the call is in. -/
theorem CallSite.lookup_declared (hp : CompilationUnit.parse source = .ok unit)
    (hs : site ∈ CallSite.ofUnit unit skip) (name : String) :
    Option.Rel (fun b x ↦ b.declaration.Declares x)
        ((Landmark.inForce site.call.location (Landmark.ofUnit unit)).find?
          (·.declaration.name == name))
        (site.scope.lookup name) ∧
      ((∀ b ∈ Binding.ofUnit unit, b.declaration.name = name →
          site.call.location.Within b.region → b.holds site.call.location = true) →
        (∀ b, Binding.selected unit site.call.location name = some b →
          ¬ b.Lost unit site.call.location) →
        Option.Rel (fun b x ↦ b.declaration.Declares x)
          (Binding.selected unit site.call.location name) (site.scope.lookup name)) := by
  have hlookup := (CallSite.shows_inForce hp hs).lookup name
  refine ⟨hlookup, fun hright hlost ↦ ?_⟩
  rwa [Binding.selected_eq_find? hright hlost] at hlookup

/-- In a method a name denotes the parameter that lexical scoping selects. -/
theorem CallSite.lookup_declared_method : ∃ unit, ∃ site ∈ CallSite.ofUnit unit [],
    CompilationUnit.parse capturedText = .ok unit ∧ site.scope.map Variable.name = ["x", "y"] ∧
    Option.Rel (fun b x ↦ b.declaration.Declares x)
      (Binding.selected unit site.call.location "x") (site.scope.lookup "x") := by
  obtain ⟨unit, g, hg, -, -, hp, hnames, -, hholds, hmember, -⟩ := exists_captured
  refine ⟨unit, g, hg, hp, hnames, (CallSite.lookup_declared hp hg "x").2
    (fun b hb _ hin ↦ hholds b hb hin) fun b _ ⟨_, pre, body, post, hsplit, _, hin⟩ ↦ ?_⟩
  refine hmember body ?_ hin
  rw [hsplit]
  exact List.mem_append_right pre List.mem_cons_self

/-- In a member class of an anonymous class no variable is found for a name, though lexical scoping
selects a parameter of the method around the anonymous class. -/
theorem CallSite.lookup_capturedText : ∃ unit, ∃ site ∈ CallSite.ofUnit unit [],
    CompilationUnit.parse capturedText = .ok unit ∧ site.scope.lookup "x" = none ∧
    ∃ b, Binding.selected unit site.call.location "x" = some b := by
  obtain ⟨unit, -, -, h, hh, hp, -, hnames, -, -, hselected⟩ := exists_captured
  refine ⟨unit, h, hh, hp, ?_, hselected⟩
  rw [Scope.lookup, List.find?_eq_none]
  intro x hx
  have hname : x.name ∈ ["y"] := hnames ▸ List.mem_map_of_mem hx
  simp [List.mem_singleton.mp hname]

end GuardLint
