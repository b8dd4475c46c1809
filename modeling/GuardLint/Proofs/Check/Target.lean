import GuardLint.Proofs.Run.Fixed
import GuardLint.Proofs.Scope.Import
import GuardLint.Proofs.Syntax.Identifier
import GuardLint.Proofs.Syntax.Numbers

/-!
# The targets of guards

In a file with a package the target of a guard is a dotted name that begins with no variable. It is
the class of the guard written out, or begins with a class that is imported by itself, unless that
class is one of the package of the file. No import of a whole package plays a part.
-/

namespace GuardLint

open Syntax Grammar

/-! ### Names put together with dots -/

theorem intercalate_concat (first : String) (rest : List String) (n : String) :
    ".".intercalate (first :: rest ++ [n]) = ".".intercalate (first :: rest) ++ "." ++ n := by
  rw [String.intercalate_append_of_ne_nil (List.cons_ne_nil first rest) (List.cons_ne_nil n []),
    String.intercalate_singleton]

namespace UnitIndex

/-- A dotted name begins with its first identifier; another name in its place is followed by the
others. -/
theorem firstPart_intercalate {first : String} (hd : '.' ∉ first.toList) (rest : List String) :
    firstPart (".".intercalate (first :: rest)) = first ∧
      ∀ full, full ++ afterFirst (".".intercalate (first :: rest)) =
        ".".intercalate (full :: rest) := by
  cases rest with
  | nil =>
    simp only [String.intercalate_singleton]
    obtain ⟨hfirst, hafter⟩ := firstPart_of_undotted hd
    exact ⟨hfirst, fun full ↦ by rw [hafter, String.append_empty]⟩
  | cons second rest =>
    simp only [String.intercalate_cons_cons]
    obtain ⟨hfirst, hafter⟩ := firstPart_append hd (".".intercalate (second :: rest))
    exact ⟨hfirst, fun full ↦ by rw [hafter, String.append_assoc]⟩

-- A name without dots is its own first part.
example : firstPart "Objects" = "Objects" ∧ firstPart "java.util.Objects" = "java" := by
  decide +kernel

/-! ### Classes of a package -/

mutual

/-- What holds of a class, and of member classes if it does of the classes around them, holds of all
classes nested in it. -/
theorem forall_mem_nested {P : Nest → Prop} (hmember : ∀ n d, P n → P (n.member d)) (n : Nest)
    (d : TypeDecl) (h : P n) : ∀ m ∈ nested n d, P m := by
  obtain ⟨_, _, _, members, _, _, _, _⟩ := d
  rw [nested]
  exact List.forall_mem_cons.mpr ⟨h, forall_mem_nestedMembers hmember n members h⟩

theorem forall_mem_nestedMembers {P : Nest → Prop} (hmember : ∀ n d, P n → P (n.member d))
    (n : Nest) (ms : List Member) (h : P n) : ∀ m ∈ nestedMembers n ms, P m := by
  match ms with
  | [] =>
    rw [nestedMembers]
    exact List.forall_mem_nil _
  | .type d :: ms =>
    rw [nestedMembers]
    exact List.forall_mem_append.mpr
      ⟨forall_mem_nested hmember (n.member d) d (hmember n d h),
        forall_mem_nestedMembers hmember n ms h⟩
  | .field _ :: ms | .method _ :: ms | .initializer .. :: ms =>
    rw [nestedMembers]
    · exact forall_mem_nestedMembers hmember n ms h
    · exact fun _ h ↦ nomatch h

end

/-- The classes of a file with a package belong to it by their full names. -/
theorem fullName_of_package {unit : CompilationUnit} {p : String} (hp : unit.package = some p)
    (hne : p ≠ "") : ∀ k ∈ (ofUnit unit).classes, ∃ tail, k.inner.fullName = p ++ "." ++ tail := by
  intro k hk
  obtain ⟨d, -, hk⟩ := List.mem_flatMap.mp hk
  refine forall_mem_nested (P := fun k ↦ ∃ tail, k.inner.fullName = p ++ "." ++ tail) ?_
    (topLevel unit.package d) d ⟨d.name, ?_⟩ k hk
  · rintro n e ⟨tail, h⟩
    refine ⟨tail ++ "." ++ e.name, ?_⟩
    have hfull : (n.member e).inner.fullName = n.inner.fullName ++ "." ++ e.name := rfl
    rw [hfull, h]
    simp only [String.append_assoc]
  · have hempty : p.isEmpty = false := by simpa using hne
    simp only [topLevel, hp, hempty, Bool.false_eq_true, if_false]

end UnitIndex

namespace Setting

variable {c : Setting} {e : Expr} {name : String}

/-- The name of a type that an expression names is made of its identifiers, and the first of them is
no variable. -/
theorem identifiers_of_typeName (h : c.typeName? e = .ok (some name)) :
    ∃ first rest, e.identifiers = first :: rest ∧ name = ".".intercalate (first :: rest) ∧
      c.scope.lookup first = none := by
  induction e using Expr.dotted.induct generalizing name with
  | case1 l n =>
    rw [typeName?] at h
    split at h
    · next hnone =>
      cases h
      exact ⟨n, [], rfl, String.intercalate_singleton.symm, Option.isNone_iff_eq_none.mp hnone⟩
    · cases h
  | case2 l e n ih =>
    rw [typeName?] at h
    cases he : c.typeName? e with
    | error f => rw [he] at h; cases h
    | ok head =>
      cases head with
      | none => rw [he] at h; cases h
      | some head =>
        obtain ⟨first, rest, hids, rfl, hscope⟩ := ih he
        refine ⟨first, rest ++ [n], by rw [Expr.identifiers, hids]; rfl, ?_, hscope⟩
        refine Eq.trans ?_ (intercalate_concat first rest n).symm
        simp only [he, bind, Except.bind] at h
        split at h
        · cases h
        · split at h
          · simp only [Except.ok.injEq, Option.ite_none_left_eq_some, Option.some.injEq] at h
            exact h.2.symm
          · cases h
            rfl
  | case3 e hname hfield =>
    cases e with
    | name => exact absurd rfl (hname _ _)
    | field => exact absurd rfl (hfield _ _ _)
    | _ => cases h

/-- A static call with a target is bound to the class that the target names. -/
theorem exists_typeName_of_resolveCall {call : Call} {bound : ResolvedCall Expr}
    (h : c.resolveCall call = .ok bound) (hstatic : bound.isStatic = true)
    (htarget : call.target = some e) :
    ∃ name, c.typeName? e = .ok (some name) ∧ c.index.resolveType name = .ok bound.owner := by
  unfold resolveCall Typing.bindCall at h
  simp only [htarget] at h
  cases hn : c.typeName? e with
  | error f => simp [hn, Failure.lift, bind, Except.bind] at h
  | ok name =>
    cases name with
    | none =>
      simp only [hn, Failure.lift, bind, Except.bind] at h
      split at h
      · cases h
      · cases h
        cases hstatic
    | some name =>
      simp only [hn, Failure.lift, bind, Except.bind] at h
      split at h
      · cases h
      · next owner ho =>
        cases h
        cases hr : c.index.resolveType name with
        | error f => rw [hr] at ho; cases ho
        | ok owner' => rw [hr] at ho; cases ho; exact ⟨name, rfl, hr⟩

theorem resolveCall_of_typeName {call : Call} {owner : String} (htarget : call.target = some e)
    (hn : c.typeName? e = .ok (some name)) (ho : c.index.resolveType name = .ok owner) :
    c.resolveCall call = .ok ⟨owner, call.name, call.args, true⟩ := by
  unfold resolveCall Typing.bindCall
  simp only [htarget, hn, ho, Failure.lift, bind, Except.bind]

/-- Where a package is declared, an expression names the same type without the imports of whole
packages. -/
theorem typeName?_explicitImports (hp : c.index.Packaged) {r : Option String}
    (h : c.typeName? e = .ok r) :
    ({ c with index := c.index.withImports (UnitIndex.explicitImports c.index.imports) } :
      Setting).typeName? e = .ok r := by
  induction e using Expr.dotted.induct generalizing r with
  | case1 l n => exact h
  | case2 l e n ih =>
    rw [typeName?] at h ⊢
    cases he : c.typeName? e with
    | error f => rw [he] at h; cases h
    | ok head =>
      rw [ih he]
      cases head with
      | none => rwa [he] at h
      | some head =>
        cases hr : c.index.resolveType head with
        | error f => simp [he, hr, bind, Except.bind] at h
        | ok full =>
          simp only [he, hr, bind, Except.bind] at h
          simp only [UnitIndex.resolveType_explicitImports hp hr, bind, Except.bind]
          exact h
  | case3 e hname hfield =>
    cases e with
    | name => exact absurd rfl (hname _ _)
    | field => exact absurd rfl (hfield _ _ _)
    | _ => exact h

end Setting

/-! ### Classes of the catalog -/

/-- The classes of the guards are no primitive types, nor in the language's own package. -/
theorem Catalog.owner_foreign {owner method : String} {s : GuardShape}
    (h : lookup owner method = some s) : UnitIndex.primitiveNames.contains owner = false ∧
      ∀ n, owner ≠ "java.lang." ++ n := by
  have hall : ∀ s ∈ shapes, UnitIndex.primitiveNames.contains s.owner = false ∧
      ¬ "java.lang.".toList <+: s.owner.toList := by decide
  obtain ⟨hmem, rfl, -⟩ := mem_of_lookup h
  refine ⟨(hall s hmem).1, fun n heq ↦ (hall s hmem).2 ⟨n.toList, ?_⟩⟩
  rw [heq, String.toList_append]

/-! ### Targets -/

/-- The target of a call that is a statement by itself is put together from identifiers. -/
theorem CallSite.simple_of_target {source : List Char} {unit : CompilationUnit} {skip : List String}
    {site : CallSite} {l : Location} {e : Expr} (hparse : CompilationUnit.parse source = .ok unit)
    (hsite : site ∈ CallSite.ofUnit unit skip) (hl : site.statement = some l)
    (htarget : site.call.target = some e) : ∀ n ∈ e.identifiers, Simple n := by
  obtain ⟨tokens, hs, hr⟩ := CompilationUnit.parse_eq_ok.mp hparse
  obtain ⟨front, us, rest, heq, -, hread, -⟩ := CallSite.stands hs hr hsite hl
  rw [CallSite.occurrence, Call.expr, htarget] at hread
  obtain ⟨call, semicolon, rfl, -, -, hcall⟩ := reads_callStmt hread
  obtain ⟨ps, hspelled, rfl⟩ := Token.laid_ofSource hs
  have hnames := identified_of_reads hcall fun t ht ↦
    Token.identifies_of_mem_laid hspelled _ t (by rw [heq]; simp [ht])
  exact fun n hn ↦ hnames _ rfl n (List.mem_append_left _ hn)

/-- A dotted name that means a class outside the language's own package, in a file with a package:
it is the full name of the class and begins with no class of the file and no single import, or it
begins with a single import, or the class is one of the package. -/
theorem UnitIndex.resolveType_intercalate {unit : CompilationUnit} {p : String}
    (hpackage : unit.package = some p) (hne : p ≠ "") {first : String} {rest : List String}
    {owner : String} (hfirst : '.' ∉ first.toList)
    (hforeign : primitiveNames.contains owner = false ∧ ∀ n, owner ≠ "java.lang." ++ n)
    (h : (ofUnit unit).resolveType (".".intercalate (first :: rest)) = .ok owner) :
    (".".intercalate (first :: rest) = owner ∧
        (∀ k ∈ (ofUnit unit).classes, k.inner.decl.name ≠ first) ∧
          ∀ i ∈ unit.imports, isSingleOf first i = false) ∨
      (∃ i ∈ unit.imports, isSingleOf first i = true ∧
        ".".intercalate (i.name :: rest) = owner) ∨
      ∃ tail, owner = p ++ "." ++ tail := by
  obtain ⟨hhead, htail⟩ := firstPart_intercalate hfirst rest
  cases hprim : primitiveNames.contains (".".intercalate (first :: rest)) with
  | true =>
    rw [resolveType_primitive hprim] at h
    cases h
    rw [hprim] at hforeign
    cases hforeign.1
  | false =>
  have hcases := resolveType_cases ⟨p, hpackage, hne⟩ hprim h
  rw [hhead] at hcases
  obtain ⟨k, hk, -, howner⟩ | ⟨i, hi, hsingle, howner⟩ | ⟨-, howner⟩ | ⟨hk, hl, howner⟩ := hcases
  · obtain ⟨tail, hfull⟩ := fullName_of_package hpackage hne k hk
    refine .inr (.inr ⟨tail ++ afterFirst (".".intercalate (first :: rest)), ?_⟩)
    rw [howner, hfull, String.append_assoc]
  · exact .inr (.inl ⟨i, hi, hsingle, (howner.trans (htail i.name)).symm⟩)
  · exact absurd howner (hforeign.2 _)
  · unfold complete at howner
    dsimp only at howner
    split at howner
    · exact .inl ⟨howner.symm, classSimplyNamed?_eq_none.mp hk,
        lookup_singleImports_eq_none.mp hl⟩
    · have hempty : p.isEmpty = false := by simpa using hne
      refine .inr (.inr ⟨".".intercalate (first :: rest), howner.trans ?_⟩)
      have hpackage' : (ofUnit unit).package = some p := hpackage
      simp only [inPackage, hpackage', hempty, Bool.false_eq_true, if_false]

namespace Report

variable {text : List Char} {path : Option String} {config : Config} {unit : CompilationUnit}
  {site : CallSite} {method exception conditionText messageText p : String} {nullCheck : Bool}
  {target : Expr}

/-- The target of a guard in a file with a package is a dotted name whose first identifier is no
variable in scope. Either it is the name of the class of the guard as it is written out, and its
first identifier is neither that of a class of the file nor a single import; or its first identifier
is a single import, and the name imported is that of the class once the other identifiers follow it;
or the class belongs to the package. Without the imports of whole packages the call is bound to the
same class. -/
theorem matched_target (hparse : CompilationUnit.parse text = .ok unit)
    (hpackage : unit.package = some p) (hsite : site ∈ sites config unit)
    (hverdict : Gate.evaluate (fileOf text path config unit).facts Gate.all site =
      .ok (.matched method exception conditionText messageText nullCheck))
    (htarget : site.call.target = some target) :
    ∃ first rest bound, target.dotted = true ∧ target.identifiers = first :: rest ∧
      site.scope.lookup first = none ∧
      (site.setting (.ofUnit unit)).resolveCall site.call = .ok bound ∧
      (Catalog.lookup bound.owner bound.method).isSome = true ∧
      ((".".intercalate (first :: rest) = bound.owner ∧
          (∀ k ∈ (UnitIndex.ofUnit unit).classes, k.inner.decl.name ≠ first) ∧
            ∀ i ∈ unit.imports, UnitIndex.isSingleOf first i = false) ∨
        (∃ i ∈ unit.imports, UnitIndex.isSingleOf first i = true ∧
          ".".intercalate (i.name :: rest) = bound.owner) ∨
        ∃ tail, bound.owner = p ++ "." ++ tail) ∧
      (site.setting (.ofUnit { unit with
          imports := UnitIndex.explicitImports unit.imports })).resolveCall site.call =
        .ok bound := by
  obtain ⟨place, condition, message, hm, -, -⟩ := exists_matched hverdict
  obtain ⟨shape, bound, _, _, hg, -⟩ := Gate.evaluate_eq_matched.mp hverdict
  have hbound : (site.setting (.ofUnit unit)).resolveCall site.call = .ok bound := hg.bound
  have hne := CompilationUnit.package_ne_of_parse hparse p hpackage
  obtain ⟨name, hname, howner⟩ :=
    Setting.exists_typeName_of_resolveCall hbound hg.isStatic htarget
  obtain ⟨first, rest, hids, rfl, hscope⟩ := Setting.identifiers_of_typeName hname
  have hfirst : Simple first := CallSite.simple_of_target hparse hsite hm.statement htarget first
    (hids ▸ List.mem_cons_self)
  refine ⟨first, rest, bound, hm.target target htarget, hids, hscope, hbound,
    Option.isSome_iff_exists.mpr ⟨shape, hg.shape⟩,
    UnitIndex.resolveType_intercalate hpackage hne hfirst.2 (Catalog.owner_foreign hg.shape) howner,
    ?_⟩
  have hp : (UnitIndex.ofUnit unit).Packaged := ⟨p, hpackage, hne⟩
  have hname' := Setting.typeName?_explicitImports hp hname
  have howner' := UnitIndex.resolveType_explicitImports hp howner
  rw [hbound.symm.trans (Setting.resolveCall_of_typeName htarget hname howner)]
  exact Setting.resolveCall_of_typeName htarget hname' howner'

/-- A text with a package and a guard by its full name, beside an import of the whole package of its
class. -/
private def packagedText : List Char :=
  ("package p;import java.util.*;class A\x7b\x7bint x=1;" ++
    "java.util.Objects.requireNonNull(x,\"m\"+x);\x7d\x7d").toList

private theorem packagedText_sites :
    (match CompilationUnit.parse packagedText with
      | .ok unit => unit.package == some "p" &&
        match sites .default unit with
        | [site] =>
          match Gate.evaluate (fileOf packagedText none .default unit).facts Gate.all site,
              site.call.target with
          | .ok (.matched ..), some _ => true
          | _, _ => false
        | _ => false
      | .error _ => false) = true := by
  have htext : packagedText = _ := Text.toList_ofList_append _ _
  rw [htext, CompilationUnit.parse_eq_parseNumbered]
  decide +kernel

/-- A guard by its full name is found in a file with a package, whether or not the package of its
class is imported. -/
theorem matched_target_packaged : ∃ unit site target bound,
    CompilationUnit.parse packagedText = .ok unit ∧ unit.package = some "p" ∧
    sites .default unit = [site] ∧ site.call.target = some target ∧ target.dotted = true ∧
    (Catalog.lookup bound.owner bound.method).isSome = true ∧
    (site.setting (.ofUnit { unit with
      imports := UnitIndex.explicitImports unit.imports })).resolveCall site.call = .ok bound := by
  have hsites := packagedText_sites
  cases hp : CompilationUnit.parse packagedText with
  | error e => simp [hp] at hsites
  | ok unit =>
    simp only [hp, Bool.and_eq_true, beq_iff_eq] at hsites
    obtain ⟨hpackage, hsites⟩ := hsites
    split at hsites
    · next site hsite =>
      split at hsites
      · next method exception conditionText messageText nullCheck target hverdict htarget =>
        obtain ⟨first, rest, bound, hdotted, -, -, -, hguard, -, hbound⟩ :=
          matched_target hp hpackage (hsite ▸ List.mem_singleton_self site) hverdict htarget
        exact ⟨unit, site, target, bound, rfl, hpackage, hsite, htarget, hdotted, hguard, hbound⟩
      · cases hsites
    · cases hsites

end Report

end GuardLint
