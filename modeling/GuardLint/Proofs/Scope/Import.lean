import Mathlib.Data.List.TakeWhile
import GuardLint.Proofs.Data.Table
import GuardLint.Proofs.Scope.StaticImport
import GuardLint.Proofs.Semantics.Numbering

/-!
# What imports say about the names of types

The first part of a name is that of a declared class, or of the last single import of that simple
name, or it is known: from the one import of a whole package that supplies it, unless the file
declares a package, or as a type of the language's own package.

An import that is in effect already, by a repetition of it or because the language's own package
needs none, adds no owner of a static member. For the names of types it is not always without
effect: a single import takes the name back from another one that came after the import repeated,
and a second import of a package is one too many, also beside the import that goes without saying.
-/

namespace GuardLint

open Syntax

namespace UnitIndex

/-! ### Parts of names -/

theorem lastPart_append {p n : String} (hn : '.' ∉ n.toList) : lastPart (p ++ "." ++ n) = n := by
  have hpos : ∀ c ∈ n.toList.reverse, (c != '.') = true := fun c hc ↦
    bne_iff_ne.mpr fun h ↦ hn (h ▸ List.mem_reverse.mp hc)
  have hlist : (p ++ "." ++ n).toList.reverse = n.toList.reverse ++ '.' :: p.toList.reverse := by
    simp
  rw [lastPart, hlist, List.takeWhile_append_of_pos hpos, List.takeWhile_cons_of_neg (by decide),
    List.append_nil, List.reverse_reverse, String.ofList_toList]

theorem append_dot_inj {p p' n : String} (h : p ++ "." ++ n = p' ++ "." ++ n) : p = p' := by
  have h := congrArg String.toList h
  simp only [String.toList_append, List.append_assoc] at h
  exact String.toList_inj.mp (List.append_cancel_right h)

theorem append_dot_ne (p n : String) : p ++ "." ++ n ≠ n := by
  intro h
  have h := congrArg (List.length ∘ String.toList) h
  simp only [Function.comp, String.toList_append, List.length_append] at h
  have hdot : ".".toList.length = 1 := rfl
  omega

/-- The text of a name before its first dot. -/
def firstPart (name : String) : String := String.ofList (name.toList.takeWhile (· != '.'))

/-- The text of a name from its first dot on. -/
def afterFirst (name : String) : String := String.ofList (name.toList.dropWhile (· != '.'))

theorem firstPart_append_afterFirst (name : String) : firstPart name ++ afterFirst name = name := by
  rw [firstPart, afterFirst, ← String.ofList_append, List.takeWhile_append_dropWhile,
    String.ofList_toList]

theorem dot_notMem_firstPart (name : String) : '.' ∉ (firstPart name).toList := by
  rw [firstPart, String.toList_ofList]
  exact fun h ↦ absurd (List.mem_takeWhile_imp h) (by decide)

theorem firstPart_append {head : String} (hd : '.' ∉ head.toList) (rest : String) :
    firstPart (head ++ "." ++ rest) = head ∧ afterFirst (head ++ "." ++ rest) = "." ++ rest := by
  have hpos : ∀ c ∈ head.toList, (c != '.') = true :=
    fun c hc ↦ bne_iff_ne.mpr fun h ↦ hd (h ▸ hc)
  have hlist : (head ++ "." ++ rest).toList = head.toList ++ '.' :: rest.toList := by simp
  refine ⟨?_, String.toList_inj.mp ?_⟩
  · rw [firstPart, hlist, List.takeWhile_append_of_pos hpos,
      List.takeWhile_cons_of_neg (by decide), List.append_nil, String.ofList_toList]
  · rw [afterFirst, hlist, List.dropWhile_append_of_pos hpos,
      List.dropWhile_cons_of_neg (by decide), String.toList_ofList]
    simp

theorem firstPart_of_undotted {n : String} (hn : '.' ∉ n.toList) :
    firstPart n = n ∧ afterFirst n = "" := by
  have hpos : ∀ c ∈ n.toList, (c != '.') = true := fun c hc ↦ bne_iff_ne.mpr fun h ↦ hn (h ▸ hc)
  constructor
  · rw [firstPart, List.takeWhile_eq_self_iff.mpr hpos, String.ofList_toList]
  · rw [afterFirst, List.dropWhile_eq_nil_iff.mpr hpos]

/-! ### Names of types by their first part -/

section

variable {x : UnitIndex} {n : String}

/-- A source file declares a package, which may hold classes of other files. -/
def Packaged (x : UnitIndex) : Prop := ∃ p, x.package = some p ∧ p ≠ ""

/-- The full name of a name, given that of its first part, if anything but the package of the file
tells it. -/
def complete (x : UnitIndex) (name : String) : Option String → String
  | some full => full ++ afterFirst name
  | none => if '.' ∈ name.toList then name else x.inPackage name

theorem resolveType_eq_map (hp : primitiveNames.contains n = false) :
    x.resolveType n = (x.resolveSimple? (firstPart n)).map (x.complete n) := by
  by_cases hd : '.' ∈ n.toList
  · obtain ⟨head, rest, heq, hhead⟩ := List.eq_append_cons_of_mem hd
    have hn : n = String.ofList head ++ "." ++ String.ofList rest :=
      String.toList_inj.mp (by simp [heq])
    have hundotted : '.' ∉ (String.ofList head).toList := by rwa [String.toList_ofList]
    obtain ⟨hfirst, hafter⟩ := firstPart_append hundotted (String.ofList rest)
    rw [← hn] at hfirst hafter
    rw [resolveType_dotted heq hhead, hfirst]
    cases x.resolveSimple? (String.ofList head) with
    | error e => rfl
    | ok full =>
      cases full with
      | none => exact congrArg Except.ok (if_pos hd).symm
      | some full =>
        change Except.ok _ = Except.ok (full ++ afterFirst n)
        rw [hafter, String.append_assoc]
  · obtain ⟨hfirst, hafter⟩ := firstPart_of_undotted hd
    rw [resolveType_simple hp hd, hfirst]
    cases x.resolveSimple? n with
    | error e => rfl
    | ok full =>
      cases full with
      | none => exact congrArg Except.ok (if_neg hd).symm
      | some full =>
        change Except.ok _ = Except.ok (full ++ afterFirst n)
        rw [hafter, String.append_empty]

theorem mem_of_classSimplyNamed? {k : Nest} (h : x.classSimplyNamed? n = some k) :
    k ∈ x.classes ∧ k.inner.decl.name = n := by
  have hk : x.classes.find? (fun k ↦ k.inner.decl.name == n) = some k := h
  have hname := List.find?_some hk
  exact ⟨List.mem_of_find?_eq_some hk, beq_iff_eq.mp hname⟩

theorem classSimplyNamed?_eq_none :
    x.classSimplyNamed? n = none ↔ ∀ k ∈ x.classes, k.inner.decl.name ≠ n := by
  rw [classSimplyNamed?, List.find?_eq_none]
  simp only [beq_iff_eq]

/-- The known types of some simple name in the packages imported as a whole. -/
def candidates (x : UnitIndex) (n : String) : List String :=
  (x.onDemandImports.map (· ++ "." ++ n)).filter isWellKnown

/-- A type of the language's own package. -/
def core? (n : String) : Option String :=
  if coreTypes.contains n then some ("java.lang." ++ n) else none

theorem resolveSimple?_class {k : Nest} (hk : x.classSimplyNamed? n = some k) :
    x.resolveSimple? n = .ok (some k.inner.fullName) := by
  rw [resolveSimple?, hk]

theorem resolveSimple?_import {full : String} (hk : x.classSimplyNamed? n = none)
    (hi : x.singleImports.lookup n = some full) : x.resolveSimple? n = .ok (some full) := by
  rw [resolveSimple?, hk, hi]

theorem resolveSimple?_hidden {c : String} (hk : x.classSimplyNamed? n = none)
    (hi : x.singleImports.lookup n = none) (hc : x.candidates n = [c]) (hp : x.Packaged) :
    ∃ p, x.resolveSimple? n = .error (.hiddenType n c p) := by
  obtain ⟨p, hpackage, hne⟩ := hp
  refine ⟨p, ?_⟩
  rw [candidates] at hc
  rw [resolveSimple?, hk, hi, hc, hpackage]
  exact if_neg (by simpa using hne)

theorem resolveSimple?_supplied {c : String} (hk : x.classSimplyNamed? n = none)
    (hi : x.singleImports.lookup n = none) (hc : x.candidates n = [c]) (hp : ¬ x.Packaged) :
    x.resolveSimple? n = .ok (some c) := by
  rw [candidates] at hc
  rw [resolveSimple?, hk, hi, hc]
  dsimp only
  split
  · next p hpackage =>
    refine if_pos ?_
    by_contra hne
    exact hp ⟨p, hpackage, by simpa using hne⟩
  · rfl

theorem resolveSimple?_core (hk : x.classSimplyNamed? n = none)
    (hi : x.singleImports.lookup n = none) (hc : (x.candidates n).length ≠ 1) :
    x.resolveSimple? n = .ok (core? n) := by
  rw [candidates] at hc
  rw [resolveSimple?, hk, hi]
  dsimp only
  split
  · next c h =>
    rw [h] at hc
    exact absurd rfl hc
  · rfl

/-- Source files with the same classes and the same single import of a simple name differ at most in
what is known of the name. -/
theorem resolveSimple?_congr {y : UnitIndex} (hclasses : y.classes = x.classes)
    (hlookup : y.singleImports.lookup n = x.singleImports.lookup n)
    (hknown : y.classSimplyNamed? n = none → x.classSimplyNamed? n = none →
      x.singleImports.lookup n = none → y.resolveSimple? n = x.resolveSimple? n) :
    y.resolveSimple? n = x.resolveSimple? n := by
  have hclass : y.classSimplyNamed? n = x.classSimplyNamed? n := by
    rw [classSimplyNamed?, classSimplyNamed?, hclasses]
  cases hk : x.classSimplyNamed? n with
  | some k => rw [resolveSimple?_class hk, resolveSimple?_class (hclass.trans hk)]
  | none =>
  cases hl : x.singleImports.lookup n with
  | some full =>
    rw [resolveSimple?_import hk hl,
      resolveSimple?_import (hclass.trans hk) (hlookup.trans hl)]
  | none => exact hknown (hclass.trans hk) hk hl

/-! ### Single imports -/

/-- An import of one type of some simple name. -/
def isSingleOf (n : String) (i : ImportDecl) : Bool :=
  !i.isStatic && !i.onDemand && lastPart i.name == n

/-- Of the single imports of one simple name the last one counts. -/
theorem lookup_singleImports : x.singleImports.lookup n =
    (x.imports.filter (isSingleOf n)).getLast?.map ImportDecl.name := by
  unfold singleImports
  induction x.imports using List.reverseRecOn with
  | nil => rfl
  | append_singleton imports i ih =>
    rw [List.filter_append, List.filter_append, List.foldl_append]
    cases hi : !i.isStatic && !i.onDemand with
    | false => simpa [isSingleOf, List.filter_singleton, hi] using ih
    | true =>
      rw [List.filter_singleton, List.filter_singleton, isSingleOf, hi]
      simp only [Bool.cond_true, List.foldl_cons, List.foldl_nil, lookup_setValue, ih,
        Bool.true_and]
      by_cases hn : n = lastPart i.name
      · simp [hn]
      · simp [hn, beq_eq_false_iff_ne.mpr (Ne.symm hn)]

theorem lookup_singleImports_eq_none :
    x.singleImports.lookup n = none ↔ ∀ i ∈ x.imports, isSingleOf n i = false := by
  rw [lookup_singleImports, Option.map_eq_none_iff, List.getLast?_eq_none_iff,
    List.filter_eq_nil_iff]
  simp only [Bool.not_eq_true]

theorem exists_of_lookup_singleImports {full : String}
    (h : x.singleImports.lookup n = some full) :
    ∃ i ∈ x.imports, isSingleOf n i = true ∧ i.name = full := by
  rw [lookup_singleImports] at h
  obtain ⟨i, hi, rfl⟩ := Option.map_eq_some_iff.mp h
  obtain ⟨hmem, hsingle⟩ := List.mem_filter.mp (List.mem_of_getLast? hi)
  exact ⟨i, hmem, hsingle, rfl⟩

/-! ### Imports of whole packages -/

/-- A type of the language's own package is known under one name only. -/
theorem isWellKnown_core {p : String} (hn : n ∈ coreTypes) :
    isWellKnown (p ++ "." ++ n) = true ↔ p = "java.lang" := by
  have hundotted : ∀ t ∈ coreTypes, '.' ∉ t.toList := by decide +kernel
  constructor
  · intro h
    rcases Bool.or_eq_true_iff.mp h with h | h
    · have hlibrary : ∀ t ∈ libraryTypes, lastPart t ∉ coreTypes := by decide +kernel
      refine absurd ?_ (hlibrary _ (List.contains_iff_mem.mp h))
      rwa [lastPart_append (hundotted n hn)]
    · obtain ⟨t, ht, heq⟩ := List.any_eq_true.mp h
      have heq : "java.lang" ++ "." ++ t = p ++ "." ++ n := beq_iff_eq.mp heq
      have hlast := congrArg lastPart heq
      rw [lastPart_append (hundotted t ht), lastPart_append (hundotted n hn)] at hlast
      subst hlast
      exact (append_dot_inj heq).symm
  · rintro rfl
    refine Bool.or_eq_true_iff.mpr (.inr (List.any_eq_true.mpr ⟨n, hn, beq_iff_eq.mpr rfl⟩))

/-- An import of a whole package that has a known type of some simple name. -/
def supplies (n : String) (i : ImportDecl) : Bool :=
  !i.isStatic && i.onDemand && isWellKnown (i.name ++ "." ++ n)

theorem candidates_eq_map :
    x.candidates n = (x.imports.filter (supplies n)).map (·.name ++ "." ++ n) := by
  rw [candidates, onDemandImports, List.map_map, List.filter_map, List.filter_filter]
  exact congrArg (List.map _) (List.filter_congr fun i _ ↦ Bool.and_comm _ _)

/-- The candidates for a type of the language's own package are that type, once for each import of
the whole package. -/
theorem candidates_core (hn : n ∈ coreTypes) : ∀ c ∈ x.candidates n, c = "java.lang." ++ n := by
  intro c hc
  obtain ⟨hc, hknown⟩ := List.mem_filter.mp hc
  obtain ⟨p, -, rfl⟩ := List.mem_map.mp hc
  rw [(isWellKnown_core hn).mp hknown]
  rfl

/-! ### In a file with a package -/

/-- Where a package is declared, what a name means comes from a class, from a single import or from
the language's own package, or nothing but the name and the package of the file tells it. -/
theorem resolveType_cases (hp : x.Packaged) (hprim : primitiveNames.contains n = false) {r : String}
    (h : x.resolveType n = .ok r) :
    (∃ k ∈ x.classes, k.inner.decl.name = firstPart n ∧ r = k.inner.fullName ++ afterFirst n) ∨
    (∃ i ∈ x.imports, isSingleOf (firstPart n) i = true ∧ r = i.name ++ afterFirst n) ∨
    (firstPart n ∈ coreTypes ∧ r = "java.lang." ++ n) ∨
    x.classSimplyNamed? (firstPart n) = none ∧ x.singleImports.lookup (firstPart n) = none ∧
      r = x.complete n none := by
  rw [resolveType_eq_map hprim] at h
  cases hk : x.classSimplyNamed? (firstPart n) with
  | some k =>
    rw [resolveSimple?_class hk] at h
    obtain ⟨hmem, hname⟩ := mem_of_classSimplyNamed? hk
    exact .inl ⟨k, hmem, hname, (Except.ok.inj h).symm⟩
  | none =>
  cases hl : x.singleImports.lookup (firstPart n) with
  | some full =>
    rw [resolveSimple?_import hk hl] at h
    obtain ⟨i, hi, hsingle, rfl⟩ := exists_of_lookup_singleImports hl
    exact .inr (.inl ⟨i, hi, hsingle, (Except.ok.inj h).symm⟩)
  | none =>
  by_cases hc : (x.candidates (firstPart n)).length = 1
  · obtain ⟨c, hc⟩ := List.length_eq_one_iff.mp hc
    obtain ⟨p, hhidden⟩ := resolveSimple?_hidden hk hl hc hp
    rw [hhidden] at h
    cases h
  · rw [resolveSimple?_core hk hl hc, core?] at h
    split at h
    · next hcore =>
      refine .inr (.inr (.inl ⟨List.contains_iff_mem.mp hcore, (Except.ok.inj h).symm.trans ?_⟩))
      rw [complete, String.append_assoc, firstPart_append_afterFirst]
    · exact .inr (.inr (.inr ⟨rfl, rfl, (Except.ok.inj h).symm⟩))

/-- The same source file with other imports. -/
def withImports (x : UnitIndex) (imports : List ImportDecl) : UnitIndex := { x with imports }

/-- The imports but for those of whole packages. -/
def explicitImports (imports : List ImportDecl) : List ImportDecl :=
  imports.filter fun i ↦ i.isStatic || !i.onDemand

theorem lookup_explicitImports :
    (x.withImports (explicitImports x.imports)).singleImports.lookup n =
      x.singleImports.lookup n := by
  rw [lookup_singleImports, lookup_singleImports, withImports, explicitImports, List.filter_filter]
  congr 3
  funext i
  cases hs : i.isStatic <;> cases hd : i.onDemand <;> simp [isSingleOf, hs, hd]

theorem candidates_explicitImports :
    (x.withImports (explicitImports x.imports)).candidates n = [] := by
  rw [candidates_eq_map, withImports, explicitImports, List.filter_filter]
  refine List.map_eq_nil_iff.mpr (List.filter_eq_nil_iff.mpr fun i _ ↦ ?_)
  cases hs : i.isStatic <;> cases hd : i.onDemand <;> simp [supplies, hs, hd]

/-- Where a package is declared, imports of whole packages never tell what a name means. -/
theorem resolveType_explicitImports (hp : x.Packaged) {r : String}
    (h : x.resolveType n = .ok r) :
    (x.withImports (explicitImports x.imports)).resolveType n = .ok r := by
  cases hprim : primitiveNames.contains n with
  | true =>
    rw [resolveType_primitive hprim] at h ⊢
    exact h
  | false =>
    rw [resolveType_eq_map hprim] at h ⊢
    rw [← h]
    suffices hsame : (x.withImports (explicitImports x.imports)).resolveSimple? (firstPart n) =
        x.resolveSimple? (firstPart n) by
      rw [hsame]
      rfl
    have hlookup := lookup_explicitImports (x := x) (n := firstPart n)
    refine resolveSimple?_congr rfl hlookup fun hk' hk hl ↦ ?_
    have hcore := resolveSimple?_core hk' (hlookup.trans hl) (by
      rw [candidates_explicitImports]
      exact Nat.zero_ne_one)
    by_cases hc : (x.candidates (firstPart n)).length = 1
    · obtain ⟨c, hc⟩ := List.length_eq_one_iff.mp hc
      obtain ⟨p, hhidden⟩ := resolveSimple?_hidden hk hl hc hp
      rw [hhidden] at h
      cases h
    · rw [resolveSimple?_core hk hl hc, hcore]

/-! ### One more import -/

/-- An import says the same as another one. -/
def Repeats (i j : ImportDecl) : Prop :=
  i.name = j.name ∧ i.isStatic = j.isStatic ∧ i.onDemand = j.onDemand

/-- An import is in effect without being added: it repeats another one, or imports the language's
own package as a whole. -/
def InEffect (imports : List ImportDecl) (i : ImportDecl) : Prop :=
  (∃ j ∈ imports, Repeats i j) ∨ i.name = "java.lang" ∧ i.isStatic = false ∧ i.onDemand = true

/-- An import takes a simple name from the single import that counted before it was added: that one
gives another full name, and no other single import of the simple name comes after. -/
def Retakes (x : UnitIndex) (back : List ImportDecl) (i : ImportDecl) (n : String) : Prop :=
  isSingleOf n i = true ∧ (∀ j ∈ back, isSingleOf n j = false) ∧
    x.singleImports.lookup n ≠ some i.name

/-- An import of a whole package disturbs the look-up of a type that it supplies and that has no
single import. It may be the first to supply it, which hides the type from a file with a package. Or
it is the second, which hides the type from a file without one, unless it needs no import; in a file
with a package, where the first one had hidden the type, it is visible again if it needs none. -/
def Crowds (x : UnitIndex) (i : ImportDecl) (n : String) : Prop :=
  supplies n i = true ∧ x.singleImports.lookup n = none ∧
    (x.candidates n = [] ∧ x.Packaged ∨
      (x.candidates n).length = 1 ∧ (x.Packaged ∨ n ∉ coreTypes))

variable {front back : List ImportDecl} {i : ImportDecl}

theorem isSingleOf_of_supplies (h : supplies n i = true) : isSingleOf n i = false := by
  have hdemand : i.onDemand = true :=
    (Bool.and_eq_true_iff.mp (Bool.and_eq_true_iff.mp h).1).2
  simp [isSingleOf, hdemand]

theorem InEffect.isSingle {imports : List ImportDecl} (h : InEffect imports i)
    (hi : isSingleOf n i = true) : ∃ j ∈ imports, isSingleOf n j = true := by
  rcases h with ⟨j, hj, hname, hstatic, hdemand⟩ | ⟨-, -, hdemand⟩
  · refine ⟨j, hj, ?_⟩
    rwa [isSingleOf, ← hname, ← hstatic, ← hdemand]
  · simp [isSingleOf, hdemand] at hi

/-- An import in effect that no other one repeats supplies types that need no import. -/
theorem InEffect.mem_coreTypes (h : InEffect x.imports i) (hi : supplies n i = true)
    (hc : x.candidates n = []) : n ∈ coreTypes := by
  rw [candidates_eq_map, List.map_eq_nil_iff, List.filter_eq_nil_iff] at hc
  rcases h with ⟨j, hj, hname, hstatic, hdemand⟩ | ⟨hname, -, -⟩
  · refine absurd ?_ (hc j hj)
    rwa [supplies, ← hname, ← hstatic, ← hdemand]
  · have hknown := (Bool.and_eq_true_iff.mp hi).2
    rw [hname] at hknown
    rcases Bool.or_eq_true_iff.mp hknown with h | h
    · have hlibrary : ∀ t ∈ libraryTypes, ¬ "java.lang.".toList <+: t.toList := by decide +kernel
      refine absurd ?_ (hlibrary _ (List.contains_iff_mem.mp h))
      exact ⟨n.toList, by simp⟩
    · obtain ⟨t, ht, heq⟩ := List.any_eq_true.mp h
      have heq : "java.lang" ++ "." ++ t = "java.lang" ++ "." ++ n := beq_iff_eq.mp heq
      have heq := congrArg String.toList heq
      simp only [String.toList_append, List.append_cancel_left_eq] at heq
      exact String.toList_inj.mp heq ▸ ht

/-- Where an import takes a name, the name had a single import. -/
theorem Retakes.exists_lookup (h : x.Retakes back i n) (hi : InEffect x.imports i) :
    ∃ full, x.singleImports.lookup n = some full ∧ full ≠ i.name := by
  obtain ⟨hsingle, -, hne⟩ := h
  cases hlookup : x.singleImports.lookup n with
  | some full => exact ⟨full, rfl, fun heq ↦ hne (heq ▸ hlookup)⟩
  | none =>
    obtain ⟨j, hj, hjs⟩ := hi.isSingle hsingle
    rw [lookup_singleImports_eq_none.mp hlookup j hj] at hjs
    cases hjs

theorem Retakes.lookup_insert (h : x.Retakes back i n) :
    (x.withImports (front ++ i :: back)).singleImports.lookup n = some i.name := by
  have hback : back.filter (isSingleOf n) = [] :=
    List.filter_eq_nil_iff.mpr fun j hj ↦ by rw [h.2.1 j hj]; exact Bool.false_ne_true
  rw [lookup_singleImports, withImports, List.filter_append, List.filter_cons_of_pos h.1, hback,
    List.getLast?_concat, Option.map_some]

theorem lookup_insert_of_not_retakes (hx : x.imports = front ++ back)
    (h : ¬ x.Retakes back i n) :
    (x.withImports (front ++ i :: back)).singleImports.lookup n = x.singleImports.lookup n := by
  cases hsingle : isSingleOf n i with
  | false =>
    rw [lookup_singleImports, lookup_singleImports, hx, withImports, List.filter_append,
      List.filter_append, List.filter_cons_of_neg (by rw [hsingle]; exact Bool.false_ne_true)]
  | true =>
    by_cases hback : ∀ j ∈ back, isSingleOf n j = false
    · have hlookup : x.singleImports.lookup n = some i.name :=
        not_not.mp fun hne ↦ h ⟨hsingle, hback, hne⟩
      have hnil : back.filter (isSingleOf n) = [] :=
        List.filter_eq_nil_iff.mpr fun j hj ↦ by rw [hback j hj]; exact Bool.false_ne_true
      rw [lookup_singleImports, withImports, List.filter_append, List.filter_cons_of_pos hsingle,
        hnil, List.getLast?_concat, Option.map_some, hlookup]
    · -- What counts comes after the import added, before and after.
      have hne : back.filter (isSingleOf n) ≠ [] := fun hnil ↦ hback fun j hj ↦
        Bool.eq_false_iff.mpr (List.filter_eq_nil_iff.mp hnil j hj)
      rw [lookup_singleImports, lookup_singleImports, hx, withImports, List.filter_append,
        List.filter_append, List.filter_cons_of_pos hsingle, ← List.singleton_append,
        ← List.append_assoc, List.getLast?_append_of_ne_nil _ hne,
        List.getLast?_append_of_ne_nil _ hne]

theorem candidates_insert_of_not_supplies (hx : x.imports = front ++ back)
    (hs : supplies n i = false) :
    (x.withImports (front ++ i :: back)).candidates n = x.candidates n := by
  rw [candidates_eq_map, candidates_eq_map, hx, withImports, List.filter_append, List.filter_append,
    List.filter_cons_of_neg (by rw [hs]; exact Bool.false_ne_true)]

theorem length_candidates_insert (hx : x.imports = front ++ back) (hs : supplies n i = true) :
    ((x.withImports (front ++ i :: back)).candidates n).length = (x.candidates n).length + 1 := by
  rw [candidates_eq_map, candidates_eq_map, hx, withImports, List.filter_append, List.filter_append,
    List.filter_cons_of_pos hs]
  simp only [List.length_map, List.length_append, List.length_cons, Nat.add_assoc]

/-- The look-up of a simple name stays as it was if no import takes it or crowds it. -/
theorem resolveSimple?_insert (hx : x.imports = front ++ back) (hi : InEffect x.imports i)
    (hr : ¬ x.Retakes back i n) (hc : ¬ x.Crowds i n) :
    (x.withImports (front ++ i :: back)).resolveSimple? n = x.resolveSimple? n := by
  refine resolveSimple?_congr rfl (lookup_insert_of_not_retakes hx hr) fun hk' hk hl ↦ ?_
  have hlookup := (lookup_insert_of_not_retakes hx hr).trans hl
  cases hs : supplies n i with
  | false =>
    have hsame := candidates_insert_of_not_supplies hx hs
    rw [candidates, candidates] at hsame
    simp only [resolveSimple?, hk', hk, hlookup, hl, hsame]
    rfl
  | true =>
  have hlength := length_candidates_insert hx hs
  rcases hcs : x.candidates n with _ | ⟨c, _ | ⟨d, rest⟩⟩
  · -- The import is the first to supply the name, which needs no import.
    rw [hcs] at hlength
    obtain ⟨c, hc'⟩ := List.length_eq_one_iff.mp hlength
    have hn : n ∈ coreTypes := hi.mem_coreTypes hs hcs
    have hp : ¬ x.Packaged := fun hp ↦ hc ⟨hs, hl, .inl ⟨hcs, hp⟩⟩
    rw [resolveSimple?_supplied hk' hlookup hc' hp, resolveSimple?_core hk hl (by simp [hcs]),
      candidates_core hn c (hc' ▸ List.mem_singleton_self c), core?,
      if_pos (List.contains_iff_mem.mpr hn)]
  · have hn : n ∈ coreTypes := not_not.mp fun hn ↦ hc ⟨hs, hl, .inr ⟨by rw [hcs]; rfl, .inr hn⟩⟩
    have hp : ¬ x.Packaged := fun hp ↦ hc ⟨hs, hl, .inr ⟨by rw [hcs]; rfl, .inl hp⟩⟩
    rw [resolveSimple?_supplied hk hl hcs hp,
      resolveSimple?_core hk' hlookup (by simp [hlength, hcs]),
      candidates_core hn c (hcs ▸ List.mem_singleton_self c), core?,
      if_pos (List.contains_iff_mem.mpr hn)]
  · rw [resolveSimple?_core hk hl (by simp [hcs]),
      resolveSimple?_core hk' hlookup (by simp [hlength, hcs])]

theorem complete_ne {full full' : String} (h : full ≠ full') :
    x.complete n (some full) ≠ x.complete n (some full') := by
  intro heq
  have heq := congrArg String.toList heq
  simp only [complete, String.toList_append] at heq
  exact h (String.toList_inj.mp (List.append_cancel_right heq))

/-- A type of another package is not what a name means in a file that declares no package. -/
theorem complete_candidate_ne (hp : ¬ x.Packaged) {c : String}
    (hc : c ∈ x.candidates (firstPart n)) : x.complete n (some c) ≠ x.complete n none := by
  have hnone : x.complete n none = n := by
    unfold complete inPackage
    dsimp only
    split
    · rfl
    · split
      · next p hpackage =>
        refine if_pos ?_
        by_contra hne
        exact hp ⟨p, hpackage, by simpa using hne⟩
      · rfl
  obtain ⟨p, -, rfl⟩ := List.mem_map.mp (List.mem_filter.mp hc).1
  rw [hnone, complete, String.append_assoc, firstPart_append_afterFirst]
  exact append_dot_ne p n

/-- Where an import takes the first part of a name, the name means something else. -/
theorem Retakes.resolveType_ne (hi : InEffect x.imports i)
    (hk : x.classSimplyNamed? (firstPart n) = none) (hr : x.Retakes back i (firstPart n)) :
    ((x.withImports (front ++ i :: back)).resolveSimple? (firstPart n)).map (x.complete n) ≠
      (x.resolveSimple? (firstPart n)).map (x.complete n) := by
  obtain ⟨full, hfull, hne⟩ := hr.exists_lookup hi
  have hk' : (x.withImports (front ++ i :: back)).classSimplyNamed? (firstPart n) = none := hk
  rw [resolveSimple?_import hk hfull, resolveSimple?_import hk' hr.lookup_insert]
  exact fun h ↦ complete_ne hne.symm (Except.ok.inj h)

/-- Where an import crowds the first part of a name, the name means something else. -/
theorem Crowds.resolveType_ne (hx : x.imports = front ++ back)
    (hk : x.classSimplyNamed? (firstPart n) = none) (hc : x.Crowds i (firstPart n)) :
    ((x.withImports (front ++ i :: back)).resolveSimple? (firstPart n)).map (x.complete n) ≠
      (x.resolveSimple? (firstPart n)).map (x.complete n) := by
  obtain ⟨hs, hl, hc⟩ := hc
  have hk' : (x.withImports (front ++ i :: back)).classSimplyNamed? (firstPart n) = none := hk
  have hlookup : (x.withImports (front ++ i :: back)).singleImports.lookup (firstPart n) = none :=
    (lookup_insert_of_not_retakes hx fun h ↦ Bool.false_ne_true
      ((isSingleOf_of_supplies hs).symm.trans h.1)).trans hl
  have hlength := length_candidates_insert hx hs
  obtain ⟨hcs, hp⟩ | ⟨hone, hwhy⟩ := hc
  · rw [hcs] at hlength
    obtain ⟨c, hc'⟩ := List.length_eq_one_iff.mp hlength
    obtain ⟨p, hhidden⟩ := resolveSimple?_hidden hk' hlookup hc' hp
    rw [hhidden, resolveSimple?_core hk hl (by simp [hcs])]
    exact fun h ↦ nomatch h
  · obtain ⟨c, hcs⟩ := List.length_eq_one_iff.mp hone
    rw [resolveSimple?_core hk' hlookup (by omega)]
    by_cases hp : x.Packaged
    · obtain ⟨p, hhidden⟩ := resolveSimple?_hidden hk hl hcs hp
      rw [hhidden]
      exact fun h ↦ nomatch h
    · have hn := hwhy.resolve_left hp
      rw [resolveSimple?_supplied hk hl hcs hp, core?, if_neg (mt List.contains_iff_mem.mp hn)]
      exact fun h ↦
        complete_candidate_ne hp (hcs ▸ List.mem_singleton_self c) (Except.ok.inj h).symm

theorem resolveType_insert (hx : x.imports = front ++ back) (hi : InEffect x.imports i)
    (n : String) :
    (x.withImports (front ++ i :: back)).resolveType n = x.resolveType n ↔
      primitiveNames.contains n = true ∨
        ¬ (x.classSimplyNamed? (firstPart n) = none ∧
          (x.Retakes back i (firstPart n) ∨ x.Crowds i (firstPart n))) := by
  cases hp : primitiveNames.contains n with
  | true =>
    rw [resolveType_primitive hp, resolveType_primitive hp]
    exact iff_of_true rfl (.inl rfl)
  | false =>
    rw [resolveType_eq_map hp, resolveType_eq_map hp]
    simp only [Bool.false_eq_true, false_or]
    constructor
    · rintro heq ⟨hk, hr | hc⟩
      · exact hr.resolveType_ne hi hk heq
      · exact hc.resolveType_ne hx hk heq
    · intro h
      cases hk : x.classSimplyNamed? (firstPart n) with
      | some k =>
        have hk' : (x.withImports (front ++ i :: back)).classSimplyNamed? (firstPart n) = some k :=
          hk
        rw [resolveSimple?_class hk, resolveSimple?_class hk']
        rfl
      | none =>
        rw [resolveSimple?_insert hx hi (fun hr ↦ h ⟨hk, .inl hr⟩) fun hc ↦ h ⟨hk, .inr hc⟩]
        rfl

/-! ### Owners of static members -/

/-- An import of a static member of some name. -/
def isMemberOf (member : String) (i : ImportDecl) : Bool :=
  i.isStatic && !i.onDemand && lastPart i.name == member

/-- An import of all static members of a class. -/
def isStaticOnDemand (i : ImportDecl) : Bool := i.isStatic && i.onDemand

theorem staticOwners_eq (member : String) : x.staticOwners member =
    if x.imports.filter (isMemberOf member) = [] then
      distinct ((x.imports.filter isStaticOnDemand).map ImportDecl.name)
    else distinct ((x.imports.filter (isMemberOf member)).map fun i ↦ ownerPart i.name) := by
  have hmap : (x.staticImports.filter (·.1 == member)).map Prod.snd =
      (x.imports.filter (isMemberOf member)).map fun i ↦ ownerPart i.name := by
    rw [staticImports, List.filter_map, List.map_map, List.filter_filter]
    exact congrArg (List.map _) (List.filter_congr fun i _ ↦ Bool.and_comm _ _)
  rw [staticOwners, hmap]
  split
  · next hnil => rw [if_pos (List.map_eq_nil_iff.mp hnil)]; rfl
  · next hne => rw [if_neg fun hnil ↦ hne (by rw [hnil, List.map_nil])]

/-- A name that has come already changes nothing. -/
theorem distinct_insert {front back : List String} {n : String} (hn : n ∈ front) :
    distinct (front ++ n :: back) = distinct (front ++ back) := by
  have hseen : (front.foldl
      (fun seen n ↦ if seen.contains n then seen else seen ++ [n]) []).contains n = true :=
    List.contains_iff_mem.mpr (mem_distinct.mpr hn)
  rw [distinct, distinct, List.foldl_append, List.foldl_append, List.foldl_cons, if_pos hseen]

theorem distinct_filter_insert {p : ImportDecl → Bool} {f : ImportDecl → String}
    (hi : p i = true → ∃ j ∈ front, p j = true ∧ f j = f i) :
    distinct (((front ++ i :: back).filter p).map f) =
      distinct (((front ++ back).filter p).map f) := by
  cases hp : p i with
  | false =>
    rw [List.filter_append, List.filter_append,
      List.filter_cons_of_neg (by rw [hp]; exact Bool.false_ne_true)]
  | true =>
    obtain ⟨j, hj, hpj, hf⟩ := hi hp
    rw [List.filter_append, List.filter_append, List.filter_cons_of_pos hp, List.map_append,
      List.map_append, List.map_cons, ← hf]
    exact distinct_insert (List.mem_map_of_mem (List.mem_filter.mpr ⟨hj, hpj⟩))

/-- An import that is no static one, or repeats one before it, leaves the owners as they are. -/
theorem staticOwners_insert (hx : x.imports = front ++ back)
    (hi : i.isStatic = false ∨ ∃ j ∈ front, Repeats i j) (member : String) :
    (x.withImports (front ++ i :: back)).staticOwners member = x.staticOwners member := by
  have hmember : isMemberOf member i = true →
      ∃ j ∈ front, isMemberOf member j = true ∧ ownerPart j.name = ownerPart i.name := by
    intro h
    rcases hi with hstatic | ⟨j, hj, hname, hstatic, hdemand⟩
    · simp [isMemberOf, hstatic] at h
    · refine ⟨j, hj, ?_, by rw [hname]⟩
      rwa [isMemberOf, ← hname, ← hstatic, ← hdemand]
  have hdemand : isStaticOnDemand i = true →
      ∃ j ∈ front, isStaticOnDemand j = true ∧ j.name = i.name := by
    intro h
    rcases hi with hstatic | ⟨j, hj, hname, hstatic, hdemand⟩
    · simp [isStaticOnDemand, hstatic] at h
    · refine ⟨j, hj, ?_, hname.symm⟩
      rwa [isStaticOnDemand, ← hstatic, ← hdemand]
  have hnil : (front ++ i :: back).filter (isMemberOf member) = [] ↔
      (front ++ back).filter (isMemberOf member) = [] := by
    simp only [List.filter_eq_nil_iff, List.forall_mem_append, List.forall_mem_cons]
    refine and_congr_right fun hfront ↦ and_iff_right fun h ↦ ?_
    obtain ⟨j, hj, hjm, -⟩ := hmember h
    exact hfront j hj hjm
  rw [staticOwners_eq, staticOwners_eq, withImports, hx, distinct_filter_insert hmember,
    distinct_filter_insert hdemand]
  simp only [hnil]

theorem importsFrom_insert (hx : x.imports = front ++ back) (hi : InEffect x.imports i)
    {member owner : String} :
    (x.withImports (front ++ i :: back)).ImportsFrom member owner ↔ x.ImportsFrom member owner := by
  have hmem : ∀ j, j ∈ front ++ i :: back ↔ j = i ∨ j ∈ x.imports := by
    intro j
    rw [hx]
    simp only [List.mem_append, List.mem_cons]
    tauto
  have hgives : ∀ o, Gives i member o → ∃ j ∈ x.imports, Gives j member o := by
    rintro o ⟨hs, hd, hlast, howner⟩
    rcases hi with ⟨j, hj, hname, hstatic, hdemand⟩ | ⟨-, hstatic, -⟩
    · exact ⟨j, hj, hstatic ▸ hs, hdemand ▸ hd, hname ▸ hlast, hname ▸ howner⟩
    · exact absurd (hstatic.symm.trans hs) Bool.false_ne_true
  have hall : i.isStatic = true ∧ i.onDemand = true ∧ i.name = owner →
      ∃ j ∈ x.imports, j.isStatic = true ∧ j.onDemand = true ∧ j.name = owner := by
    rintro ⟨hs, hd, hname'⟩
    rcases hi with ⟨j, hj, hname, hstatic, hdemand⟩ | ⟨-, hstatic, -⟩
    · exact ⟨j, hj, hstatic ▸ hs, hdemand ▸ hd, hname ▸ hname'⟩
    · exact absurd (hstatic.symm.trans hs) Bool.false_ne_true
  have hnone : (∀ j ∈ x.imports, ∀ o, ¬ Gives j member o) → ∀ o, ¬ Gives i member o := by
    intro h o hg
    obtain ⟨j, hj, hg⟩ := hgives o hg
    exact h j hj o hg
  unfold ImportsFrom
  simp only [withImports, hmem, forall_eq_or_imp, exists_eq_or_imp]
  rw [or_iff_right_of_imp (hgives owner), or_iff_right_of_imp hall, and_iff_right_of_imp hnone]

/-- An import that is in effect is added to a source file. Each static member keeps its owners, in
the same order if the import is no static one or comes after the one that it repeats. Each name of a
type keeps its meaning, unless its first part is that of no class and the import takes it from
another single import or is one import too many for it. -/
theorem imports_inEffect (unit : CompilationUnit) (front back : List ImportDecl)
    (i : ImportDecl) (himports : unit.imports = front ++ back) (hi : InEffect unit.imports i) :
    (∀ m, ((ofUnit { unit with imports := front ++ i :: back }).staticOwners m).Perm
        ((ofUnit unit).staticOwners m)) ∧
      ((i.isStatic = false ∨ ∃ j ∈ front, Repeats i j) →
        ∀ m, (ofUnit { unit with imports := front ++ i :: back }).staticOwners m =
          (ofUnit unit).staticOwners m) ∧
      ∀ n, (ofUnit { unit with imports := front ++ i :: back }).resolveType n =
          (ofUnit unit).resolveType n ↔
        primitiveNames.contains n = true ∨
          ¬ ((ofUnit unit).classSimplyNamed? (firstPart n) = none ∧
            ((ofUnit unit).Retakes back i (firstPart n) ∨
              (ofUnit unit).Crowds i (firstPart n))) := by
  have hx : (ofUnit unit).imports = front ++ back := himports
  refine ⟨fun m ↦ ?_, staticOwners_insert hx, resolveType_insert hx hi⟩
  refine (List.perm_ext_iff_of_nodup (nodup_staticOwners _ m) (nodup_staticOwners _ m)).mpr ?_
  intro owner
  rw [mem_staticOwners, mem_staticOwners]
  exact importsFrom_insert hx hi

/-- Beside `import static a.A.m`, the import of `java.lang` as a whole changes neither the owner of
`m` nor the meaning of `Objects`. -/
theorem imports_inEffect_coreImport :
    let l : Location := ⟨.origin, .origin⟩
    let unit : CompilationUnit := ⟨l, some "p", [⟨l, "a.A.m", true, false⟩], []⟩
    let unit' := { unit with imports := [] ++ ⟨l, "java.lang", false, true⟩ :: unit.imports }
    (∀ m, (ofUnit unit').staticOwners m = (ofUnit unit).staticOwners m) ∧
      (ofUnit unit').resolveType "Objects" = (ofUnit unit).resolveType "Objects" := by
  intro l unit unit'
  obtain ⟨-, howners, htypes⟩ := imports_inEffect unit [] unit.imports
    ⟨l, "java.lang", false, true⟩ rfl (.inr ⟨rfl, rfl, rfl⟩)
  refine ⟨howners (.inl rfl), (htypes "Objects").mpr (.inr ?_)⟩
  rintro ⟨-, ⟨hsingle, -⟩ | ⟨hsupplies, -⟩⟩
  · exact absurd hsingle (by decide)
  · exact absurd hsupplies (by decide)

/-- A repetition is not always without effect: behind a second `import java.util.*` the name
`Objects` no longer means `java.util.Objects`. -/
theorem not_imports_inEffect : ¬ ∀ (unit : CompilationUnit) (i : ImportDecl),
    InEffect unit.imports i → ∀ n,
      (ofUnit { unit with imports := unit.imports ++ [i] }).resolveType n =
        (ofUnit unit).resolveType n := by
  intro h
  let l : Location := ⟨.origin, .origin⟩
  let i : ImportDecl := ⟨l, "java.util", false, true⟩
  have heq := h ⟨l, none, [i], []⟩ i (.inl ⟨i, List.mem_singleton_self i, rfl, rfl, rfl⟩) "Objects"
  have hone : (ofUnit ⟨l, none, [i], []⟩).resolveType "Objects" = .ok "java.util.Objects" := by
    decide
  have htwo : (ofUnit ⟨l, none, [i, i], []⟩).resolveType "Objects" = .ok "Objects" := by decide
  exact absurd (htwo.symm.trans (heq.trans hone)) (by decide)

end

end UnitIndex

end GuardLint
