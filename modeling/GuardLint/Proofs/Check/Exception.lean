import GuardLint.Proofs.Run.Fixed
import GuardLint.Proofs.Scope.Import
import GuardLint.Proofs.Syntax.Numbers

/-!
# What the exception of a fix denotes

A fix writes the exception by its simple name. That is the type of the language's own package that
is meant, unless the file declares a class of the name, imports one by itself, or declares a package
and imports the language's own package as a whole, which then leaves the name open.
-/

namespace GuardLint

open Syntax

namespace UnitIndex

variable {x : UnitIndex} {n : String}

/-- Something in a source file takes the simple name of a type of the language's own package from
it: a class, a single import, or beside a package the one import of the language's own package as a
whole, since the package may have a class of that name. -/
def Captures (x : UnitIndex) (n : String) : Prop :=
  (∃ k, x.classSimplyNamed? n = some k ∧ k.inner.fullName ≠ "java.lang." ++ n) ∨
  (x.classSimplyNamed? n = none ∧
    ∃ full, x.singleImports.lookup n = some full ∧ full ≠ "java.lang." ++ n) ∨
  (x.classSimplyNamed? n = none ∧ x.singleImports.lookup n = none ∧ x.Packaged ∧
    x.onDemandImports.count "java.lang" = 1)

theorem length_candidates_core (hn : n ∈ coreTypes) :
    (x.candidates n).length = x.onDemandImports.count "java.lang" := by
  rw [candidates, ← List.countP_eq_length_filter, List.countP_map, List.count]
  refine List.countP_congr fun p _ ↦ ?_
  rw [Function.comp_apply, isWellKnown_core hn, beq_iff_eq]

/-- The simple name of a type of the language's own package means that type unless it is taken. -/
theorem resolveType_core (hn : n ∈ coreTypes) :
    x.resolveType n = .ok ("java.lang." ++ n) ↔ ¬ x.Captures n := by
  have hsimple : ∀ t ∈ coreTypes, '.' ∉ t.toList ∧ primitiveNames.contains t = false := by
    decide +kernel
  obtain ⟨hundotted, hprim⟩ := hsimple n hn
  obtain ⟨hfirst, hafter⟩ := firstPart_of_undotted hundotted
  have hcomplete : ∀ full, x.complete n (some full) = full := fun full ↦ by
    rw [complete, hafter, String.append_empty]
  rw [resolveType_eq_map hprim, hfirst]
  unfold Captures
  cases hk : x.classSimplyNamed? n with
  | some k =>
    rw [resolveSimple?_class hk]
    simp [Except.map, hcomplete]
  | none =>
  cases hl : x.singleImports.lookup n with
  | some full =>
    rw [resolveSimple?_import hk hl]
    simp [Except.map, hcomplete]
  | none =>
  have hcore : core? n = some ("java.lang." ++ n) := if_pos (List.contains_iff_mem.mpr hn)
  rw [← length_candidates_core hn]
  by_cases hc : (x.candidates n).length = 1
  · obtain ⟨c, hcs⟩ := List.length_eq_one_iff.mp hc
    by_cases hp : x.Packaged
    · obtain ⟨p, hhidden⟩ := resolveSimple?_hidden hk hl hcs hp
      rw [hhidden]
      simp [Except.map, hp, hcs]
    · rw [resolveSimple?_supplied hk hl hcs hp,
        candidates_core hn c (hcs ▸ List.mem_singleton_self c)]
      simp [Except.map, hcomplete, hp]
  · rw [resolveSimple?_core hk hl hc, hcore]
    simp [Except.map, hcomplete, hc]

-- In a file that says nothing the name of an exception means the exception.
example : (⟨none, [], []⟩ : UnitIndex).resolveType "NullPointerException" =
    .ok "java.lang.NullPointerException" := by
  decide +kernel

end UnitIndex

/-- The exceptions of the guards are types of the language's own package. -/
theorem Catalog.exception_core {owner method : String} {s : GuardShape}
    (h : lookup owner method = some s) :
    (s.exception? method).getD "" ∈ UnitIndex.coreTypes := by
  have hall : ∀ s ∈ shapes, ∀ m ∈ s.methods,
      (s.exception? m).getD "" ∈ UnitIndex.coreTypes := by decide +kernel
  obtain ⟨hs, -, hm⟩ := mem_of_lookup h
  exact hall s hs method hm

namespace Report

variable {text : List Char} {path : Option String} {config : Config} {severity : Option String}
  {unit : CompilationUnit} {report : Report} {d : Diagnostic}

/-- Every finding is about a call that is matched, and its fix throws the exception of the match. -/
theorem exists_exception (hparse : CompilationUnit.parse text = .ok unit)
    (hreport : (ofSource text path config severity).2 = .ok report) (hd : d ∈ report.findings) :
    ∃ site ∈ sites config unit, ∃ method exception condition message nullCheck,
      Gate.evaluate (fileOf text path config unit).facts Gate.all site =
        .ok (.matched method exception condition message nullCheck) ∧
      exception ∈ UnitIndex.coreTypes ∧
      ∃ fix test, d.fix = some fix ∧
        fix.replacement =
          "if (" ++ test ++ ") throw new " ++ exception ++ "(" ++ message ++ ");" := by
  obtain ⟨site, hsite, hfound⟩ :=
    exists_of_mem_diagnostics hparse hreport (List.mem_filter.mp hd).1
  obtain ⟨place, condition, message, method, exception, nullCheck, hm, rfl⟩ :=
    findingAt_eq_some.mp hfound
  obtain ⟨shape, call, _, _, hg, -, hexception, -⟩ := Gate.evaluate_eq_matched.mp hm.verdict
  exact ⟨site, hsite, method, exception, _, _, nullCheck, hm.verdict,
    hexception ▸ Catalog.exception_core hg.shape, _, _, rfl, rfl⟩

/-- The exception that the fix of a finding throws is, by the simple name that the fix gives it, the
type of the language's own package, exactly if nothing in the file takes the name from it. -/
theorem exception_denotes (hparse : CompilationUnit.parse text = .ok unit)
    (hreport : (ofSource text path config severity).2 = .ok report) (hd : d ∈ report.findings) :
    ∃ site ∈ sites config unit, ∃ method exception condition message nullCheck,
      Gate.evaluate (fileOf text path config unit).facts Gate.all site =
        .ok (.matched method exception condition message nullCheck) ∧
      (∃ fix test, d.fix = some fix ∧
        fix.replacement =
          "if (" ++ test ++ ") throw new " ++ exception ++ "(" ++ message ++ ");") ∧
      ((UnitIndex.ofUnit unit).resolveType exception = .ok ("java.lang." ++ exception) ↔
        ¬ (UnitIndex.ofUnit unit).Captures exception) := by
  obtain ⟨site, hsite, method, exception, condition, message, nullCheck, hverdict, hcore, hfix⟩ :=
    exists_exception hparse hreport hd
  exact ⟨site, hsite, method, exception, condition, message, nullCheck, hverdict, hfix,
    UnitIndex.resolveType_core hcore⟩

/-- A text with a null check in a class that has the name of its exception. -/
private def capturedText : List Char :=
  ("class NullPointerException\x7b\x7bint x=1;" ++
    "java.util.Objects.requireNonNull(x,\"m\"+x);\x7d\x7d").toList

private theorem capturedText_findings :
    (match (ofSource capturedText none .default none).2 with
      | .ok report => report.findings.length == 1
      | .error _ => false) = true ∧
    (match CompilationUnit.parse capturedText with
      | .ok unit => (sites .default unit).all fun site ↦
          match Gate.evaluate (fileOf capturedText none .default unit).facts Gate.all site with
          | .ok (.matched _ exception _ _ _) =>
            decide ((UnitIndex.ofUnit unit).resolveType exception = .ok exception)
          | _ => true
      | .error _ => false) = true := by
  have htext : capturedText = _ := Text.toList_ofList_append _ _
  rw [ofSource, htext, CompilationUnit.parse_eq_parseNumbered]
  decide +kernel

private theorem exists_capturedText : ∃ unit report d,
    CompilationUnit.parse capturedText = .ok unit ∧
    (ofSource capturedText none .default none).2 = .ok report ∧ d ∈ report.findings ∧
    ∀ site ∈ sites .default unit, ∀ method exception condition message nullCheck,
      Gate.evaluate (fileOf capturedText none .default unit).facts Gate.all site =
        .ok (.matched method exception condition message nullCheck) →
      (UnitIndex.ofUnit unit).resolveType exception ≠ .ok ("java.lang." ++ exception) := by
  obtain ⟨hreport, hsites⟩ := capturedText_findings
  cases hr : (ofSource capturedText none .default none).2 with
  | error f => simp [hr] at hreport
  | ok report =>
    cases hp : CompilationUnit.parse capturedText with
    | error e => simp [hp] at hsites
    | ok unit =>
      simp only [hr, beq_iff_eq] at hreport
      obtain ⟨d, hd⟩ := List.length_eq_one_iff.mp hreport
      simp only [hp, List.all_eq_true] at hsites
      refine ⟨unit, report, d, rfl, rfl, hd ▸ List.mem_singleton_self d,
        fun site hsite _ exception _ _ _ hverdict h ↦ ?_⟩
      have hself := hsites site hsite
      simp only [hverdict, decide_eq_true_eq] at hself
      exact UnitIndex.append_dot_ne "java.lang" exception (Except.ok.inj (h.symm.trans hself))

/-- In a class that has the name of the exception, something takes the name. -/
theorem exception_denotes_captured : ∃ unit report d exception,
    CompilationUnit.parse capturedText = .ok unit ∧
    (ofSource capturedText none .default none).2 = .ok report ∧ d ∈ report.findings ∧
    (UnitIndex.ofUnit unit).Captures exception := by
  obtain ⟨unit, report, d, hp, hr, hd, hother⟩ := exists_capturedText
  obtain ⟨site, hsite, method, exception, condition, message, nullCheck, hverdict, -, hiff⟩ :=
    exception_denotes hp hr hd
  exact ⟨unit, report, d, exception, hp, hr, hd,
    not_not.mp (mt hiff.mpr (hother site hsite _ _ _ _ _ hverdict))⟩

/-- The exception of a finding is not always the type of the language's own package. -/
theorem exception_capturedText : ∃ unit report d fix exception test message,
    CompilationUnit.parse capturedText = .ok unit ∧
    (ofSource capturedText none .default none).2 = .ok report ∧ d ∈ report.findings ∧
    d.fix = some fix ∧
    fix.replacement = "if (" ++ test ++ ") throw new " ++ exception ++ "(" ++ message ++ ");" ∧
    (UnitIndex.ofUnit unit).resolveType exception ≠ .ok ("java.lang." ++ exception) := by
  obtain ⟨unit, report, d, hp, hr, hd, hother⟩ := exists_capturedText
  obtain ⟨site, hsite, method, exception, condition, message, nullCheck, hverdict, -, fix, test,
    hfix, htext⟩ := exists_exception hp hr hd
  exact ⟨unit, report, d, fix, exception, test, message, hp, hr, hd, hfix, htext,
    hother site hsite _ _ _ _ _ hverdict⟩

end Report

end GuardLint
