import GuardLint.Proofs.Check.Agreement
import GuardLint.Proofs.Check.TestCode
import GuardLint.Proofs.Run.Fixed
import GuardLint.Proofs.Semantics.PlainText
import GuardLint.Proofs.Syntax.Layout
import GuardLint.Proofs.Syntax.Numbers

/-!
# Settings that suppress findings

Settings may leave out files, leave out generated classes and count more code as that of tests. Then
there are fewer findings, and those that are left are as they were: what is left out plays no part in
the other calls, except that it may change the numbers by which classes without a name of their own
are called.
-/

namespace GuardLint

open Syntax

/-- Settings leave out at least what others leave out, and are else the same. -/
structure Config.Suppresses (c c' : Config) : Prop where
  enabled : c'.enabled = c.enabled
  severity : c'.severity = c.severity
  testGlobs : c.testGlobs ⊆ c'.testGlobs
  generatedGlobs : c.generatedGlobs ⊆ c'.generatedGlobs
  exclude : c.exclude ⊆ c'.exclude
  skipGenerated : c.skipGenerated = true → c'.skipGenerated = true
  testOnly : c.testOnly = true → c'.testOnly = true

theorem Glob.matchesAny_mono {path : Option String} {patterns patterns' : List String}
    (h : patterns ⊆ patterns') (hm : matchesAny path patterns = true) :
    matchesAny path patterns' = true := by
  cases path with
  | none => cases hm
  | some p =>
    obtain ⟨hne, hany⟩ := Bool.and_eq_true_iff.mp hm
    obtain ⟨pattern, hpattern, hfits⟩ := List.any_eq_true.mp hany
    exact Bool.and_eq_true_iff.mpr ⟨hne, List.any_eq_true.mpr ⟨pattern, h hpattern, hfits⟩⟩

/-! ### What is left where it is -/

/-- What does not move is read as it was. -/
theorem Syntax.CompilationUnit.unit_id {text : List Char} {unit : CompilationUnit}
    (hp : CompilationUnit.parse text = .ok unit) : Relocation.unit id unit = unit := by
  obtain ⟨ts, -, hr⟩ := CompilationUnit.parse_eq_ok.mp hp
  have hmoves : Relocation.Moves id ts ts :=
    ⟨List.map_id ts, fun us _ ↦ congrArg Token.cover (List.map_id us).symm⟩
  exact (hr.unique (hmoves.reads hr)).symm

/-- If one function finds of every element what another one finds of the related element, or nothing,
it finds less. -/
theorem forall₂_sublist_filterMap {α β γ : Type} {f : α → Option γ} {f' : β → Option γ}
    {xs : List α} {ys : List β}
    (h : List.Forall₂ (fun x y ↦ ∀ d, f' y = some d → f x = some d) xs ys) :
    (ys.filterMap f').Sublist (xs.filterMap f) := by
  induction h with
  | nil => exact .slnil
  | @cons x y xs ys hxy _ ih =>
    rw [List.filterMap_cons, List.filterMap_cons]
    cases hy : f' y with
    | none =>
      cases f x with
      | none => exact ih
      | some d => exact ih.cons d
    | some d =>
      rw [hxy d hy]
      exact ih.cons_cons d

namespace Rule

variable {Site Arg : Type} {facts others : Facts Site Arg} {grade : String} {s s' : Site}
  {v v' : Verdict}

/-- Only a matched call is a finding. -/
theorem matched_of_findingOf {d : Diagnostic} (h : findingOf facts grade s v = some d) :
    v.decision.matched = true := by
  cases hm : v.decision.matched with
  | true => rfl
  | false =>
    simp only [findingOf, fix, hm] at h
    split at h <;> cases h

/-- A finding is made of a decision and a span. -/
theorem findingOf_congr (hspan : others.replacementSpan s' = facts.replacementSpan s)
    (hdecision : v.decision = v'.decision) :
    findingOf facts grade s v = findingOf others grade s' v' := by
  rw [findingOf.eq_def, findingOf.eq_def, hspan, hdecision]

end Rule

/-! ### What suppression leaves -/

namespace Config.Suppresses

variable {text : List Char} {path : Option String} {c c' : Config} {unit : CompilationUnit}
  (h : c.Suppresses c')
include h

/-- A file that is looked at in spite of more patterns is looked at with fewer. -/
theorem skipReason? (hs : Report.skipReason? path c' = none) : Report.skipReason? path c = none := by
  unfold Report.skipReason? Config.active at hs ⊢
  rw [h.enabled, h.severity] at hs
  split at hs
  · cases hs
  · next hactive =>
    rw [if_neg hactive]
    split at hs
    · cases hs
    · next hexclude =>
      rw [if_neg fun hm ↦ hexclude (Glob.matchesAny_mono h.exclude hm)]
      split at hs
      · cases hs
      · next hgenerated =>
        refine if_neg fun hm ↦ hgenerated ?_
        obtain ⟨hskip, hm⟩ := Bool.and_eq_true_iff.mp hm
        exact Bool.and_eq_true_iff.mpr
          ⟨h.skipGenerated hskip, Glob.matchesAny_mono h.generatedGlobs hm⟩

/-- More calls are in test code. -/
theorem isTestCode {s : CallSite} (hs : s.isTestCode path c.testGlobs c.testOnly = true) :
    s.isTestCode path c'.testGlobs c'.testOnly = true := by
  simp only [CallSite.isTestCode, Bool.or_eq_true] at hs ⊢
  exact hs.imp_left (Or.imp h.testOnly (Glob.matchesAny_mono h.testGlobs))

theorem facts (s : CallSite) : (Report.fileOf text path c unit).facts.Suppresses
    (Report.fileOf text path c' unit).facts s where
  methodName := rfl
  resolveCall := rfl
  replacementSpan := rfl
  sourceText := rfl
  staticType _ := rfl
  isConstant _ := rfl
  hasSideEffect _ := rfl
  isTestCode := by
    cases htest : s.isTestCode path c'.testGlobs c'.testOnly with
    | true => exact .inr (congrArg Except.ok htest)
    | false =>
      have hfalse : s.isTestCode path c.testGlobs c.testOnly = false :=
        Bool.eq_false_iff.mpr fun ht ↦ Bool.eq_false_iff.mp htest (h.isTestCode ht)
      exact .inl (congrArg Except.ok (htest.trans hfalse.symm))

/-- The calls of a file from which more classes are left out are among its calls, but for the numbers
of classes. -/
theorem corresponds (hp : CompilationUnit.parse text = .ok unit)
    (hplain : ∀ n ∈ TypeName.ofUnit unit, Plain n) :
    Corresponds False (CallSite.Alike (.ofUnit unit) Plain id) (Report.sites c unit)
      (Report.sites c' unit) := by
  have hx := UnitIndex.plainNames_ofUnit hplain
  have hskip : (if c.skipGenerated then Report.generatedAnnotations else []) ⊆
      if c'.skipGenerated then Report.generatedAnnotations else [] := by
    intro a ha
    split at ha
    · next hc => rwa [if_pos (h.skipGenerated hc)]
    · cases ha
  have htypes : ∀ n ∈ unit.types.flatMap TypeName.ofType, Plain n :=
    fun n hn ↦ hplain n (List.mem_append_right _ hn)
  have hsites := CallSite.corresponds_ofUnit (F := .renumbered hx False)
    (N := .renumbered hx .nil) (g := id) hskip False.elim
    (fun d hd ↦ ⟨[], .plain (UnitIndex.plain_topLevel hx.package
      fun n hn ↦ htypes n (List.mem_flatMap.mpr ⟨d, hd, hn⟩)), rfl⟩) htypes
  rwa [CompilationUnit.unit_id hp] at hsites

end Config.Suppresses

/-- Calls alike where nothing moves are decided alike. -/
theorem CallSite.Alike.decision {text : List Char} {path : Option String} {c : Config}
    {unit : CompilationUnit} {Written : String → Prop} {s s' : CallSite} {v : Verdict}
    (h : CallSite.Alike (.ofUnit unit) Written id s s') (hp : CompilationUnit.parse text = .ok unit)
    (hv : Gate.evaluate (Report.fileOf text path c unit).facts Gate.all s = .ok v) :
    ∃ v', Gate.evaluate (Report.fileOf text path c unit).facts Gate.all s' = .ok v' ∧
      v'.decision = v.decision := by
  obtain ⟨N, hs⟩ := h
  have hindex := Relocation.index_ofUnit (g := id) unit
  rw [CompilationUnit.unit_id hp] at hindex
  have hfile : (Report.fileOf text path c unit).Relocated id (Report.fileOf text path c unit) :=
    ⟨hindex, rfl, rfl, rfl⟩
  have hverdict := hs.evaluate hfile Gate.all
  generalize hev : Gate.evaluate (Report.fileOf text path c unit).facts Gate.all s' = r,
    Gate.evaluate (Report.fileOf text path c unit).facts Gate.all s = r₀ at hverdict hv
  subst hv
  cases hverdict with
  | ok halike =>
    refine ⟨_, rfl, ?_⟩
    cases halike with
    | unknownMethod | unboundCall | rejected => rfl
    | matched _ _ _ hc hm =>
      obtain ⟨e, -, rfl, rfl⟩ := hc
      obtain ⟨m, -, rfl, rfl⟩ := hm
      simp only [Verdict.decision, SourceFile.textOf, Relocation.expr_location, id]

namespace Report

variable {text : List Char} {path : Option String} {c c' : Config} {severity : Option String}
  {unit : CompilationUnit} {report : Report}

/-- A call with a verdict has one where more is left out, and no finding that it has not. -/
theorem findingAt_of_suppresses (path : Option String)
    (hp : CompilationUnit.parse text = .ok unit) (h : c.Suppresses c') {Written : String → Prop}
    {s s' : CallSite} (ha : CallSite.Alike (.ofUnit unit) Written id s s')
    (hs : ∃ v, Gate.evaluate (fileOf text path c unit).facts Gate.all s = .ok v) :
    (∃ v, Gate.evaluate (fileOf text path c' unit).facts Gate.all s' = .ok v) ∧
      ∀ grade d, findingAt (fileOf text path c' unit).facts grade s' = some d →
        findingAt (fileOf text path c unit).facts grade s = some d := by
  obtain ⟨v, hv⟩ := hs
  obtain ⟨w, hw, hdecision⟩ := ha.decision hp hv
  obtain ⟨v', hv', hsame⟩ := Gate.evaluate_of_suppresses (h.facts s') hw
  refine ⟨⟨v', hv'⟩, fun grade d hd ↦ ?_⟩
  have hspan : (fileOf text path c' unit).facts.replacementSpan s' =
      (fileOf text path c unit).facts.replacementSpan s := by
    obtain ⟨N, hN⟩ := ha
    have hid : s.statement.map id = s.statement := congrFun Option.map_id s.statement
    simp only [SourceFile.facts, fileOf, CallSite.replacementSpan, hN.statement, hN.beforeElse, hid]
  rw [findingAt, hv'] at hd
  rw [findingAt, hv]
  rw [← hd]
  exact Rule.findingOf_congr hspan (hsame (Rule.matched_of_findingOf hd) ▸ hdecision.symm)

/-- If the work on a text comes to an end, it does where more is left out, and the findings there
are among those of the text, in their order. -/
theorem checkAll_of_suppresses (hp : CompilationUnit.parse text = .ok unit)
    (hplain : ∀ n ∈ TypeName.ofUnit unit, GuardLint.Plain n) (h : c.Suppresses c') {grade : String}
    {findings : List Diagnostic}
    (hc : (checkAll (fileOf text path c unit).facts grade (sites c unit)).2 = .ok findings) :
    ∃ findings', (checkAll (fileOf text path c' unit).facts grade (sites c' unit)).2 =
      .ok findings' ∧ findings'.Sublist findings := by
  obtain ⟨hall, rfl⟩ := checkAll_eq_ok hc
  obtain ⟨left, hleft, halike, -⟩ := h.corresponds hp hplain
  have hpairs := ((List.forall₂_and_left _ _).mpr
    ⟨fun s hs ↦ hall s (hleft.subset hs), halike⟩).imp fun _ _ ⟨hs, ha⟩ ↦
      findingAt_of_suppresses path hp h ha hs
  have hends : ∀ s' ∈ sites c' unit,
      ∃ v, Gate.evaluate (fileOf text path c' unit).facts Gate.all s' = .ok v :=
    ((List.forall₂_and_left (R := fun _ _ ↦ True) _ _).mp
      (hpairs.flip.imp fun _ _ hfound ↦ ⟨hfound.1, trivial⟩)).1
  refine ⟨_, checkAll_ok hends, ?_⟩
  exact (forall₂_sublist_filterMap (hpairs.imp fun _ _ hfound ↦ hfound.2 grade)).trans
    (hleft.filterMap _)

/-- If the work on a file comes to an end, it does under settings that leave out more, and the
findings there are some of the findings, in their order and each as it was. So it is if no name of a
type that the file declares, imports by itself or mentions has a dollar sign in it, and neither has
its package. -/
theorem findings_sublist (h : c.Suppresses c')
    (hnames : ∀ unit, CompilationUnit.parse text = .ok unit →
      ∀ n ∈ TypeName.ofUnit unit, '$' ∉ n.toList)
    (hreport : (ofSource text path c severity).2 = .ok report) :
    ∃ report', (ofSource text path c' severity).2 = .ok report' ∧
      report'.findings.Sublist report.findings := by
  cases hskip' : skipReason? path c' with
  | some reason =>
    refine ⟨⟨path, text, [], none, some reason⟩, ?_, List.nil_sublist _⟩
    rw [ofSource, hskip']
  | none =>
    have hskip := h.skipReason? hskip'
    cases hparse : CompilationUnit.parse text with
    | error e =>
      refine ⟨⟨path, text, [syntaxDiagnostic path e], none, none⟩, ?_, List.nil_sublist _⟩
      rw [ofSource, hskip', hparse]
    | ok unit =>
      rw [ofSource_of_parse hskip hparse] at hreport
      cases hcheck : (checkAll (fileOf text path c unit).facts (severity.getD c.severity.text)
          (sites c unit)).2 with
      | error f =>
        rw [hcheck] at hreport
        cases hreport
      | ok findings =>
        rw [hcheck] at hreport
        cases hreport
        obtain ⟨findings', hcheck', hsublist⟩ :=
          checkAll_of_suppresses hparse (plain_of_parse hparse (hnames unit hparse)) h hcheck
        rw [ofSource_of_parse hskip' hparse, h.severity, hcheck']
        exact ⟨_, rfl, hsublist.filter _⟩

-- Generated files are left out with generated classes.
example : skipReason? (some "build/generated/A.java") .default = some .generated ∧
    skipReason? (some "build/generated/A.java") { Config.default with skipGenerated := false } =
      none := by
  decide +kernel

/-- Where the findings in a text begin, if it gets a report. -/
private def starts? (text : List Char) (c : Config) : Option (List (Option Int)) :=
  match (ofSource text none c none).2 with
  | .ok report => some (report.findings.map (·.span.start))
  | .error _ => none

private theorem exists_report_of_starts {ns : List (Option Int)} (h : starts? text c = some ns) :
    ∃ report, (ofSource text none c none).2 = .ok report ∧
      report.findings.map (·.span.start) = ns := by
  unfold starts? at h
  split at h
  · next report hreport => exact ⟨report, hreport, Option.some.inj h⟩
  · cases h

/-- Settings by which generated classes are looked at. -/
private def thorough : Config := { Config.default with skipGenerated := false }

private theorem thorough_suppresses : thorough.Suppresses .default :=
  ⟨rfl, rfl, List.Subset.refl _, List.Subset.refl _, List.Subset.refl _, fun _ ↦ rfl, id⟩

/-- A text with a guard in a generated class and one in another class. -/
private def generatedText : List Char :=
  ("@Generated class A\x7b\x7bjava.util.Objects.requireNonNull(this,\"\"+this);\x7d\x7d" ++
    "class B\x7b\x7bjava.util.Objects.requireNonNull(this,\"\"+this);\x7d\x7d").toList

private theorem generatedText_starts :
    (match CompilationUnit.parse generatedText with
      | .ok unit => TypeName.ofUnit unit
      | .error _ => []) = ["A", "B"] ∧
    starts? generatedText thorough = some [some 20, some 78] ∧
    starts? generatedText .default = some [some 78] := by
  have htext : generatedText = _ := Text.toList_ofList_append _ _
  rw [starts?, starts?, ofSource, ofSource, htext, CompilationUnit.parse_eq_parseNumbered]
  decide +kernel

/-- If generated classes are left out, the finding outside of them is left. -/
theorem findings_sublist_generated :
    thorough.Suppresses .default ∧ ∃ report report',
      (ofSource generatedText none thorough none).2 = .ok report ∧
      (ofSource generatedText none .default none).2 = .ok report' ∧
      report.findings.length = 2 ∧ report'.findings.length = 1 ∧
      report'.findings.Sublist report.findings := by
  obtain ⟨hnames, hstarts, hstarts'⟩ := generatedText_starts
  obtain ⟨report, hreport, hfound⟩ := exists_report_of_starts hstarts
  obtain ⟨report', hreport', hfound'⟩ := exists_report_of_starts hstarts'
  have hplain : ∀ unit, CompilationUnit.parse generatedText = .ok unit →
      ∀ n ∈ TypeName.ofUnit unit, '$' ∉ n.toList := by
    intro unit hparse
    rw [hparse] at hnames
    rw [show TypeName.ofUnit unit = ["A", "B"] from hnames]
    decide
  obtain ⟨_, heq, hsublist⟩ := findings_sublist thorough_suppresses hplain hreport
  cases hreport'.symm.trans heq
  refine ⟨thorough_suppresses, report, report', hreport, hreport', ?_, ?_, hsublist⟩
  · simpa using congrArg List.length hfound
  · simpa using congrArg List.length hfound'

/-- A text in which a type is mentioned by the number of a class without a name of its own. -/
private def numberedText : List Char :=
  ("@Generated enum G\x7bX\x7b\x7d\x7denum E\x7bY\x7bvoid f(boolean c,E$1 x)" ++
    "\x7bjava.util.Objects.requireNonNull(c,\"\"+(c?this:x));\x7d\x7d\x7d").toList

private theorem numberedText_starts :
    (match CompilationUnit.parse numberedText with
      | .ok unit => (UnitIndex.ofUnit unit).classes.map (·.inner.decl.name)
      | .error _ => []) = ["G", "E"] ∧
    starts? numberedText thorough = some [] ∧ starts? numberedText .default = some [some 55] := by
  have htext : numberedText = _ := Text.toList_ofList_append _ _
  rw [starts?, starts?, ofSource, ofSource, htext, CompilationUnit.parse_eq_parseNumbered]
  decide +kernel

/-- Names of declared classes without dollar signs are not enough: where a class is left out, another
one may get its number, and with it the name of a type that is mentioned. -/
theorem not_findings_sublist_numbered : thorough.Suppresses .default ∧
    (∀ unit, CompilationUnit.parse numberedText = .ok unit →
      ∀ k ∈ (UnitIndex.ofUnit unit).classes, '$' ∉ k.inner.decl.name.toList) ∧
    ∃ report report', (ofSource numberedText none thorough none).2 = .ok report ∧
      (ofSource numberedText none .default none).2 = .ok report' ∧
      ¬ report'.findings.Sublist report.findings := by
  obtain ⟨hnames, hstarts, hstarts'⟩ := numberedText_starts
  obtain ⟨report, hreport, hfound⟩ := exists_report_of_starts hstarts
  obtain ⟨report', hreport', hfound'⟩ := exists_report_of_starts hstarts'
  refine ⟨thorough_suppresses, fun unit hparse k hk ↦ ?_, report, report', hreport, hreport',
    fun hsublist ↦ ?_⟩
  · rw [hparse] at hnames
    have hname : k.inner.decl.name ∈ ["G", "E"] := hnames ▸ List.mem_map_of_mem hk
    have hall : ∀ n ∈ ["G", "E"], '$' ∉ n.toList := by decide
    exact hall _ hname
  · have hstarts := hsublist.map (·.span.start)
    rw [hfound, hfound'] at hstarts
    exact absurd hstarts (by decide)

end Report

end GuardLint
