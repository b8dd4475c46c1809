import GuardLint.Proofs.Check.Decision
import GuardLint.Proofs.Syntax.Numbers
import GuardLint.Run.Report

/-!
# What a report says

The report on a text is made of the findings about its calls, in order, unless the check of a call
comes to a fault. It never does, except where the type of a variable depends on itself.
-/

namespace GuardLint

open Syntax Failure

namespace Report

/-- The calls of a source file that are checked: classes that carry the annotation of generated
code are passed over if the settings say so. -/
def sites (config : Config) (unit : CompilationUnit) : List CallSite :=
  CallSite.ofUnit unit (if config.skipGenerated then generatedAnnotations else [])

/-- A source file as it is checked. -/
def fileOf (text : List Char) (path : Option String) (config : Config) (unit : CompilationUnit) :
    SourceFile :=
  ⟨text, path, .ofUnit unit, config.testGlobs, config.testOnly⟩

/-- The report with some findings. -/
def ofFindings (text : List Char) (path : Option String) (findings : List Diagnostic) : Report :=
  let fixes := findings.filterMap Diagnostic.fix
  ⟨path, text, findings, if fixes.isEmpty then none else some (Fix.applyAll text fixes), none⟩

section

variable {Site Arg : Type} {facts : Facts Site Arg} {severity : String} {sites : List Site}

/-- The finding about a call, if its check comes to an end and finds something. -/
def findingAt (facts : Facts Site Arg) (severity : String) (site : Site) : Option Diagnostic :=
  match Gate.evaluate facts Gate.all site with
  | .ok v => Rule.findingOf facts severity site v
  | .error _ => none

/-- If the check of every call comes to an end, the findings are those of the calls, in order. -/
theorem checkAll_ok (h : ∀ s ∈ sites, ∃ v, Gate.evaluate facts Gate.all s = .ok v) :
    (checkAll facts severity sites).2 = .ok (sites.filterMap (findingAt facts severity)) := by
  induction sites with
  | nil => rfl
  | cons s sites ih =>
    obtain ⟨⟨v, hv⟩, hrest⟩ := List.forall_mem_cons.mp h
    have hfound : findingAt facts severity s = Rule.findingOf facts severity s v := by
      rw [findingAt, hv]
    rw [checkAll, hv, List.filterMap_cons, hfound]
    simp only [ih hrest, Except.map]
    cases Rule.findingOf facts severity s v <;> rfl

/-- If the work ends in a fault, so does the check of some call. -/
theorem checkAll_error {f : Fault} (h : (checkAll facts severity sites).2 = .error f) :
    ∃ s ∈ sites, Gate.evaluate facts Gate.all s = .error f := by
  induction sites with
  | nil => cases h
  | cons s sites ih =>
    rw [checkAll] at h
    cases hs : Gate.evaluate facts Gate.all s with
    | error f' =>
      rw [hs] at h
      cases h
      exact ⟨s, List.mem_cons_self, hs⟩
    | ok v =>
      rw [hs] at h
      cases hrest : (checkAll facts severity sites).2 with
      | ok ds =>
        simp only [hrest] at h
        cases h
      | error f' =>
        simp only [hrest] at h
        cases h
        obtain ⟨s', hs', hf⟩ := ih hrest
        exact ⟨s', List.mem_cons_of_mem s hs', hf⟩

end

variable {text : List Char} {path : Option String} {config : Config} {severity : Option String}
  {unit : CompilationUnit}

/-- The report on a text that parses is made of the findings about its calls. -/
theorem ofUnit_snd (severity : String) :
    (ofUnit text path config severity unit).2 =
      (checkAll (fileOf text path config unit).facts severity (sites config unit)).2.map
        (ofFindings text path) := by
  unfold ofUnit
  dsimp only
  split <;> next h => simp only [fileOf, sites, CallSite.ofUnit, h, Except.map, ofFindings]

theorem ofSource_of_parse (hskip : skipReason? path config = none)
    (hparse : CompilationUnit.parse text = .ok unit) :
    (ofSource text path config severity).2 =
      (checkAll (fileOf text path config unit).facts (severity.getD config.severity.text)
        (sites config unit)).2.map (ofFindings text path) := by
  rw [ofSource, hskip, hparse]
  exact ofUnit_snd _

/-- The check of a call ends in a fault only if the type of a variable depends on itself. -/
theorem evaluate_eq_error {site : CallSite} {f : Fault}
    (h : Gate.evaluate (fileOf text path config unit).facts Gate.all site = .error f) :
    (site.setting (.ofUnit unit)).Looping f :=
  Gate.evaluate_eq_error h (Setting.within_resolveCall _) Setting.within_staticType
    Setting.within_isConstant (within_ok _) (fun _ ↦ within_ok _) (within_ok _)

/-- The work on a text ends in a fault only if the text parses and the type of some variable
depends on itself. -/
theorem ofSource_eq_error {f : Fault} (h : (ofSource text path config severity).2 = .error f) :
    ∃ unit, CompilationUnit.parse text = .ok unit ∧
      ∃ site ∈ sites config unit, (site.setting (.ofUnit unit)).Looping f := by
  cases hskip : skipReason? path config with
  | some reason =>
    rw [ofSource, hskip] at h
    cases h
  | none =>
    cases hparse : CompilationUnit.parse text with
    | error e =>
      rw [ofSource, hskip, hparse] at h
      cases h
    | ok unit =>
      rw [ofSource_of_parse hskip hparse] at h
      cases hcheck : (checkAll (fileOf text path config unit).facts
          (severity.getD config.severity.text) (sites config unit)).2 with
      | ok ds =>
        rw [hcheck] at h
        cases h
      | error f' =>
        rw [hcheck] at h
        cases h
        obtain ⟨site, hsite, hf⟩ := checkAll_error hcheck
        exact ⟨unit, rfl, site, hsite, evaluate_eq_error hf⟩

/-- If no type of a variable depends on itself, every text gets a report, every call of a text that
parses gets a verdict, and a call is matched only if it can be bound and every gate lets it through;
so what cannot be resolved is no match. -/
theorem ofSource_total (text : List Char) (path : Option String) (config : Config)
    (severity : Option String)
    (hinfer : ∀ unit, CompilationUnit.parse text = .ok unit → ∀ site ∈ sites config unit,
      ∀ v, ¬ (site.setting (.ofUnit unit)).DependsOn v v) :
    (∃ report, (ofSource text path config severity).2 = .ok report) ∧
      ∀ unit, CompilationUnit.parse text = .ok unit → ∀ site ∈ sites config unit,
        ∃ verdict, Gate.evaluate (fileOf text path config unit).facts Gate.all site =
            .ok verdict ∧
          (verdict.decision.matched = true →
            ∃ call, (fileOf text path config unit).facts.resolveCall site = .ok call ∧
              ∀ g ∈ Gate.all,
                g.passes (fileOf text path config unit).facts (.ofCall site call) = .ok true) := by
  constructor
  · cases h : (ofSource text path config severity).2 with
    | ok report => exact ⟨report, rfl⟩
    | error f =>
      obtain ⟨unit, hparse, site, hsite, -, v, hv⟩ := ofSource_eq_error h
      exact absurd hv (hinfer unit hparse site hsite v)
  · intro unit hparse site hsite
    cases h : Gate.evaluate (fileOf text path config unit).facts Gate.all site with
    | error f =>
      obtain ⟨-, v, hv⟩ := evaluate_eq_error h
      exact absurd hv (hinfer unit hparse site hsite v)
    | ok verdict =>
      refine ⟨verdict, rfl, fun hmatched ↦ ?_⟩
      cases verdict with
      | matched =>
        obtain ⟨shape, call, condition, message, hg, -⟩ := Gate.evaluate_eq_matched.mp h
        exact ⟨call, hg.bound, Gate.passes_of_guarded hg⟩
      | unknownMethod => cases hmatched
      | unboundCall => cases hmatched
      | rejected => cases hmatched

-- A text that breaks off gets its report as well.
example : (ofSource "class".toList none .default none).2.isOk = true := by decide +kernel

/-- A text with a message whose type is inferred from that of another variable. -/
private def inferredText : List Char :=
  "class A\x7b\x7bvar x=1;var m=\"m\"+x;java.util.Objects.requireNonNull(x,m);\x7d\x7d".toList

private theorem inferredText_infers :
    (match CompilationUnit.parse inferredText with
      | .ok unit => (sites .default unit).all fun site ↦
          let c := site.setting (.ofUnit unit)
          c.nameable.all fun v ↦ (c.inferredFrom v).all fun w ↦ (c.inferredFrom w).isEmpty
      | .error _ => false) = true := by
  have htext : inferredText = _ := String.toList_ofList
  rw [htext, CompilationUnit.parse_eq_parseNumbered]
  decide +kernel

/-- A message declared with `var` has a type if its initializer does. -/
theorem ofSource_inferredText :
    ∃ report, (ofSource inferredText none .default none).2 = .ok report := by
  refine (ofSource_total inferredText none .default none fun unit hparse site hsite ↦ ?_).1
  have h := inferredText_infers
  simp only [hparse, List.all_eq_true, List.isEmpty_iff] at h
  exact Setting.not_dependsOn_self (h site hsite)

/-- A text with a message whose type is inferred from itself. -/
private def selfTypedText : List Char :=
  "class A\x7b\x7bvar x=x;java.util.Objects.requireNonNull(x,x);\x7d\x7d".toList

/-- A text that parses gets no report if the type of a message depends on itself. -/
theorem ofSource_selfTypedText : (ofSource selfTypedText none .default none).2.isOk = false ∧
    (CompilationUnit.parse selfTypedText).isOk = true := by
  have htext : selfTypedText = _ := String.toList_ofList
  rw [ofSource, htext, CompilationUnit.parse_eq_parseNumbered]
  decide +kernel

end Report

end GuardLint
