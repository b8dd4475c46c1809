import GuardLint.Proofs.Files.Writing
import GuardLint.Proofs.Run.Innermost
import GuardLint.Run.Session

/-!
# What runs come to

A run that does not get to its files writes none. One that does comes to a status unless the work on
some file breaks off, and the status tells whether a file could not be analysed and whether findings
stay. The files written are those in which something is found, each with its fixed text.
-/

namespace GuardLint

open Syntax

/-! ### The report on a file -/

namespace Report

variable {text : List Char} {path : Option String} {config : Config} {severity : Option String}
  {report : Report}

private theorem exists_ofFindings {unit : CompilationUnit} (hskip : skipReason? path config = none)
    (hparse : CompilationUnit.parse text = .ok unit)
    (h : (ofSource text path config severity).2 = .ok report) :
    ∃ found, report = ofFindings text path found := by
  rw [ofSource_of_parse hskip hparse] at h
  cases hcheck : (checkAll (fileOf text path config unit).facts
      (severity.getD config.severity.text) (sites config unit)).2 with
  | error f => rw [hcheck] at h; cases h
  | ok found =>
    rw [hcheck] at h
    cases h
    exact ⟨found, rfl⟩

/-- A report on a text is one of three: the text is skipped, it does not parse, or there are no
errors and it is changed exactly if something is found. -/
theorem cases_ofSource (h : (ofSource text path config severity).2 = .ok report) :
    (∃ reason, skipReason? path config = some reason ∧
      report = ⟨path, text, [], none, some reason⟩) ∨
    (∃ e, skipReason? path config = none ∧ CompilationUnit.parse text = .error e ∧
      report = ⟨path, text, [syntaxDiagnostic path e], none, none⟩) ∨
    ∃ unit, skipReason? path config = none ∧ CompilationUnit.parse text = .ok unit ∧
      report.errors = [] ∧ report.source = text ∧
      (report.findings = [] ∧ report.fixedText = none ∨
        report.findings ≠ [] ∧ ∃ fixed, report.fixedText = some fixed ∧ fixed ≠ text) := by
  cases hskip : skipReason? path config with
  | some reason =>
    rw [ofSource, hskip] at h
    cases h
    exact .inl ⟨reason, rfl, rfl⟩
  | none =>
    cases hparse : CompilationUnit.parse text with
    | error e =>
      rw [ofSource, hskip] at h
      simp only [hparse] at h
      cases h
      exact .inr (.inl ⟨e, rfl, rfl, rfl⟩)
    | ok unit =>
      have hfindings := findings_eq hparse h
      have herrors : report.errors = [] := by
        refine List.filter_eq_nil_iff.mpr fun d hd ↦ ?_
        obtain ⟨_, _, hp⟩ := exists_proposes hparse h hd
        simp [hp.phase]
      have hchanged := fixedText_ne hparse h
      obtain ⟨found, rfl⟩ := exists_ofFindings hskip hparse h
      refine .inr (.inr ⟨unit, rfl, rfl, herrors, rfl, ?_⟩)
      by_cases hne : found = []
      · subst hne
        exact .inl ⟨rfl, rfl⟩
      · exact .inr ⟨hfindings ▸ hne, (hchanged hne).2⟩

end Report

/-! ### The files of a run -/

namespace Workspace

variable (w : Workspace) (config : Config) (p : Path)

/-- The analysis of a file tells of an error that is no finding: it is not read, or its report has
one. -/
def Fails : Prop :=
  (∃ problem, (Survey.look w config p).2 = .ok (.error problem)) ∨
    ∃ report, (Survey.look w config p).2 = .ok (.ok report) ∧ report.errors ≠ []

/-- The analysis of a file finds something. -/
structure Finds (report : Report) : Prop where
  looked : (Survey.look w config p).2 = .ok (.ok report)
  found : report.findings ≠ []

variable {w config p} {report : Report}

/-- The report on a file is the report on its text. -/
theorem exists_source (h : (Survey.look w config p).2 = .ok (.ok report)) :
    ∃ text, w.source p = .ok text ∧
      (Report.ofSource text (some p.text) config none).2 = .ok report := by
  rw [Survey.look] at h
  cases hs : w.source p with
  | error problem => rw [hs] at h; cases h
  | ok text =>
    rw [hs] at h
    dsimp only at h
    cases hr : (Report.ofSource text (some p.text) config none).2 with
    | error f => rw [hr] at h; cases h
    | ok r =>
      rw [hr] at h
      cases h
      exact ⟨text, rfl, hr⟩

/-- The work on a file breaks off only if the file parses and the type of some variable depends on
itself. -/
theorem exists_looping {fault : Fault} (h : (Survey.look w config p).2 = .error fault) :
    ∃ text unit, w.source p = .ok text ∧ CompilationUnit.parse text = .ok unit ∧
      ∃ site ∈ Report.sites config unit, (site.setting (.ofUnit unit)).Looping fault := by
  rw [Survey.look] at h
  cases hs : w.source p with
  | error problem => rw [hs] at h; cases h
  | ok text =>
    rw [hs] at h
    dsimp only at h
    cases hr : (Report.ofSource text (some p.text) config none).2 with
    | ok r => rw [hr] at h; cases h
    | error f =>
      rw [hr] at h
      cases h
      obtain ⟨unit, hp, hloop⟩ := Report.ofSource_eq_error hr
      exact ⟨text, unit, rfl, hp, hloop⟩

/-- What has a text is a file. -/
theorem exists_bytes {text : List Char} (h : w.source p = .ok text) :
    ∃ bytes, w.entry? p = some (.file bytes) ∧ readText bytes = .ok text := by
  unfold source at h
  split at h
  · next bytes he =>
    split at h
    · next text' hr =>
      cases h
      exact ⟨bytes, he, hr⟩
    · cases h
  · cases h
  · cases h

/-- A file in which something is found is read, it is not skipped, it parses, and its fixed text is
another than its text. -/
theorem Finds.exists_fixed (h : w.Finds config p report) : ∃ text unit fixed,
    w.source p = .ok text ∧ Report.skipReason? (some p.text) config = none ∧
      CompilationUnit.parse text = .ok unit ∧ report.source = text ∧
      report.fixedText = some fixed ∧ fixed ≠ text := by
  obtain ⟨text, hs, hr⟩ := exists_source h.looked
  rcases Report.cases_ofSource hr with ⟨reason, -, rfl⟩ | ⟨e, -, -, rfl⟩ | ⟨unit, hskip, hp, -, ht, hc⟩
  · exact absurd rfl h.found
  · exact absurd rfl h.found
  · rcases hc with ⟨hnone, -⟩ | ⟨-, fixed, hfixed, hne⟩
    · exact absurd hnone h.found
    · exact ⟨text, unit, fixed, hs, hskip, hp, ht, hfixed, hne⟩

/-- A report changes its file exactly if something is found. -/
theorem changed_iff (h : (Survey.look w config p).2 = .ok (.ok report)) :
    report.changed = true ↔ report.findings ≠ [] := by
  obtain ⟨text, -, hr⟩ := exists_source h
  rcases Report.cases_ofSource hr with ⟨reason, -, rfl⟩ | ⟨e, -, -, rfl⟩ | ⟨unit, -, -, -, ht, hc⟩
  · exact ⟨nofun, fun h ↦ absurd rfl h⟩
  · exact ⟨nofun, fun h ↦ absurd rfl h⟩
  · rw [Report.changed]
    rcases hc with ⟨hnone, hfixed⟩ | ⟨hne, fixed, hfixed, hother⟩
    · simp [hfixed, hnone]
    · simp [hfixed, hne, ht, hother]

/-- The analysis of a file tells of an error exactly if the file is not read, or it is not skipped
and does not parse. -/
theorem fails_iff : w.Fails config p ↔
    (∃ problem, w.source p = .error problem) ∨ ∃ text e, w.source p = .ok text ∧
      Report.skipReason? (some p.text) config = none ∧ CompilationUnit.parse text = .error e := by
  constructor
  · rintro (⟨problem, h⟩ | ⟨report, h, herrors⟩)
    · rw [Survey.look] at h
      cases hs : w.source p with
      | error problem' => exact .inl ⟨problem', rfl⟩
      | ok text =>
        rw [hs] at h
        dsimp only at h
        cases hr : (Report.ofSource text (some p.text) config none).2 with
        | error f => rw [hr] at h; cases h
        | ok r => rw [hr] at h; cases h
    · obtain ⟨text, hs, hr⟩ := exists_source h
      rcases Report.cases_ofSource hr with ⟨reason, -, rfl⟩ | ⟨e, hskip, hp, -⟩ | ⟨_, -, -, hnone, -⟩
      · exact absurd rfl herrors
      · exact .inr ⟨text, e, hs, hskip, hp⟩
      · exact absurd hnone herrors
  · rintro (⟨problem, hs⟩ | ⟨text, e, hs, hskip, hp⟩)
    · exact .inl ⟨problem, by rw [Survey.look, hs]⟩
    · refine .inr ⟨⟨some p.text, text, [Report.syntaxDiagnostic (some p.text) e], none, none⟩, ?_, ?_⟩
      · rw [Survey.look, hs]
        simp only [Report.ofSource, hskip, hp]
        rfl
      · exact List.cons_ne_nil _ _

end Workspace

namespace Survey

variable {w : Workspace} {config : Config} {files : List Path} {s : Survey}

private theorem ofFiles_cons (p : Path) : (ofFiles w config (p :: files)).2 =
    match (look w config p).2 with
    | .error fault => .error fault
    | .ok result => (ofFiles w config files).2.map (cons p result) := by
  rw [ofFiles]
  rcases look w config p with ⟨log, fault | result⟩ <;> rfl

/-- The work on some files breaks off only on one of them. -/
theorem ofFiles_eq_error {fault : Fault} (h : (ofFiles w config files).2 = .error fault) :
    ∃ p ∈ files, (look w config p).2 = .error fault := by
  induction files with
  | nil => cases h
  | cons p files ih =>
    rw [ofFiles_cons] at h
    cases hp : (look w config p).2 with
    | error f =>
      rw [hp] at h
      cases h
      exact ⟨p, List.mem_cons_self, hp⟩
    | ok result =>
      rw [hp] at h
      cases hrest : (ofFiles w config files).2 with
      | ok s => rw [hrest] at h; cases h
      | error f =>
        rw [hrest] at h
        cases h
        obtain ⟨q, hq, hf⟩ := ih hrest
        exact ⟨q, List.mem_cons_of_mem p hq, hf⟩

/-- A survey of some files has what was found in each. -/
theorem ofFiles_eq_ok (h : (ofFiles w config files).2 = .ok s) :
    (∀ p ∈ files, ∃ result, (look w config p).2 = .ok result) ∧
    (s.unreadable ≠ [] ↔ ∃ p ∈ files, ∃ problem, (look w config p).2 = .ok (.error problem)) ∧
    ∀ p report, (p, report) ∈ s.reports ↔ p ∈ files ∧ (look w config p).2 = .ok (.ok report) := by
  induction files generalizing s with
  | nil =>
    cases h
    simp [empty]
  | cons p files ih =>
    rw [ofFiles_cons] at h
    cases hp : (look w config p).2 with
    | error f => rw [hp] at h; cases h
    | ok result =>
      rw [hp] at h
      cases hrest : (ofFiles w config files).2 with
      | error f => rw [hrest] at h; cases h
      | ok s' =>
        rw [hrest] at h
        cases h
        obtain ⟨hall, hunreadable, hreports⟩ := ih hrest
        refine ⟨List.forall_mem_cons.mpr ⟨⟨result, hp⟩, hall⟩, ?_, fun q report ↦ ?_⟩
        · cases result with
          | error problem => simp [cons, hp]
          | ok report => simpa [cons, hp] using hunreadable
        · cases result with
          | error problem =>
            simp only [cons, hreports, List.mem_cons]
            refine ⟨fun ⟨hq, hr⟩ ↦ ⟨.inr hq, hr⟩, ?_⟩
            rintro ⟨rfl | hq, hr⟩
            · rw [hp] at hr; cases hr
            · exact ⟨hq, hr⟩
          | ok report' =>
            simp only [cons, List.mem_cons, Prod.mk.injEq, hreports]
            constructor
            · rintro (⟨rfl, rfl⟩ | ⟨hq, hr⟩)
              · exact ⟨.inl rfl, hp⟩
              · exact ⟨.inr hq, hr⟩
            · rintro ⟨rfl | hq, hr⟩
              · rw [hp] at hr
                cases hr
                exact .inl ⟨rfl, rfl⟩
              · exact .inr ⟨hq, hr⟩

/-- A survey has errors that are no findings exactly if the analysis of some file tells of one. -/
theorem hasErrors_iff (h : (ofFiles w config files).2 = .ok s) :
    s.hasErrors = true ↔ ∃ p ∈ files, w.Fails config p := by
  obtain ⟨-, hunreadable, hreports⟩ := ofFiles_eq_ok h
  have hsplit : s.hasErrors = true ↔
      s.unreadable ≠ [] ∨ ∃ r ∈ s.reports, r.2.errors ≠ [] := by
    simp only [hasErrors, diagnostics, Report.errors, List.any_append, Bool.or_eq_true,
      List.any_map, List.any_flatMap, List.any_eq_true, ne_eq, List.filter_eq_nil_iff, not_forall,
      not_not, exists_prop]
    refine or_congr_left ⟨fun ⟨p, hp, _⟩ ↦ List.ne_nil_of_mem hp, fun hne ↦ ?_⟩
    obtain ⟨p, hp⟩ := List.exists_mem_of_ne_nil _ hne
    exact ⟨p, hp, rfl⟩
  rw [hsplit, hunreadable]
  constructor
  · rintro (⟨p, hp, problem, h⟩ | ⟨⟨p, report⟩, hr, hne⟩)
    · exact ⟨p, hp, .inl ⟨problem, h⟩⟩
    · exact ⟨p, ((hreports p report).mp hr).1, .inr ⟨report, ((hreports p report).mp hr).2, hne⟩⟩
  · rintro ⟨p, hp, ⟨problem, h⟩ | ⟨report, h, hne⟩⟩
    · exact .inl ⟨p, hp, problem, h⟩
    · exact .inr ⟨(p, report), (hreports p report).mpr ⟨hp, h⟩, hne⟩

/-- A survey has findings exactly if something is found in some file. -/
theorem hasFindings_iff (h : (ofFiles w config files).2 = .ok s) :
    s.hasFindings = true ↔ ∃ p ∈ files, ∃ report, w.Finds config p report := by
  obtain ⟨-, -, hreports⟩ := ofFiles_eq_ok h
  simp only [hasFindings, List.any_eq_true, Bool.not_eq_true', List.isEmpty_eq_false_iff]
  constructor
  · rintro ⟨⟨p, report⟩, hr, hne⟩
    obtain ⟨hp, hlooked⟩ := (hreports p report).mp hr
    exact ⟨p, hp, report, hlooked, hne⟩
  · rintro ⟨p, hp, report, hf⟩
    exact ⟨(p, report), (hreports p report).mpr ⟨hp, hf.looked⟩, hf.found⟩

private theorem status_iff (s : Survey) (applied : Bool) :
    (s.status applied = 2 ↔ s.hasErrors = true) ∧
    (s.status applied = 1 ↔ ¬ s.hasErrors = true ∧ applied = false ∧ s.hasFindings = true) ∧
    (s.status applied = 0 ↔ ¬ s.hasErrors = true ∧ (applied = true ∨ ¬ s.hasFindings = true)) := by
  unfold status
  cases s.hasErrors <;> cases applied <;> cases s.hasFindings <;> decide

/-- The status of a survey, by what became of its files. -/
theorem status_spec (h : (ofFiles w config files).2 = .ok s) (applied : Bool) :
    (s.status applied = 2 ↔ ∃ p ∈ files, w.Fails config p) ∧
    (s.status applied = 1 ↔ (∀ p ∈ files, ¬ w.Fails config p) ∧ applied = false ∧
      ∃ p ∈ files, ∃ report, w.Finds config p report) ∧
    (s.status applied = 0 ↔ (∀ p ∈ files, ¬ w.Fails config p) ∧
      (applied = true ∨ ∀ p ∈ files, ∀ report, ¬ w.Finds config p report)) := by
  have hspec := status_iff s applied
  rw [hasErrors_iff h, hasFindings_iff h] at hspec
  simpa only [not_exists, not_and] using hspec

/-- The reports that change their file are those on the files in which something is found. -/
theorem mem_changed_iff (h : (ofFiles w config files).2 = .ok s) {p : Path} {report : Report} :
    (p, report) ∈ s.changed ↔ p ∈ files ∧ w.Finds config p report := by
  obtain ⟨-, -, hreports⟩ := ofFiles_eq_ok h
  rw [changed, List.mem_filter, hreports]
  constructor
  · rintro ⟨⟨hp, hr⟩, hc⟩
    exact ⟨hp, hr, (Workspace.changed_iff hr).mp hc⟩
  · rintro ⟨hp, hf⟩
    exact ⟨⟨hp, hf.looked⟩, (Workspace.changed_iff hf.looked).mpr hf.found⟩

end Survey

/-! ### The whole run -/

/-- The status of a run that does not get to its files: there is none if it breaks off. -/
def SetupFailure.status : SetupFailure → Except Abort Nat
  | .problem _ => .ok 2
  | .abort a => .error a

/-- What a run that has looked at all its files comes to. -/
structure Outcome.Completed (w : Workspace) (o : Command.Options) (config : Config)
    (files : List Path) (r : Outcome) : Prop where
  status_two : r.status = .ok 2 ↔ ∃ p ∈ files, w.Fails config p
  status_one : r.status = .ok 1 ↔ (∀ p ∈ files, ¬ w.Fails config p) ∧ o.apply = false ∧
    ∃ p ∈ files, ∃ report, w.Finds config p report
  status_zero : r.status = .ok 0 ↔ (∀ p ∈ files, ¬ w.Fails config p) ∧
    (o.apply = true ∨ ∀ p ∈ files, ∀ report, ¬ w.Finds config p report)
  written : ∀ p bytes, (p, bytes) ∈ r.written ↔ o.apply = true ∧ p ∈ files ∧
    ∃ report fixed, w.Finds config p report ∧ report.fixedText = some fixed ∧
      bytes = Text.Utf8.encode fixed
  sound : ∀ f ∈ r.written, ∃ text unit, w.source f.1 = .ok text ∧
    Report.skipReason? (some f.1.text) config = none ∧ CompilationUnit.parse text = .ok unit
  layout : w.SameLayout (r.after w)
  bytes : ∀ names, (r.after w).root.bytesAt? names =
    match r.written.reverse.find? fun f ↦ decide (w.place? f.1 = some names) with
    | some f => some f.2
    | none => w.root.bytesAt? names

namespace Outcome

variable {w : Workspace} {o : Command.Options} {config : Config} {files : List Path}

private theorem ofSurvey_status (log : List LogLine) (s : Survey) :
    (ofSurvey o log s).status = .ok (s.status o.apply) := by
  unfold ofSurvey
  dsimp only
  split <;> rfl

theorem ofSurvey_written (log : List LogLine) (s : Survey) :
    (ofSurvey o log s).written = writes o s := by
  unfold ofSurvey
  dsimp only
  split <;> rfl

theorem mem_writes_iff {s : Survey} (h : (Survey.ofFiles w config files).2 = .ok s) {p : Path}
    {bytes : List UInt8} : (p, bytes) ∈ writes o s ↔ o.apply = true ∧ p ∈ files ∧
      ∃ report fixed, w.Finds config p report ∧ report.fixedText = some fixed ∧
        bytes = Text.Utf8.encode fixed := by
  unfold writes
  split
  · next ha =>
    simp only [List.mem_map, Prod.mk.injEq, ha, true_and, Prod.exists, Survey.mem_changed_iff h]
    constructor
    · rintro ⟨q, report, ⟨hq, hf⟩, rfl, rfl⟩
      obtain ⟨_, _, fixed, -, -, -, -, hfixed, -⟩ := hf.exists_fixed
      exact ⟨hq, report, fixed, hf, hfixed, by rw [hfixed]; rfl⟩
    · rintro ⟨hp, report, fixed, hf, hfixed, rfl⟩
      exact ⟨p, report, ⟨hp, hf⟩, rfl, by rw [hfixed]; rfl⟩
  · next ha => simp [ha]

/-- A run that has looked at all its files. -/
theorem completed_ofSurvey {s : Survey} (h : (Survey.ofFiles w config files).2 = .ok s)
    (log : List LogLine) : Completed w o config files (ofSurvey o log s) := by
  have hsound : ∀ f ∈ (ofSurvey o log s).written, ∃ text unit, w.source f.1 = .ok text ∧
      Report.skipReason? (some f.1.text) config = none ∧
        CompilationUnit.parse text = .ok unit := by
    rintro ⟨p, bytes⟩ hf
    rw [ofSurvey_written, mem_writes_iff h] at hf
    obtain ⟨-, -, report, fixed, hfinds, -⟩ := hf
    obtain ⟨text, unit, -, hs, hskip, hp, -⟩ := hfinds.exists_fixed
    exact ⟨text, unit, hs, hskip, hp⟩
  have hold : ∀ f ∈ (ofSurvey o log s).written, ∃ old, w.entry? f.1 = some (.file old) := by
    intro f hf
    obtain ⟨text, -, hs, -⟩ := hsound f hf
    obtain ⟨bytes, he, -⟩ := Workspace.exists_bytes hs
    exact ⟨bytes, he⟩
  have hfiles := w.foldl_write hold
  obtain ⟨htwo, hone, hzero⟩ := Survey.status_spec h o.apply
  refine ⟨?_, ?_, ?_, fun p bytes ↦ ?_, hsound, hfiles.1, hfiles.2⟩
  · rw [ofSurvey_status, Except.ok.injEq, htwo]
  · rw [ofSurvey_status, Except.ok.injEq, hone]
  · rw [ofSurvey_status, Except.ok.injEq, hzero]
  · rw [ofSurvey_written, mem_writes_iff h]

/-- The work on the files breaks off on one, or all are looked at. -/
theorem ofOptions_cases (hs : setup w o = .ok (config, files)) :
    (∃ p ∈ files, ∃ fault, (Survey.look w config p).2 = .error fault ∧
      (ofOptions w o).status = .error (.fault fault) ∧ (ofOptions w o).written = []) ∨
    (∀ p ∈ files, ∃ result, (Survey.look w config p).2 = .ok result) ∧
      Completed w o config files (ofOptions w o) := by
  rw [ofOptions, hs]
  dsimp only
  cases hl : Survey.ofFiles w config files with
  | mk log result =>
    have hsnd := congrArg Prod.snd hl
    cases result with
    | error fault =>
      obtain ⟨p, hp, hf⟩ := Survey.ofFiles_eq_error hsnd
      exact .inl ⟨p, hp, fault, hf, rfl, rfl⟩
    | ok survey => exact .inr ⟨(Survey.ofFiles_eq_ok hsnd).1, completed_ofSurvey hsnd log⟩

/-- A run that does not get to its files. -/
theorem ofOptions_of_error {e : SetupFailure} (he : setup w o = .error e) :
    (ofOptions w o).written = [] ∧ (ofOptions w o).status = e.status := by
  rw [ofOptions, he]
  cases e with
  | abort a => exact ⟨rfl, rfl⟩
  | problem p =>
    simp only [ofFailure]
    split <;> exact ⟨rfl, rfl⟩

/-- A run that writes nothing leaves the files as they are. -/
theorem after_of_nil {r : Outcome} (h : r.written = []) : r.after w = w := by
  rw [after, h, List.foldl_nil]

/-- A run writes nothing, or it has looked at all its files. -/
theorem written_cases (w : Workspace) (words : List String) : (w.run words).written = [] ∨
    ∃ o config files, Completed w o config files (w.run words) := by
  cases ho : Command.Options.ofTexts words with
  | error stop =>
    rw [Workspace.run, ho]
    cases stop <;> exact .inl rfl
  | ok o =>
    rw [Workspace.run, ho]
    cases hs : setup w o with
    | error e => exact .inl (ofOptions_of_error hs).1
    | ok found =>
      rcases ofOptions_cases hs with ⟨-, -, -, -, -, hnil⟩ | ⟨-, hc⟩
      · exact .inl hnil
      · exact .inr ⟨o, found.1, found.2, hc⟩

end Outcome

/-- A run that does not get to its files writes none, and its status is two if it reports a problem
and there is none if it breaks off. A run that gets to its files either breaks off on one in which
the type of a variable depends on itself, with nothing written, or it looks at all of them and comes
to a status: two if the analysis of some file tells of an error that is no finding, one if there are
findings that are not applied, and zero otherwise. Then the files written are those in which
something is found, each with its fixed text, if fixes are to be applied, and nothing else
changes. -/
theorem Workspace.run_outcome (w : Workspace) {words : List String} {o : Command.Options}
    (ho : Command.Options.ofTexts words = .ok o) :
    (∀ e, setup w o = .error e → (w.run words).written = [] ∧
      (w.run words).status = e.status) ∧
    ∀ config files, setup w o = .ok (config, files) →
      (∃ fault, (w.run words).status = .error (.fault fault) ∧ (w.run words).written = [] ∧
        ∃ p ∈ files, ∃ text unit, w.source p = .ok text ∧ CompilationUnit.parse text = .ok unit ∧
          ∃ site ∈ Report.sites config unit, (site.setting (.ofUnit unit)).Looping fault) ∨
      (∀ p ∈ files, ∃ result, (Survey.look w config p).2 = .ok result) ∧
        Outcome.Completed w o config files (w.run words) := by
  have hrun : w.run words = Outcome.ofOptions w o := by rw [Workspace.run, ho]
  rw [hrun]
  refine ⟨fun e he ↦ Outcome.ofOptions_of_error he, fun config files hs ↦ ?_⟩
  refine (Outcome.ofOptions_cases hs).imp_left ?_
  rintro ⟨p, hp, fault, hf, hstatus, hnil⟩
  exact ⟨fault, hstatus, hnil, p, hp, exists_looping hf⟩

/-- A directory with a source file that holds a single byte, which begins no character, and with
some settings. -/
private def undecodable (settings : List (String × Entry)) : Workspace :=
  ⟨.directory (("A.java", .file [0xff]) :: settings), ⟨"/", []⟩⟩

/-- The source file of such a directory. -/
private def onlyFile : Path := ⟨"", ["A.java"]⟩

private theorem undecodable_reads : (undecodable []).source onlyFile =
      .error ⟨"input-unreadable", "cannot read A.java: 'utf-8' codec can't decode byte 0xff in " ++
        "position 0: invalid start byte", some "A.java"⟩ ∧
    ∃ o, Command.Options.ofTexts ["--apply", "A.java"] = .ok o ∧
      setup (undecodable []) o = .ok (.default, [onlyFile]) := by
  refine ⟨by decide, ⟨[onlyFile], none, true, false, false, false, false, false, none⟩, ?_⟩
  decide

/-- A run that is to apply its fixes to a file that is no text has the status two. -/
theorem Workspace.run_outcome_undecodable : ∃ o, Command.Options.ofTexts ["--apply", "A.java"] =
    .ok o ∧ setup (undecodable []) o = .ok (.default, [onlyFile]) ∧
      ((undecodable []).run ["--apply", "A.java"]).status = .ok 2 := by
  obtain ⟨hsource, o, ho, hs⟩ := undecodable_reads
  refine ⟨o, ho, hs, ?_⟩
  have hfails : (undecodable []).Fails .default onlyFile := fails_iff.mpr (.inl ⟨_, hsource⟩)
  rcases ((undecodable []).run_outcome ho).2 .default [onlyFile] hs with
    ⟨-, -, -, p, hp, text, -, htext, -⟩ | ⟨-, hcompleted⟩
  · obtain rfl := List.mem_singleton.mp hp
    rw [hsource] at htext
    cases htext
  · exact hcompleted.status_two.mpr ⟨onlyFile, List.mem_singleton_self _, hfails⟩

/-- Settings that are no text leave a run without a status. -/
theorem Workspace.run_undecodableConfig : ∃ o, Command.Options.ofTexts ["A.java"] = .ok o ∧
    ((undecodable [(Config.fileName, .file [0xff])]).run ["A.java"]).status =
      .error (.undecodableConfig ⟨0, 1, 0xff, .badStart⟩) := by
  refine ⟨⟨[⟨"", ["A.java"]⟩], none, false, false, false, false, false, false, none⟩, ?_⟩
  decide

end GuardLint
