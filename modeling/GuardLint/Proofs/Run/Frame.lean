import GuardLint.Proofs.Fix.Cut
import GuardLint.Proofs.Run.Outcome
import GuardLint.Proofs.Syntax.Numbers
import GuardLint.Text.Utf8.RoundTrip

/-!
# What a run leaves of a file

A run that writes a file takes the statements of some calls out of its text and puts others in their
places. Files are read with unified line ends and written as they are read, so around the statements
every character stays but the carriage returns: what stays is as it was exactly if it has none.
-/

namespace GuardLint

open Syntax Text

/-- How a run rewrites the file where a path leads: the statements of the calls that are fixed are
cut out of its text, and the rest is written with unified line ends. -/
structure Rewrites (config : Config) (p : Path) (old new : List UInt8) (text : List Char)
    (cuts : List Cut) (last : List Char) : Prop where
  decoded : Utf8.decode old = .ok text
  source : text = Cut.source cuts last
  statements : ∃ unit report, CompilationUnit.parse (unifyNewlines text) = .ok unit ∧
    (Report.ofSource (unifyNewlines text) (some p.text) config none).2 = .ok report ∧
    cuts.map Cut.unified = Edit.cuts (unifyNewlines text) 0 (Fix.applied report.fixes) ∧
    ∀ e ∈ Fix.applied report.fixes, ∃ site ∈ Report.sites config unit, ∃ l,
      site.statement = some l ∧ e.start = l.start ∧ e.stop = l.stop
  result : Utf8.decode new = .ok (Cut.result (cuts.map Cut.unified) (unifyNewlines last))
  kept : Utf8.decode new = .ok (Cut.result cuts last) ↔ (∀ c ∈ cuts, '\r' ∉ c.kept) ∧ '\r' ∉ last

namespace Workspace

variable {w : Workspace} {config : Config} {p : Path} {report : Report} {fixed : List Char}

/-- The fixed text of a file in which something is found rewrites the file. -/
theorem Finds.rewrites (h : w.Finds config p report) (hfixed : report.fixedText = some fixed)
    {old : List UInt8} (hold : w.entry? p = some (.file old)) :
    ∃ text cuts last, Rewrites config p old (Utf8.encode fixed) text cuts last := by
  obtain ⟨t, ht, hreport⟩ := exists_source h.looked
  obtain ⟨bytes, hbytes, hread⟩ := exists_bytes ht
  obtain rfl : old = bytes := by simpa [hold] using hbytes
  obtain ⟨t', unit, -, ht', -, hparse, -⟩ := h.exists_fixed
  obtain rfl : t = t' := Except.ok.inj (ht.symm.trans ht')
  rw [readText] at hread
  cases hd : Utf8.decode old with
  | error e => rw [hd] at hread; cases hread
  | ok text =>
    rw [hd] at hread
    obtain rfl : unifyNewlines text = t := Except.ok.inj hread
    have hfits := Report.fits_of_mem_fixes hparse hreport
    have hin : ∀ e ∈ Fix.applied report.fixes, e.Inside (unifyNewlines text).length := fun e he ↦
      Fix.inside_of_mem_filterMap hfits (Fix.mem_filterMap_of_mem_applied he)
    have happlied : fixed = Cut.result
        (Edit.cuts (unifyNewlines text) 0 (Fix.applied report.fixes))
        (Edit.last (unifyNewlines text) 0 (Fix.applied report.fixes)) := by
      rw [← Edit.weave_eq_result, ← Fix.applyAll_eq_weave hfits,
        ← (Report.ofSource_eq_ok hparse hreport).1, hfixed]
      rfl
    obtain ⟨cuts, last, hsource, hcuts, hlast⟩ := Cut.exists_of_unifyNewlines_eq_source
      (Edit.source_cuts (s := 0) hin (Fix.pairwise_applied hfits) fun e he ↦ (hin e he).nonneg).symm
    rw [← hcuts, ← hlast] at happlied
    refine ⟨text, cuts, last, hd, hsource, ⟨unit, report, hparse, hreport, hcuts, fun e he ↦ ?_⟩,
      ?_, ?_⟩
    · obtain ⟨d, -, l, hp⟩ :=
        (Report.mem_edits_iff hparse hreport).mp (Fix.mem_filterMap_of_mem_applied he)
      obtain ⟨site, hsite, -, hl⟩ := hp.found
      exact ⟨site, hsite, l, hl, hp.start, hp.stop⟩
    · rw [Utf8.decode_encode, happlied]
    · rw [Utf8.decode_encode, Except.ok.injEq, happlied, Cut.result_unified_eq_iff]

/-- After a run every file has the bytes that it had, or it is rewritten: the statements of the
calls that are fixed are replaced, and what stays around them is as it was exactly if no carriage
return stands in it. -/
theorem run_frame (w : Workspace) (words : List String) {names : List String} {old : List UInt8}
    (hold : w.root.bytesAt? names = some old) :
    ((w.run words).after w).root.bytesAt? names = some old ∨
      ∃ config p new text cuts last, w.place? p = some names ∧
        ((w.run words).after w).root.bytesAt? names = some new ∧
        Rewrites config p old new text cuts last := by
  rcases Outcome.written_cases w words with hnil | ⟨o, config, files, hc⟩
  · rw [Outcome.after_of_nil hnil]
    exact .inl hold
  · rw [hc.bytes]
    split
    · next f hf =>
      obtain ⟨p, bytes⟩ := f
      have hplace : w.place? p = some names := by simpa using List.find?_some hf
      obtain ⟨-, -, report, fixed, hfinds, hfixed, rfl⟩ :=
        (hc.written p bytes).mp (List.mem_reverse.mp (List.mem_of_find?_eq_some hf))
      have hentry : w.entry? p = some (.file old) := by
        obtain ⟨e, he, hb⟩ := Option.bind_eq_some_iff.mp hold
        cases e with
        | directory entries => cases hb
        | file bytes =>
          obtain rfl : bytes = old := Option.some.inj hb
          rw [ entry?, hplace, Option.bind_some, he]
      obtain ⟨text, cuts, last, hr⟩ := hfinds.rewrites hfixed hentry
      exact .inr ⟨config, p, _, text, cuts, last, hplace, rfl, hr⟩
    · exact .inl hold

/-- A run that is asked to apply its fixes writes the fixed text of its only file, if that is another
text. -/
theorem run_written {words : List String} {o : Command.Options} {text : List Char}
    (ho : Command.Options.ofTexts words = .ok o) (hs : setup w o = .ok (config, [p]))
    (ha : o.apply = true) (ht : w.source p = .ok text)
    (hr : (Report.ofSource text (some p.text) config none).2 = .ok report)
    (hc : report.changed = true) (hfixed : report.fixedText = some fixed) :
    (w.run words).written = [(p, Utf8.encode fixed)] := by
  have hlook : Survey.look w config p = ((Report.ofSource text (some p.text) config none).1,
      .ok (.ok report)) := by
    rw [Survey.look, ht]
    simp only [hr, Except.map]
  rw [run, ho]
  simp only [Outcome.ofOptions, hs, Survey.ofFiles, hlook, Except.map, Survey.cons, Survey.empty]
  rw [Outcome.ofSurvey_written, Outcome.writes, if_pos ha]
  simp [Survey.changed, hc, hfixed]

/-- A text with a finding and, behind the statement found, a line that a carriage return and a line
feed end. -/
private def carriageText : List Char :=
  "class A\x7b\x7bjava.util.Objects.requireNonNull(\"\",\"\"+this);\r\n\x7d\x7d".toList

private def carriageFiles : Workspace :=
  ⟨.directory [("A.java", .file (Utf8.encode carriageText))], ⟨"/", []⟩⟩

/-- That text as it is read. -/
private def carriageRead : List Char :=
  "class A\x7b\x7bjava.util.Objects.requireNonNull(\"\",\"\"+this);\n\x7d\x7d".toList

/-- What that text should become. -/
private def carriageFixed (lineEnd : String) : List Char :=
  ("class A\x7b\x7bif (\"\" == null) throw new NullPointerException(\"\"+this);" ++
    lineEnd ++ "\x7d\x7d").toList

private def carriagePath : Path := ⟨"", ["A.java"]⟩

private def carriageOptions : Command.Options :=
  ⟨[carriagePath], none, true, false, false, false, false, false, none⟩

private theorem carriageRead_fixed :
    (Report.ofSource carriageRead (some carriagePath.text) Config.default none).2.map
        (fun r ↦ (r.changed, r.fixedText)) = .ok (true, some (carriageFixed "\n")) := by
  have htext : carriageRead = _ := String.toList_ofList
  rw [Report.ofSource, htext, CompilationUnit.parse_eq_parseNumbered]
  decide +kernel

private theorem carriageFiles_written :
    ((carriageFiles.run ["--apply", "A.java"]).after carriageFiles).root.bytesAt? ["A.java"] =
      some (Utf8.encode (carriageFixed "\n")) := by
  have hoptions : Command.Options.ofTexts ["--apply", "A.java"] = .ok carriageOptions := by
    decide +kernel
  have hsetup : setup carriageFiles carriageOptions = .ok (Config.default, [carriagePath]) := by
    decide +kernel
  have hsource : carriageFiles.source carriagePath = .ok carriageRead := by
    decide +kernel
  have hfixed := carriageRead_fixed
  cases hr : (Report.ofSource carriageRead (some carriagePath.text) Config.default none).2 with
  | error fault =>
    rw [hr] at hfixed
    cases hfixed
  | ok report =>
    rw [hr] at hfixed
    obtain ⟨hchanged, hfixed⟩ := Prod.mk.inj (Except.ok.inj hfixed)
    rw [Outcome.after, run_written hoptions hsetup rfl hsource hr hchanged hfixed]
    rfl

/-- A run rewrites a file in which something is found. -/
theorem run_frame_carriage : carriageFiles.root.bytesAt? ["A.java"] =
      some (Utf8.encode carriageText) ∧
    ∃ config p cuts last, Rewrites config p (Utf8.encode carriageText)
      (Utf8.encode (carriageFixed "\n")) carriageText cuts last := by
  have hold : carriageFiles.root.bytesAt? ["A.java"] = some (Utf8.encode carriageText) := rfl
  refine ⟨hold, ?_⟩
  rcases carriageFiles.run_frame ["--apply", "A.java"] hold with hsame | ⟨config, p, new, text, cuts,
    last, -, hnew, hr⟩
  · rw [carriageFiles_written] at hsame
    exact absurd (Option.some.inj hsame) (by decide)
  · rw [carriageFiles_written] at hnew
    obtain rfl := Option.some.inj hnew
    obtain rfl : carriageText = text :=
      Except.ok.inj ((Utf8.decode_encode carriageText).symm.trans hr.decoded)
    exact ⟨config, p, cuts, last, hr⟩

/-- The carriage return behind the statement is lost. -/
theorem run_loses_carriage :
    ((carriageFiles.run ["--apply", "A.java"]).after carriageFiles).root.bytesAt? ["A.java"] =
        some (Utf8.encode (carriageFixed "\n")) ∧
      Utf8.encode (carriageFixed "\n") ≠ Utf8.encode (carriageFixed "\r\n") :=
  ⟨carriageFiles_written, by decide⟩

end Workspace

end GuardLint
