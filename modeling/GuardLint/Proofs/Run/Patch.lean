import GuardLint.Proofs.Diff.Application
import GuardLint.Proofs.Syntax.Numbers
import GuardLint.Run.Print

/-!
# The diff of a report

A reader who applies the diff of a report to the text of the file gets the fixed text, whatever the
edits are and wherever they stand, as long as the lines up to the last that is shown end in line
feeds. The condition cannot go: a diff is a row of lines, and a line that lacks its line feed runs
into the next one, as a diff does not mark it.
-/

namespace GuardLint

open Diff

namespace Report

/-- The diff of a report makes the fixed text of the text, if line feeds end the lines up to the last
that is shown, the last of all apart, and the path holds no line that looks like the head of a
hunk. -/
theorem patch_diff {r : Report} {path : Path} {fixed : List Char}
    (hfixed : r.fixedText = some fixed)
    (hend : ∀ c ∈ followed (shown 0 (align (Text.lines r.source) (Text.lines fixed))),
      c.line.getLast? = some '\n')
    (hpath : ∀ line ∈ Text.feedLines (titles path.text), head? line = none) :
    patch? r.source (r.diff path).toList = some fixed := by
  rw [diff, String.toList_ofList, hfixed, Option.getD_some]
  exact patch?_unified hend hpath

/-- A text with a guard on its second line and no line feed at its end. -/
private def unendedText : List Char :=
  "class A\x7b\x7b\njava.util.Objects.requireNonNull(this,\"\"+this);\n\x7d\x7d".toList

private def unendedPath : Path := ⟨"", ["A.java"]⟩

/-- How the lines of a report that are to end in line feeds end. -/
private def ends? (text : List Char) : Option (List (Option Char)) :=
  match (ofSource text none .default none).2 with
  | .ok report => report.fixedText.map fun fixed ↦
      (followed (shown 0 (align (Text.lines report.source) (Text.lines fixed)))).map
        (·.line.getLast?)
  | .error _ => none

private theorem unendedText_ends : ends? unendedText = some [some '\n', some '\n', some '\n'] := by
  have htext : unendedText = _ := String.toList_ofList
  rw [ends?, ofSource, htext, Syntax.CompilationUnit.parse_eq_parseNumbered]
  decide +kernel

/-- The diff makes the fixed text of a text whose last line stays as it is. -/
theorem patch_diff_unended : ∃ report fixed,
    (ofSource unendedText none .default none).2 = .ok report ∧ report.fixedText = some fixed ∧
    (∀ c ∈ followed (shown 0 (align (Text.lines report.source) (Text.lines fixed))),
      c.line.getLast? = some '\n') ∧
    (followed (shown 0 (align (Text.lines report.source) (Text.lines fixed)))).length = 3 ∧
    (∀ line ∈ Text.feedLines (titles unendedPath.text), head? line = none) ∧
    patch? report.source (report.diff unendedPath).toList = some fixed := by
  have hends := unendedText_ends
  rw [ends?] at hends
  cases hr : (ofSource unendedText none .default none).2 with
  | error f => simp [hr] at hends
  | ok report =>
    rw [hr] at hends
    obtain ⟨fixed, hfixed, hlast⟩ := Option.map_eq_some_iff.mp hends
    have hfed : ∀ c ∈ followed (shown 0 (align (Text.lines report.source) (Text.lines fixed))),
        c.line.getLast? = some '\n' := by
      intro c hc
      simpa [hlast] using List.mem_map_of_mem (f := (·.line.getLast?)) hc
    have hpath : ∀ line ∈ Text.feedLines (titles unendedPath.text), head? line = none :=
      head?_titles (by decide)
    exact ⟨report, fixed, rfl, hfixed, hfed, by simpa using congrArg List.length hlast, hpath,
      patch_diff hfixed hfed hpath⟩

/-- A text of one line with the same guard and no line feed. -/
private def joinedText : List Char :=
  "class A\x7b\x7bjava.util.Objects.requireNonNull(this,\"\"+this);\x7d\x7d".toList

private theorem joinedText_unread :
    (match (ofSource joinedText none .default none).2 with
      | .ok report => report.changed &&
          (patch? report.source (report.diff unendedPath).toList).isNone
      | .error _ => false) = true := by
  have htext : joinedText = _ := String.toList_ofList
  rw [ofSource, htext, Syntax.CompilationUnit.parse_eq_parseNumbered]
  simp only [diff, String.toList_ofList]
  decide +kernel

/-- If a line that is dropped lacks its line feed, the line that is added runs into it, and the diff
fits no text. -/
theorem not_patch_diff_joined : ∃ report,
    (ofSource joinedText none .default none).2 = .ok report ∧ report.changed = true ∧
    patch? report.source (report.diff unendedPath).toList = none := by
  have hunread := joinedText_unread
  cases hr : (ofSource joinedText none .default none).2 with
  | error f => simp [hr] at hunread
  | ok report =>
    simp only [hr, Bool.and_eq_true, Option.isNone_iff_eq_none] at hunread
    exact ⟨report, rfl, hunread.1, hunread.2⟩

end Report

end GuardLint
