import GuardLint.Proofs.Run.Fixed
import GuardLint.Proofs.Syntax.Numbers

/-!
# The fix of a null check

The fix of a null check compares the condition with `null` without parentheses. So the test is one of
the whole condition only if this binds at least as tight as the sign of equality.
-/

namespace GuardLint

open Syntax Grammar

/-- The rewrite that puts a statement at one place. -/
def Syntax.Rewrite.single (place : Location) (v : Stmt) : Rewrite := fun l ↦
  if l = place then some v else .none

theorem Fix.applied_singleton {fix : Fix} {e : Edit} (h : fix.edit? = some e) :
    applied [fix] = [e] := by
  simp [applied, plan, h, Edit.sorted, Edit.insert, Edit.choose]

section

variable {unit : CompilationUnit} {file : SourceFile} {site : CallSite} {place : Location}
  {condition message : Expr} {method exception : String} {nullCheck : Bool} {tokens : List Token}
  {skip : List String}

/-- The fix of a finding makes the edit of the call. -/
theorem Matched.edit?_of_fix {severity : String} {fix : Fix}
    (h : (finding file severity place condition message method exception nullCheck).fix = some fix) :
    fix.edit? = some (edit file place condition message method exception nullCheck) ∧
      fix.replacement.toList =
        (edit file place condition message method exception nullCheck).replacement := by
  cases h
  exact ⟨rfl, rfl⟩

/-- The tokens of the text of a fix are those of a conditional throw of the texts of the condition and
the message. -/
theorem Matched.ofSource_replacement (hparse : CompilationUnit.parse file.text = .ok unit)
    (hsite : site ∈ CallSite.ofUnit unit skip)
    (hm : Matched file site place condition message method exception nullCheck) :
    ∃ qc qm, Written file.text condition qc ∧ Written file.text message qm ∧
      Token.ofSource (edit file place condition message method exception nullCheck).replacement =
        (Token.laid .origin (Template.pieces (Template.test nullCheck qc) exception qm), none) := by
  obtain ⟨tokens, hs, hr⟩ := CompilationUnit.parse_eq_ok.mp hparse
  obtain ⟨-, -, -, -, -, -, -, -, ⟨qc, hqc⟩, qm, hqm⟩ := hm.exists_tokens hs hr hsite
  refine ⟨qc, qm, hqc, hqm, ?_⟩
  have hspelled : Spelled (Template.pieces (Template.test nullCheck qc) exception qm ++ [])
      (spelling (Template.pieces (Template.test nullCheck qc) exception qm) ++ []) :=
    Template.pieces_spelled (Template.test_spelled hqc.spelled) (hqm.spelled _ (by decide))
      hm.exception_spells .nil
  rw [List.append_nil, List.append_nil] at hspelled
  rw [edit, Rule.replacement_eq (SourceFile.textOf_eq hqc) (SourceFile.textOf_eq hqm)]
  exact Token.ofSource_of_spelled hspelled

/-- The text of the fix of a matched call is read as what it is meant to be. -/
theorem Matched.reads_replacement (hparse : CompilationUnit.parse file.text = .ok unit)
    (hsite : site ∈ CallSite.ofUnit unit skip)
    (hm : Matched file site place condition message method exception nullCheck)
    (hclear : Clear file condition message nullCheck) :
    ∃ ts v, Token.ofSource
        (edit file place condition message method exception nullCheck).replacement = (ts, none) ∧
      Reads language (.node (.one .statement)) ts v ∧
      Rewrite.none.stmt v = meant condition message exception nullCheck := by
  obtain ⟨qc, qm, hqc, hqm, htokens⟩ := hm.ofSource_replacement hparse hsite
  obtain ⟨htest, hsingle⟩ := hclear.denotes hqc hqm
  obtain ⟨g, hg, v, hv, hmeant⟩ : ∃ g : Throw, g.tokens = Token.laid .origin
      (Template.pieces (Template.test nullCheck qc) exception qm) ∧ _ :=
    Template.exists_throw htest hqm.denotes hsingle .origin
  rw [hg] at hv
  exact ⟨_, v, htokens, hv, hmeant⟩

/-- The text of the fix of a null check is not read as a comparison of the condition with `null` if
this binds less tight than the sign of equality. -/
theorem Matched.not_reads_replacement (hparse : CompilationUnit.parse file.text = .ok unit)
    (hsite : site ∈ CallSite.ofUnit unit skip)
    (hm : Matched file site place condition message method exception true)
    (hloose : condition.comparable = false) {ts : List Token} {v : Stmt}
    (hts : Token.ofSource
      (edit file place condition message method exception true).replacement = (ts, none))
    (hv : Reads language (.node (.one .statement)) ts v) :
    Rewrite.none.stmt v ≠ meant condition message exception true := by
  obtain ⟨qc, qm, hqc, -, htokens⟩ := hm.ofSource_replacement hparse hsite
  obtain rfl : Token.laid .origin (Template.pieces (Template.test true qc) exception qm) = ts :=
    congrArg Prod.fst (htokens.symm.trans hts)
  rw [← comparable_expr Rewrite.none] at hloose
  exact Template.not_reads_compared hqc.denotes hloose hv

/-- The fix of a matched call alone puts what it is meant to be in the text. -/
theorem Matched.parse_apply (hparse : CompilationUnit.parse file.text = .ok unit) (config : Config)
    (hsite : site ∈ Report.sites config unit)
    (hm : Matched file site place condition message method exception nullCheck)
    (hclear : Clear file condition message nullCheck) {fix : Fix}
    (hedit : fix.edit? = some (edit file place condition message method exception nullCheck)) :
    ∃ unit', CompilationUnit.parse (Fix.applyAll file.text [fix]) = .ok unit' ∧
      Rewrite.none.unit unit' =
        (Rewrite.single place (meant condition message exception nullCheck)).unit unit := by
  have happlied := Fix.applied_singleton hedit
  refine parse_applyAll hparse config (fun e he ↦ ⟨?_⟩) fun l v hv ↦ ?_
  · rw [List.filterMap_cons_some hedit, List.filterMap_nil, List.mem_singleton] at he
    exact ⟨site, hsite, place, condition, message, method, exception, nullCheck, hm, he,
      fun _ ↦ ⟨hclear, if_pos rfl⟩⟩
  · unfold Rewrite.single at hv
    split at hv
    · next h =>
      subst h
      exact ⟨_, happlied ▸ List.mem_singleton_self _, rfl⟩
    · cases hv

end

namespace Report

variable {text : List Char} {path : Option String} {config : Config} {severity : String}
  {unit : CompilationUnit} {site : CallSite} {d : Diagnostic} {fix : Fix}
  {method exception conditionText messageText : String} {condition message : Expr}

/-- A text with a null check whose message is put together. -/
private def requiredText : List Char :=
  "class A\x7b\x7bint x=1;java.util.Objects.requireNonNull(x,\"m\"+x);\x7d\x7d".toList

private theorem requiredText_sites :
    (match CompilationUnit.parse requiredText with
      | .ok unit =>
        match sites .default unit with
        | [site] =>
          match Gate.evaluate (fileOf requiredText none .default unit).facts Gate.all site,
              site.call.args with
          | .ok (.matched _ _ condition message true), [e, _] => e.comparable &&
              ((Token.ofSource condition.toList).1.all fun t ↦ t.kind != .mark .arrow) &&
              (Token.ofSource message.toList).1.all fun t ↦ t.kind != .mark .comma
          | _, _ => false
        | _ => false
      | .error _ => false) = true := by
  have htext : requiredText = _ := String.toList_ofList
  rw [htext, CompilationUnit.parse_eq_parseNumbered]
  decide +kernel

end Report

end GuardLint
