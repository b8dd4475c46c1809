import GuardLint.Proofs.Run.Report
import GuardLint.Proofs.Syntax.Call
import GuardLint.Proofs.Syntax.Comparison

/-!
# Findings

A finding is about a static call with a condition and a message that is a statement by itself. Its
fix replaces that statement by the text of a conditional throw.
-/

namespace GuardLint

open Syntax Grammar

/-! ### Static calls -/

namespace Setting

/-- An expression that names a type is a dotted name. -/
theorem dotted_of_typeName {c : Setting} {e : Expr} {name : String}
    (h : c.typeName? e = .ok (some name)) : e.dotted = true := by
  induction e using Expr.dotted.induct generalizing name with
  | case1 => rfl
  | case2 l e n ih =>
    rw [typeName?] at h
    cases he : c.typeName? e with
    | error f => rw [he] at h; cases h
    | ok head =>
      cases head with
      | none => rw [he] at h; cases h
      | some head => exact ih he
  | case3 e hname hfield =>
    cases e with
    | name => exact absurd rfl (hname _ _)
    | field => exact absurd rfl (hfield _ _ _)
    | _ => cases h

/-- A call is bound with its arguments, and the target of a static call is a dotted name. -/
theorem resolveCall_eq_ok {c : Setting} {call : Call} {bound : ResolvedCall Expr}
    (h : c.resolveCall call = .ok bound) : bound.args = call.args ∧ bound.method = call.name ∧
      (bound.isStatic = true → ∀ e, call.target = some e → e.dotted = true) := by
  unfold resolveCall Typing.bindCall at h
  cases ht : call.target with
  | none =>
    rw [ht] at h
    cases ho : c.bareOwner call.name with
    | error f => simp [ho, Failure.lift, bind, Except.bind] at h
    | ok owner =>
      simp only [ho, Failure.lift, bind, Except.bind, Except.ok.injEq] at h
      subst h
      exact ⟨rfl, rfl, fun _ e he ↦ by cases he⟩
  | some e =>
    rw [ht] at h
    cases hn : c.typeName? e with
    | error f => simp [hn, Failure.lift, bind, Except.bind] at h
    | ok name =>
      cases name with
      | some name =>
        simp only [hn, Failure.lift, bind, Except.bind] at h
        split at h
        · cases h
        · cases h
          refine ⟨rfl, rfl, fun _ e' he ↦ ?_⟩
          cases he
          exact dotted_of_typeName hn
      | none =>
        simp only [hn, Failure.lift, bind, Except.bind] at h
        split at h
        · cases h
        · cases h
          exact ⟨rfl, rfl, fun hs ↦ by cases hs⟩

end Setting

/-! ### Matched calls -/

/-- The exceptions of the guards that are known are names. -/
theorem Catalog.spells_exception {owner method : String} {s : GuardShape}
    (h : lookup owner method = some s) :
    spells (Template.middle ((s.exception? method).getD "")) = true := by
  have hall : ∀ s ∈ shapes, ∀ m ∈ s.methods,
      spells (Template.middle ((s.exception? m).getD "")) = true := by decide +kernel
  obtain ⟨hs, -, hm⟩ := mem_of_lookup h
  exact hall s hs method hm

/-- A call of a source file is matched. `place` is where the statement stands that it is, and
`condition` and `message` are its arguments. -/
structure Matched (file : SourceFile) (site : CallSite) (place : Location)
    (condition message : Expr) (method exception : String) (nullCheck : Bool) : Prop where
  statement : site.statement = some place
  noElse : site.beforeElse = false
  target : ∀ e, site.call.target = some e → e.dotted = true
  args : site.call.args = [condition, message]
  exception_spells : spells (Template.middle exception) = true
  verdict : Gate.evaluate file.facts Gate.all site = .ok (.matched method exception
    (file.textOf condition) (file.textOf message) nullCheck)

variable {file : SourceFile} {site : CallSite} {severity : String}

theorem exists_matched {method exception conditionText messageText : String} {nullCheck : Bool}
    (h : Gate.evaluate file.facts Gate.all site =
      .ok (.matched method exception conditionText messageText nullCheck)) :
    ∃ place condition message, Matched file site place condition message method exception nullCheck ∧
      conditionText = file.textOf condition ∧ messageText = file.textOf message := by
  obtain ⟨shape, call, condition, message, hg, rfl, rfl, rfl, rfl, rfl⟩ :=
    Gate.evaluate_eq_matched.mp h
  obtain ⟨hargs, -, htarget⟩ := Setting.resolveCall_eq_ok hg.bound
  obtain ⟨span, hspan⟩ := hg.replaceable
  have hspan : site.replacementSpan file.path = some span := Except.ok.inj hspan
  unfold CallSite.replacementSpan at hspan
  split at hspan
  · next place hplace =>
    split at hspan
    · cases hspan
    · next helse =>
      exact ⟨place, condition, message, ⟨hplace, Bool.eq_false_iff.mpr helse, htarget hg.isStatic,
        hargs.symm.trans hg.args, Catalog.spells_exception hg.shape, h⟩, rfl, rfl⟩
  · cases hspan

/-- The finding about a matched call. -/
def Matched.finding (file : SourceFile) (severity : String) (place : Location)
    (condition message : Expr) (method exception : String) (nullCheck : Bool) : Diagnostic :=
  Rule.finding ⟨.ofLocation place file.path, Rule.replacement (Verdict.decision (.matched method
    exception (file.textOf condition) (file.textOf message) nullCheck))⟩ Rule.name severity none

/-- There is a finding about a call exactly if it is matched. -/
theorem findingAt_eq_some {d : Diagnostic} : Report.findingAt file.facts severity site = some d ↔
    ∃ place condition message method exception nullCheck,
      Matched file site place condition message method exception nullCheck ∧
      d = Matched.finding file severity place condition message method exception nullCheck := by
  have hspan : ∀ place, site.statement = some place → site.beforeElse = false →
      file.facts.replacementSpan site = .ok (some (.ofLocation place file.path)) := by
    intro place hplace helse
    show Except.ok (site.replacementSpan file.path) = _
    rw [CallSite.replacementSpan, hplace, helse]
    rfl
  constructor
  · intro h
    unfold Report.findingAt at h
    split at h
    · next v hv =>
      cases v with
      | matched method exception conditionText messageText nullCheck =>
        obtain ⟨place, condition, message, hm, rfl, rfl⟩ := exists_matched hv
        refine ⟨place, condition, message, method, exception, nullCheck, hm, ?_⟩
        rw [Rule.findingOf, hspan place hm.statement hm.noElse] at h
        exact (Option.some.inj h).symm
      | unknownMethod | unboundCall | rejected =>
        unfold Rule.findingOf Rule.fix at h
        split at h <;> cases h
    · cases h
  · rintro ⟨place, condition, message, method, exception, nullCheck, hm, rfl⟩
    rw [Report.findingAt, hm.verdict]
    show Rule.findingOf _ _ _ _ = _
    rw [Rule.findingOf, hspan place hm.statement hm.noElse]
    rfl

/-! ### The text of a fix -/

namespace Syntax.Template

/-- The pieces of the test of a conditional throw. -/
def test (nullCheck : Bool) (condition : List Piece) : List Piece :=
  if nullCheck then compared condition else negated condition

/-- The test of a conditional throw. -/
def tested (nullCheck : Bool) (condition : Expr) : Expr :=
  if nullCheck then .binary .empty .equal condition (.literal .empty .null "null")
  else .unary .empty .negate (.paren .empty condition)

variable {nullCheck : Bool} {ps : List Piece}

/-- The text of a test stands for one of the condition, except that the condition has to bind tight
enough to be compared as a whole. -/
theorem denotes_test {e : Expr} (hd : Denotes ps e) (at_ : Position)
    (hc : nullCheck = true → e.comparable = true ∧ ¬ Token.HasArrow (Token.laid at_ ps)) :
    Denotes (test nullCheck ps) (tested nullCheck e) := by
  cases nullCheck with
  | true => exact denotes_compared hd (hc rfl).1 (hc rfl).2
  | false => exact denotes_negated hd

theorem test_spelled (h : ∀ c ∈ followers, SpelledBefore c ps) :
    SpelledBefore ')' (test nullCheck ps) := by
  cases nullCheck with
  | true => exact compared_spelled (h _ (by decide))
  | false => exact negated_spelled (h _ (by decide))

end Syntax.Template

/-- The text of a fix is that of a conditional throw. -/
theorem Rule.replacement_eq {method exception conditionText messageText : String}
    {nullCheck : Bool} {condition message : List Piece}
    (hc : conditionText.toList = spelling condition) (hm : messageText.toList = spelling message) :
    (Rule.replacement (Verdict.decision
      (.matched method exception conditionText messageText nullCheck))).toList =
        spelling (Template.pieces (Template.test nullCheck condition) exception message) := by
  rw [Template.spelling_pieces]
  unfold Template.test Rule.replacement Verdict.decision Rule.shown
  cases nullCheck <;>
    simp [String.toList_append, hc, hm, Template.spelling_negated, Template.spelling_compared]

end GuardLint
