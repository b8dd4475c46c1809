import GuardLint.Semantics.TestCode
import GuardLint.Semantics.Constant
import GuardLint.Semantics.Effect
import GuardLint.Span

/-!
# Facts about calls

What a check asks about a call and its arguments. The check knows nothing of syntax trees: whatever
answers these questions can be checked.
-/

namespace GuardLint

open Syntax

/-- The questions of a check about calls of a type `Site` with arguments of a type `Arg`. -/
structure Facts (Site Arg : Type) where
  methodName : Site → String
  resolveCall : Site → Except Failure (ResolvedCall Arg)
  replacementSpan : Site → Except Failure (Option Span)
  sourceText : Arg → String
  staticType : Arg → Site → Except Failure String
  isConstant : Arg → Site → Except Failure Bool
  hasSideEffect : Arg → Site → Except Failure Bool
  isTestCode : Site → Except Failure Bool

/-- A source file under a check: its text, its path if it has one, and what counts as test code. -/
structure SourceFile where
  text : List Char
  path : Option String
  index : UnitIndex
  testGlobs : List String
  testOnly : Bool

namespace CallSite

/-- Where a call stands. -/
def callSpan (s : CallSite) (path : Option String) : Span := .ofLocation s.call.location path

/-- Where another statement may take the place of a call: where the call is a statement by itself,
unless an `else` follows, which the other statement might take for its own. -/
def replacementSpan (s : CallSite) (path : Option String) : Option Span :=
  match s.statement with
  | some l => if s.beforeElse then none else some (.ofLocation l path)
  | none => none

end CallSite

namespace SourceFile

/-- The text of an expression. -/
def textOf (f : SourceFile) (e : Expr) : String := String.ofList (e.location.slice f.text)

/-- The facts about the calls of a source file. -/
def facts (f : SourceFile) : Facts CallSite Expr where
  methodName s := s.call.name
  resolveCall s := (s.setting f.index).resolveCall s.call
  replacementSpan s := .ok (s.replacementSpan f.path)
  sourceText e := f.textOf e
  staticType e s := (s.setting f.index).staticType e
  isConstant e s := (s.setting f.index).isConstant e
  hasSideEffect e _ := .ok e.hasSideEffect
  isTestCode s := .ok (s.isTestCode f.path f.testGlobs f.testOnly)

end SourceFile

end GuardLint
