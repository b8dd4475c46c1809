import GuardLint.Glob
import GuardLint.Scope.CallSite

/-!
# Test code

A call belongs to test code if the whole run does, if its file fits one of the patterns for tests,
or if a class around it declares a test method.
-/

namespace GuardLint

open Syntax

namespace TestCode

/-- The patterns of test files that hold unless others are given. -/
def defaultGlobs : List String := ["**/src/test/**", "**/src/*Test/**", "**/src/testFixtures/**"]

/-- The annotations of test methods. -/
def annotationNames : List String := ["Test", "ParameterizedTest", "RepeatedTest", "TestFactory"]

/-- Whether a member is a method, or a constructor, with the annotation of a test. -/
def isTest : Member → Bool
  | .method m => m.annotations.any fun a => annotationNames.contains a.simpleName
  | _ => false

/-- Whether a class declares a test method. -/
def declaresTest (c : ClassInfo) : Bool := c.decl.members.any isTest

end TestCode

/-- Whether a call in a file belongs to test code. -/
def CallSite.isTestCode (s : CallSite) (path : Option String) (globs : List String)
    (testOnly : Bool) : Bool :=
  testOnly || Glob.matchesAny path globs || s.enclosing.chain.any TestCode.declaresTest

end GuardLint
