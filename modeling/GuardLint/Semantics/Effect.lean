import GuardLint.Syntax.Tree

/-!
# Side effects

The expressions that may do something besides giving a value: assignments, steps, calls, and the
making of objects and arrays. The body of a lambda runs later, if at all, so it does not count, and
neither does what a method reference refers to.
-/

namespace GuardLint.Syntax

mutual

/-- Whether an expression may have a side effect. -/
def Expr.hasSideEffect : Expr → Bool
  | .assign .. | .preStep .. | .postStep .. | .call .. | .newObject .. | .newArray .. => true
  | .lambda .. | .lambdaBlock .. | .methodRef .. | .typeMethodRef .. => false
  | .literal .. | .name .. | .this _ | .super _ | .classLiteral .. => false
  | .paren _ e | .field _ e _ | .instanceOf _ e _ | .unary _ _ e | .cast _ _ e => e.hasSideEffect
  | .index _ a b | .binary _ _ a b => a.hasSideEffect || b.hasSideEffect
  | .conditional _ c a b => c.hasSideEffect || a.hasSideEffect || b.hasSideEffect
  | .arrayInit _ es => Expr.anySideEffect es

/-- Whether one of some expressions may have a side effect. -/
def Expr.anySideEffect : List Expr → Bool
  | [] => false
  | e :: es => e.hasSideEffect || Expr.anySideEffect es

end

end GuardLint.Syntax
