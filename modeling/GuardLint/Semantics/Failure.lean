import GuardLint.Scope.Resolution

/-!
# Failures

How a question about a piece of code can fail to have an answer. What cannot be resolved is
expected: it means that nothing is known. A fault is not, and ends the work on the file.
-/

namespace GuardLint

/-- A question that ends the work: the type of a variable that depends on itself, or a question
about an argument that a call has not. -/
inductive Fault where
  | loop
  | noShape
  | noArgument
  deriving DecidableEq, Repr

/-- Why a question has no answer. -/
inductive Failure where
  | unresolved (reason : Unresolved)
  | fault (fault : Fault)
  deriving DecidableEq, Repr

/-- An answer, where the only failure is that something cannot be resolved. -/
def Failure.lift {α : Type} : Except Unresolved α → Except Failure α
  | .ok a => .ok a
  | .error e => .error (.unresolved e)

/-- An answer, or the lack of one, with faults set apart. -/
def Failure.settle {α : Type} : Except Failure α → Except Fault (Except Unresolved α)
  | .ok a => .ok (.ok a)
  | .error (.unresolved e) => .ok (.error e)
  | .error (.fault f) => .error f

end GuardLint
