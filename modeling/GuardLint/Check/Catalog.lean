import GuardLint.Text.Order
import GuardLint.Text.Quoted

/-!
# The catalog of guards

The library methods that check a condition and throw an exception with a message, by class. Each
row of a class names a method, the exception that it throws, and whether it asks that its argument
is not `null` instead of that it is true.
-/

namespace GuardLint

/-- What the guards of one class have in common: which methods they are, and which argument is the
condition and which the message. -/
structure GuardShape where
  owner : String
  methods : List String
  exceptions : List (String × String)
  nullChecks : List String
  arity : Nat
  conditionIndex : Nat
  messageIndex : Nat
  deriving DecidableEq, Repr

/-- Why some methods make no shape. -/
inductive ShapeError where
  | unknownMethods (owner : String) (methods : List String)
  | noException (owner : String) (methods : List String)
  | unsupported (owner : String)
  deriving DecidableEq, Repr

/-- A reason in words. -/
def ShapeError.message : ShapeError → String
  | .unknownMethods owner methods =>
    s!"{owner}: methods {Text.quotedList methods} not in method_names"
  | .noException owner methods => s!"{owner}: no exception for {Text.quotedList methods}"
  | .unsupported owner => s!"{owner}: only (condition, message) calls are supported"

namespace GuardShape

/-- A shape, if every exception and null check belongs to a method, every method has an exception,
and there are two arguments, the condition and the message. -/
def make (owner : String) (methods : List String) (exceptions : List (String × String))
    (nullChecks : List String) (arity conditionIndex messageIndex : Int) :
    Except ShapeError GuardShape :=
  let unknown := (exceptions.map Prod.fst ++ nullChecks).filter fun m => !methods.contains m
  let bare := methods.filter fun m => !(exceptions.map Prod.fst).contains m
  if !unknown.isEmpty then .error (.unknownMethods owner (Text.sortedSet unknown))
  else if !bare.isEmpty then .error (.noException owner (Text.sortedSet bare))
  else if arity = 2 ∧
      (conditionIndex = 0 ∧ messageIndex = 1 ∨ conditionIndex = 1 ∧ messageIndex = 0) then
    .ok ⟨owner, methods, exceptions, nullChecks, 2, conditionIndex.toNat, messageIndex.toNat⟩
  else .error (.unsupported owner)

/-- The exception that a method throws. -/
def exception? (s : GuardShape) (method : String) : Option String := s.exceptions.lookup method

/-- Whether a method asks that its argument is not `null`. -/
def isNullCheck (s : GuardShape) (method : String) : Bool := s.nullChecks.contains method

/-- The shape of guards with the condition first, from rows of method, exception and whether it is a
null check. -/
def ofRows (owner : String) (rows : List (String × String × Bool)) : GuardShape :=
  ⟨owner, rows.map (·.1), rows.map (fun r => (r.1, r.2.1)),
    (rows.filter (·.2.2)).map (·.1), 2, 0, 1⟩

end GuardShape

namespace Catalog

/-- The guards that are known. -/
def shapes : List GuardShape :=
  [.ofRows "com.google.common.base.Preconditions"
    [("checkArgument", "IllegalArgumentException", false),
     ("checkState", "IllegalStateException", false),
     ("checkNotNull", "NullPointerException", true)],
   .ofRows "java.util.Objects" [("requireNonNull", "NullPointerException", true)],
   .ofRows "org.apache.commons.lang3.Validate"
    [("isTrue", "IllegalArgumentException", false),
     ("validState", "IllegalStateException", false),
     ("notNull", "NullPointerException", true)]]

/-- The shape of the guards of a class, if the method is one of them. -/
def lookup (owner method : String) : Option GuardShape :=
  match shapes.find? (·.owner == owner) with
  | some s => if s.methods.contains method then some s else none
  | none => none

/-- Whether a guard of any class has some name. -/
def isKnownMethod (method : String) : Bool := shapes.any (·.methods.contains method)

end Catalog

end GuardLint
