import GuardLint.Check.Catalog
import GuardLint.Check.Facts

/-!
# Gates

A call is a finding if it passes every gate, in a fixed order: it is a guard of the catalog, its
message is a text, is not a constant, is not in test code and has no side effect, and the call is a
statement that another can replace. The first gate that it does not pass rejects it; a gate whose
question cannot be answered is not passed.
-/

namespace GuardLint

/-- A condition that a call has to meet. -/
inductive Gate where
  | shape | messageType | nonConstantMessage | context | sideEffect | statement
  deriving DecidableEq, Repr

namespace Gate

/-- Every gate, in the order in which they are tried. -/
def all : List Gate :=
  [.shape, .messageType, .nonConstantMessage, .context, .sideEffect, .statement]

/-- The name of a gate. -/
def name : Gate → String
  | .shape => "shape"
  | .messageType => "message-type"
  | .nonConstantMessage => "non-constant-message"
  | .context => "context"
  | .sideEffect => "side-effect"
  | .statement => "statement"

end Gate

/-- A call that may be a guard: where it is, what it is bound to, and the shape of the guards it may
be one of. -/
structure Candidate (Site Arg : Type) where
  site : Site
  call : ResolvedCall Arg
  shape : Option GuardShape

namespace Candidate

variable {Site Arg : Type}

/-- A call as a candidate. -/
def ofCall (site : Site) (call : ResolvedCall Arg) : Candidate Site Arg :=
  ⟨site, call, Catalog.lookup call.owner call.method⟩

/-- The argument that a shape points to. There is none without a shape, or if the call is too
short; the first gate sees to both. -/
def argument (c : Candidate Site Arg) (index : GuardShape → Nat) : Except Failure Arg :=
  match c.shape with
  | none => .error (.fault .noShape)
  | some s =>
    match c.call.args[index s]? with
    | some a => .ok a
    | none => .error (.fault .noArgument)

/-- The argument that is the message. -/
def message (c : Candidate Site Arg) : Except Failure Arg := c.argument GuardShape.messageIndex

/-- The argument that is the condition. -/
def condition (c : Candidate Site Arg) : Except Failure Arg := c.argument GuardShape.conditionIndex

/-- Whether a candidate is a guard: in the catalog, static, and with as many arguments as it
takes. -/
def isGuard (c : Candidate Site Arg) : Bool :=
  match c.shape with
  | some s => c.call.isStatic && c.call.args.length == s.arity
  | none => false

end Candidate

/-- Whether a candidate passes a gate. -/
def Gate.passes {Site Arg : Type} (facts : Facts Site Arg) (c : Candidate Site Arg) :
    Gate → Except Failure Bool
  | .shape => .ok c.isGuard
  | .messageType => do .ok ((← facts.staticType (← c.message) c.site) == Typing.stringType)
  | .nonConstantMessage => do .ok !(← facts.isConstant (← c.message) c.site)
  | .context => do .ok !(← facts.isTestCode c.site)
  | .sideEffect => do .ok !(← facts.hasSideEffect (← c.message) c.site)
  | .statement => do .ok (← facts.replacementSpan c.site).isSome

/-- What is decided about a call: whether it is a finding, and then all that a fix needs, or else
the gate that rejected it. -/
structure Decision where
  matched : Bool
  exceptionType : Option String
  conditionText : Option String
  messageText : Option String
  methodName : Option String
  nullCheck : Bool
  rejectedBy : Option String
  deriving DecidableEq, Repr

/-- What became of a call: it is no guard by its name, it cannot be bound, some gate rejects it, for
a reason if the question could not be answered, or it is a finding. -/
inductive Verdict where
  | unknownMethod
  | unboundCall (method : String) (reason : Unresolved)
  | rejected (owner method : String) (gate : Gate) (reason : Option Unresolved)
  | matched (method exceptionType conditionText messageText : String) (nullCheck : Bool)
  deriving DecidableEq, Repr

namespace Verdict

/-- The decision that rejects a call at a gate. -/
def reject (gate : Gate) : Decision := ⟨false, none, none, none, none, false, some gate.name⟩

/-- What a verdict decides. -/
def decision : Verdict → Decision
  | .unknownMethod | .unboundCall .. => reject .shape
  | .rejected _ _ gate _ => reject gate
  | .matched method exceptionType conditionText messageText nullCheck =>
    ⟨true, some exceptionType, some conditionText, some messageText, some method, nullCheck, none⟩

end Verdict

namespace Gate

variable {Site Arg : Type}

/-- The first of some gates that a candidate does not pass, with the reason if its question has no
answer. -/
def firstClosed (facts : Facts Site Arg) (c : Candidate Site Arg) :
    List Gate → Except Fault (Option (Gate × Option Unresolved))
  | [] => .ok none
  | g :: gs => do
    match ← Failure.settle (g.passes facts c) with
    | .ok true => firstClosed facts c gs
    | .ok false => .ok (some (g, none))
    | .error e => .ok (some (g, some e))

/-- The verdict on a candidate that all gates let through. -/
def accept (facts : Facts Site Arg) (c : Candidate Site Arg) : Except Failure Verdict := do
  let condition ← c.condition
  let message ← c.message
  match c.shape with
  | none => .error (.fault .noShape)
  | some s =>
    .ok (.matched c.call.method ((s.exception? c.call.method).getD "")
      (facts.sourceText condition) (facts.sourceText message) (s.isNullCheck c.call.method))

/-- An answer where nothing may be left unresolved. -/
def certain {α : Type} : Except Failure α → Except Fault α
  | .ok a => .ok a
  | .error (.fault f) => .error f
  | .error (.unresolved _) => .error .noShape

/-- What becomes of a call under some gates. A call whose name no guard has is not even bound. -/
def evaluate (facts : Facts Site Arg) (gates : List Gate) (site : Site) : Except Fault Verdict := do
  if !Catalog.isKnownMethod (facts.methodName site) then .ok .unknownMethod
  else
    match ← Failure.settle (facts.resolveCall site) with
    | .error e => .ok (.unboundCall (facts.methodName site) e)
    | .ok call =>
      let c := Candidate.ofCall site call
      match ← firstClosed facts c gates with
      | some (gate, reason) => .ok (.rejected call.owner call.method gate reason)
      | none => certain (accept facts c)

end Gate

end GuardLint
