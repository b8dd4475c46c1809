import GuardLint.Check.Gate
import GuardLint.Proofs.Semantics.Dependence

/-!
# What the gates let through

A call is matched exactly if it is bound to a static guard of the catalog with a condition and a
message, and every question of the gates has the answer that lets it through; a question without an
answer rejects it. No gate asks for an argument that is not there, so the only faults are those of
the questions.
-/

namespace GuardLint

open Failure

namespace Catalog

/-- What can be looked up is a method of a shape of its class. -/
theorem mem_of_lookup {owner method : String} {s : GuardShape}
    (h : lookup owner method = some s) : s ∈ shapes ∧ s.owner = owner ∧ method ∈ s.methods := by
  unfold lookup at h
  split at h
  · next s' hs =>
    have howner := List.find?_some hs
    split at h
    · next hm =>
      cases h
      exact ⟨List.mem_of_find?_eq_some hs, beq_iff_eq.mp howner, List.contains_iff_mem.mp hm⟩
    · cases h
  · cases h

/-- The guards that are known take a condition and a message, in this order. -/
theorem shape_of_lookup {owner method : String} {s : GuardShape}
    (h : lookup owner method = some s) :
    s.arity = 2 ∧ s.conditionIndex = 0 ∧ s.messageIndex = 1 := by
  have hall : ∀ s ∈ shapes, s.arity = 2 ∧ s.conditionIndex = 0 ∧ s.messageIndex = 1 := by decide
  exact hall s (mem_of_lookup h).1

end Catalog

variable {Site Arg : Type} {facts : Facts Site Arg} {site : Site} {P : Fault → Prop}

/-- A call is a guard that can be replaced, given what it is bound to and its arguments. -/
structure Guarded (facts : Facts Site Arg) (site : Site) (shape : GuardShape)
    (call : ResolvedCall Arg) (condition message : Arg) : Prop where
  known : Catalog.isKnownMethod (facts.methodName site) = true
  bound : facts.resolveCall site = .ok call
  shape : Catalog.lookup call.owner call.method = some shape
  isStatic : call.isStatic = true
  args : call.args = [condition, message]
  textual : facts.staticType message site = .ok Typing.stringType
  built : facts.isConstant message site = .ok false
  production : facts.isTestCode site = .ok false
  quiet : facts.hasSideEffect message site = .ok false
  replaceable : ∃ span, facts.replacementSpan site = .ok (some span)

namespace Candidate

/-- A guard has the arguments that its shape points to. -/
theorem arguments_of_isGuard {call : ResolvedCall Arg}
    (h : (ofCall site call).isGuard = true) : ∃ shape condition message,
      Catalog.lookup call.owner call.method = some shape ∧ call.isStatic = true ∧
        call.args = [condition, message] ∧ (ofCall site call).condition = .ok condition ∧
        (ofCall site call).message = .ok message := by
  unfold isGuard at h
  split at h
  · next s hs =>
    obtain ⟨harity, hcondition, hmessage⟩ := Catalog.shape_of_lookup hs
    obtain ⟨hstatic, hlength⟩ := Bool.and_eq_true_iff.mp h
    rw [harity] at hlength
    obtain ⟨condition, message, hargs⟩ := List.length_eq_two.mp (by simpa using hlength)
    have hargs' : call.args = [condition, message] := hargs
    have hshape : Catalog.lookup call.owner call.method = some s := hs
    refine ⟨s, condition, message, hshape, hstatic, hargs', ?_, ?_⟩
    · simp only [Candidate.condition, argument, ofCall, hshape, hcondition, hargs',
        List.getElem?_cons_zero]
    · simp only [Candidate.message, argument, ofCall, hshape, hmessage, hargs',
        List.getElem?_cons_succ, List.getElem?_cons_zero]
  · cases h

theorem isGuard_of_args {call : ResolvedCall Arg} {shape : GuardShape} {condition message : Arg}
    (hshape : Catalog.lookup call.owner call.method = some shape) (hstatic : call.isStatic = true)
    (hargs : call.args = [condition, message]) : (ofCall site call).isGuard = true := by
  obtain ⟨harity, -, -⟩ := Catalog.shape_of_lookup hshape
  simp [isGuard, ofCall, hshape, hstatic, hargs, harity]

end Candidate

namespace Gate

private theorem ok_bind {α β : Type} (a : α) (k : α → Except Failure β) :
    ((.ok a : Except Failure α) >>= k) = k a := rfl

private theorem bind_eq_true {α : Type} {x : Except Failure α} {g : α → Bool} :
    (x >>= fun a ↦ .ok (g a)) = (.ok true : Except Failure Bool) ↔
      ∃ a, x = .ok a ∧ g a = true := by
  cases x <;> simp [bind, Except.bind]

/-- No gate is closed exactly if each lets the candidate through. -/
theorem firstClosed_eq_none {c : Candidate Site Arg} {gates : List Gate} :
    firstClosed facts c gates = .ok none ↔ ∀ g ∈ gates, g.passes facts c = .ok true := by
  induction gates with
  | nil => simp [firstClosed]
  | cons g gs ih =>
    rw [List.forall_mem_cons, ← ih, firstClosed]
    cases hg : g.passes facts c with
    | ok b => cases b <;> simp [settle, bind, Except.bind]
    | error e => cases e <;> simp [settle, bind, Except.bind]

/-- The gates fault only if one of them does that is asked. -/
theorem firstClosed_eq_error {c : Candidate Site Arg} {gates : List Gate} {f : Fault}
    (h : firstClosed facts c gates = .error f)
    (hgates : ∀ g ∈ gates, Within P (g.passes facts c)) : P f := by
  induction gates with
  | nil => cases h
  | cons g gs ih =>
    obtain ⟨hfirst, hrest⟩ := List.forall_mem_cons.mp hgates
    unfold firstClosed at h
    cases hg : g.passes facts c with
    | ok b =>
      rw [hg] at h
      cases b with
      | false => cases h
      | true => exact ih h hrest
    | error e =>
      rw [hg] at h
      cases e with
      | unresolved e => cases h
      | fault f' =>
        cases h
        exact hfirst f hg

/-- A candidate that is a guard passes the gates if the questions about its message are answered in
its favour. -/
theorem passes_all {call : ResolvedCall Arg} {message : Arg}
    (hguard : (Candidate.ofCall site call).isGuard = true)
    (hm : (Candidate.ofCall site call).message = .ok message) :
    (∀ g ∈ all, g.passes facts (Candidate.ofCall site call) = .ok true) ↔
      facts.staticType message site = .ok Typing.stringType ∧
      facts.isConstant message site = .ok false ∧ facts.isTestCode site = .ok false ∧
      facts.hasSideEffect message site = .ok false ∧
      ∃ span, facts.replacementSpan site = .ok (some span) := by
  have hsite : (Candidate.ofCall site call).site = site := rfl
  simp only [all, List.forall_mem_cons, List.not_mem_nil, false_implies, implies_true, and_true,
    passes, hguard, hm, hsite, true_and, ok_bind, bind_eq_true, Bool.not_eq_true', beq_iff_eq,
    Option.isSome_iff_exists, exists_eq_right]
  exact ⟨fun ⟨ht, hc, hx, he, _, hr, span, hs⟩ ↦ ⟨ht, hc, hx, he, span, hs ▸ hr⟩,
    fun ⟨ht, hc, hx, he, span, hr⟩ ↦ ⟨ht, hc, hx, he, _, hr, span, rfl⟩⟩

/-- Every gate lets a guard that can be replaced through. -/
theorem passes_of_guarded {call : ResolvedCall Arg} {shape : GuardShape} {condition message : Arg}
    (h : Guarded facts site shape call condition message) :
    ∀ g ∈ all, g.passes facts (Candidate.ofCall site call) = .ok true := by
  have hguard : (Candidate.ofCall site call).isGuard = true :=
    Candidate.isGuard_of_args h.shape h.isStatic h.args
  obtain ⟨shape', condition', message', -, -, hargs, -, hm⟩ :=
    Candidate.arguments_of_isGuard hguard
  cases hargs.symm.trans h.args
  exact (passes_all hguard hm).mpr ⟨h.textual, h.built, h.production, h.quiet, h.replaceable⟩

/-- What becomes of a call that is bound. -/
private theorem evaluate_bound {call : ResolvedCall Arg}
    (hknown : Catalog.isKnownMethod (facts.methodName site) = true)
    (hcall : facts.resolveCall site = .ok call) :
    evaluate facts all site = (firstClosed facts (Candidate.ofCall site call) all).bind fun r ↦
      match r with
      | some (gate, reason) => .ok (.rejected call.owner call.method gate reason)
      | none => certain (accept facts (Candidate.ofCall site call)) := by
  unfold evaluate
  rw [hknown, hcall]
  rfl

/-- A guard is accepted with the texts of its arguments. -/
theorem accept_eq {call : ResolvedCall Arg} {shape : GuardShape} {condition message : Arg}
    (hs : Catalog.lookup call.owner call.method = some shape)
    (hc : (Candidate.ofCall site call).condition = .ok condition)
    (hm : (Candidate.ofCall site call).message = .ok message) :
    accept facts (Candidate.ofCall site call) =
      .ok (.matched call.method ((shape.exception? call.method).getD "")
        (facts.sourceText condition) (facts.sourceText message) (shape.isNullCheck call.method)) := by
  have hs' : (Candidate.ofCall site call).shape = some shape := hs
  simp only [accept, hc, hm, hs', ok_bind]
  rfl

/-- The gates fault on a guard only as the questions that they ask. -/
theorem within_passes {call : ResolvedCall Arg}
    (hguard : (Candidate.ofCall site call).isGuard = true)
    (htype : ∀ a, Within P (facts.staticType a site))
    (hconstant : ∀ a, Within P (facts.isConstant a site))
    (htest : Within P (facts.isTestCode site))
    (heffect : ∀ a, Within P (facts.hasSideEffect a site))
    (hspan : Within P (facts.replacementSpan site)) (g : Gate) :
    Within P (g.passes facts (Candidate.ofCall site call)) := by
  obtain ⟨_, _, message, -, -, -, -, hmsg⟩ := Candidate.arguments_of_isGuard hguard
  cases g with
  | shape => exact within_ok _
  | messageType =>
    simp only [passes, hmsg, ok_bind]
    exact within_bind (htype message) fun _ _ ↦ within_ok _
  | nonConstantMessage =>
    simp only [passes, hmsg, ok_bind]
    exact within_bind (hconstant message) fun _ _ ↦ within_ok _
  | context => exact within_bind htest fun _ _ ↦ within_ok _
  | sideEffect =>
    simp only [passes, hmsg, ok_bind]
    exact within_bind (heffect message) fun _ _ ↦ within_ok _
  | statement => exact within_bind hspan fun _ _ ↦ within_ok _

/-- A call faults only as the questions about it do. -/
theorem evaluate_eq_error {f : Fault} (h : evaluate facts all site = .error f)
    (hcall : Within P (facts.resolveCall site)) (htype : ∀ a, Within P (facts.staticType a site))
    (hconstant : ∀ a, Within P (facts.isConstant a site))
    (htest : Within P (facts.isTestCode site))
    (heffect : ∀ a, Within P (facts.hasSideEffect a site))
    (hspan : Within P (facts.replacementSpan site)) : P f := by
  cases hknown : Catalog.isKnownMethod (facts.methodName site) with
  | false =>
    unfold evaluate at h
    rw [hknown] at h
    cases h
  | true =>
    cases hc : facts.resolveCall site with
    | error e =>
      unfold evaluate at h
      rw [hknown, hc] at h
      cases e with
      | unresolved e => cases h
      | fault f' =>
        cases h
        exact hcall f hc
    | ok call =>
      rw [evaluate_bound hknown hc] at h
      cases hguard : (Candidate.ofCall site call).isGuard with
      | false =>
        have hclosed : firstClosed facts (Candidate.ofCall site call) all =
            .ok (some (.shape, none)) := by
          simp only [all, firstClosed, passes, hguard]
          rfl
        rw [hclosed] at h
        cases h
      | true =>
        obtain ⟨shape, condition, message, hs, -, -, hcond, hmsg⟩ :=
          Candidate.arguments_of_isGuard hguard
        cases hclosed : firstClosed facts (Candidate.ofCall site call) all with
        | error f' =>
          rw [hclosed] at h
          cases h
          exact firstClosed_eq_error hclosed fun g _ ↦
            within_passes hguard htype hconstant htest heffect hspan g
        | ok r =>
          rw [hclosed] at h
          cases r with
          | none =>
            rw [accept_eq hs hcond hmsg] at h
            cases h
          | some r => cases h

/-- What is matched, and what a match says. -/
theorem evaluate_eq_matched {method exceptionType conditionText messageText : String}
    {nullCheck : Bool} :
    evaluate facts all site =
        .ok (.matched method exceptionType conditionText messageText nullCheck) ↔
      ∃ shape call condition message, Guarded facts site shape call condition message ∧
        method = call.method ∧ exceptionType = (shape.exception? call.method).getD "" ∧
        conditionText = facts.sourceText condition ∧ messageText = facts.sourceText message ∧
        nullCheck = shape.isNullCheck call.method := by
  constructor
  · intro h
    cases hknown : Catalog.isKnownMethod (facts.methodName site) with
    | false =>
      unfold evaluate at h
      rw [hknown] at h
      cases h
    | true =>
      cases hcall : facts.resolveCall site with
      | error e =>
        unfold evaluate at h
        rw [hknown, hcall] at h
        cases e <;> cases h
      | ok call =>
        rw [evaluate_bound hknown hcall] at h
        cases hclosed : firstClosed facts (Candidate.ofCall site call) all with
        | error f => rw [hclosed] at h; cases h
        | ok r =>
          rw [hclosed] at h
          cases r with
          | some r => cases h
          | none =>
            have hall := firstClosed_eq_none.mp hclosed
            have hguard : (Candidate.ofCall site call).isGuard = true :=
              Except.ok.inj (hall .shape List.mem_cons_self)
            obtain ⟨shape, condition, message, hs, hstatic, hargs, hc, hm⟩ :=
              Candidate.arguments_of_isGuard hguard
            obtain ⟨ht, hk, hx, he, hr⟩ := (passes_all hguard hm).mp hall
            rw [accept_eq hs hc hm] at h
            cases h
            exact ⟨shape, call, condition, message,
              ⟨hknown, hcall, hs, hstatic, hargs, ht, hk, hx, he, hr⟩, rfl, rfl, rfl, rfl, rfl⟩
  · rintro ⟨shape, call, condition, message, h, rfl, rfl, rfl, rfl, rfl⟩
    have hguard : (Candidate.ofCall site call).isGuard = true :=
      Candidate.isGuard_of_args h.shape h.isStatic h.args
    obtain ⟨shape', condition', message', hs, -, hargs, hc, hm⟩ :=
      Candidate.arguments_of_isGuard hguard
    cases hs.symm.trans h.shape
    cases hargs.symm.trans h.args
    rw [evaluate_bound h.known h.bound, firstClosed_eq_none.mpr (passes_of_guarded h)]
    exact congrArg certain (accept_eq hs hc hm)

end Gate

end GuardLint
