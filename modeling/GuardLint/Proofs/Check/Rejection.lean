import GuardLint.Proofs.Check.Decision

/-!
# Which gate rejects a call

The gates are tried in order, so a call is rejected at the first gate that does not let it through,
and what only later gates would ask plays no part. No gate asks for an argument that is not there:
the first one has seen that there are two. A call whose name no guard has would be rejected all the
same if it were bound first.
-/

namespace GuardLint

open Failure

namespace Catalog

/-- A guard that can be looked up has a name that is known. -/
theorem isKnownMethod_of_lookup {owner method : String} {s : GuardShape}
    (h : lookup owner method = some s) : isKnownMethod method = true := by
  obtain ⟨hs, -, hm⟩ := mem_of_lookup h
  exact List.any_eq_true.mpr ⟨s, hs, List.contains_iff_mem.mpr hm⟩

/-- Every guard that can be looked up throws an exception. -/
theorem exists_exception_of_lookup {owner method : String} {s : GuardShape}
    (h : lookup owner method = some s) : ∃ e, s.exception? method = some e := by
  have hall : ∀ s ∈ shapes, ∀ m ∈ s.methods, (s.exception? m).isSome = true := by decide +kernel
  obtain ⟨hs, -, hm⟩ := mem_of_lookup h
  exact Option.isSome_iff_exists.mp (hall s hs method hm)

end Catalog

variable {Site Arg : Type} {facts others : Facts Site Arg} {site : Site}

/-- Every question about a site is answered, or cannot be resolved; none comes to a fault. -/
structure Facts.Faultless (facts : Facts Site Arg) (site : Site) : Prop where
  resolveCall : Within (fun _ ↦ False) (facts.resolveCall site)
  replacementSpan : Within (fun _ ↦ False) (facts.replacementSpan site)
  staticType : ∀ a, Within (fun _ ↦ False) (facts.staticType a site)
  isConstant : ∀ a, Within (fun _ ↦ False) (facts.isConstant a site)
  hasSideEffect : ∀ a, Within (fun _ ↦ False) (facts.hasSideEffect a site)
  isTestCode : Within (fun _ ↦ False) (facts.isTestCode site)

namespace Gate

/-- The gates that are tried before one. -/
def earlier (g : Gate) : List Gate := all.takeWhile (· != g)

/-- A gate does not let a candidate through: it is closed, or its question has no answer. -/
def Blocks (facts : Facts Site Arg) (c : Candidate Site Arg) (g : Gate) : Prop :=
  g.passes facts c = .ok false ∨ ∃ e, g.passes facts c = .error (.unresolved e)

/-- Where a call is rejected: at the first gate if no guard has its name or it cannot be bound, and
else at the gate that does not let it through when all earlier ones do. -/
inductive RejectedAt (facts : Facts Site Arg) (site : Site) : Gate → Prop where
  | unknown : Catalog.isKnownMethod (facts.methodName site) = false → RejectedAt facts site .shape
  | unbound {e : Unresolved} : facts.resolveCall site = .error (.unresolved e) →
      RejectedAt facts site .shape
  | blocked {call : ResolvedCall Arg} {g : Gate} :
      Catalog.isKnownMethod (facts.methodName site) = true → facts.resolveCall site = .ok call →
      (∀ x ∈ g.earlier, x.passes facts (.ofCall site call) = .ok true) →
      g.Blocks facts (.ofCall site call) → RejectedAt facts site g

/-- Two hosts give the same answers to what a gate asks about a site. -/
def SameAnswers (facts others : Facts Site Arg) (site : Site) : Gate → Prop
  | .shape => True
  | .messageType => ∀ a, others.staticType a site = facts.staticType a site
  | .nonConstantMessage => ∀ a, others.isConstant a site = facts.isConstant a site
  | .context => others.isTestCode site = facts.isTestCode site
  | .sideEffect => ∀ a, others.hasSideEffect a site = facts.hasSideEffect a site
  | .statement => others.replacementSpan site = facts.replacementSpan site

/-- What becomes of a call that is bound whatever its name is. -/
def evaluateAny (facts : Facts Site Arg) (gates : List Gate) (site : Site) :
    Except Fault Verdict := do
  match ← settle (facts.resolveCall site) with
  | .error e => .ok (.unboundCall (facts.methodName site) e)
  | .ok call =>
    match ← firstClosed facts (.ofCall site call) gates with
    | some (gate, reason) => .ok (.rejected call.owner call.method gate reason)
    | none => certain (accept facts (.ofCall site call))

/-- Only a call whose name some guard has is bound. -/
theorem evaluate_eq_if (facts : Facts Site Arg) (gates : List Gate) (site : Site) :
    evaluate facts gates site =
      if Catalog.isKnownMethod (facts.methodName site) then evaluateAny facts gates site
      else .ok .unknownMethod := by
  unfold evaluate
  cases Catalog.isKnownMethod (facts.methodName site) <;> rfl

/-! ### The order of the gates -/

/-- The gates before one are those that stand before it. -/
theorem earlier_eq {g : Gate} {front back : List Gate} (h : all = front ++ g :: back) :
    g.earlier = front := by
  have hnd : (front ++ g :: back).Nodup := h ▸ by decide
  have hfront : ∀ x ∈ front, (x != g) = true := fun x hx ↦ bne_iff_ne.mpr fun hxg ↦
    (List.nodup_append.mp hnd).2.2 x hx g List.mem_cons_self hxg
  rw [earlier, h, List.takeWhile_append_of_pos hfront, List.takeWhile_cons_of_neg (by simp),
    List.append_nil]

theorem exists_all_eq (g : Gate) : ∃ back, all = g.earlier ++ g :: back := by
  cases g <;> exact ⟨_, rfl⟩

/-- What follows from the gates of a list that all let a candidate through is decided by the
rest. -/
private theorem firstClosed_append {c : Candidate Site Arg} {front gates : List Gate}
    (h : ∀ x ∈ front, x.passes facts c = .ok true) :
    firstClosed facts c (front ++ gates) = firstClosed facts c gates := by
  induction front with
  | nil => rfl
  | cons x front ih =>
    obtain ⟨hx, hfront⟩ := List.forall_mem_cons.mp h
    rw [List.cons_append, firstClosed, hx]
    exact ih hfront

/-- The first gate that is closed is the one that blocks when all earlier ones let through. -/
theorem firstClosed_eq_some {c : Candidate Site Arg} {gates : List Gate} {g : Gate} :
    (∃ reason, firstClosed facts c gates = .ok (some (g, reason))) ↔
      ∃ front back, gates = front ++ g :: back ∧ (∀ x ∈ front, x.passes facts c = .ok true) ∧
        g.Blocks facts c := by
  constructor
  · rintro ⟨reason, h⟩
    induction gates with
    | nil => cases h
    | cons x gates ih =>
      rw [firstClosed] at h
      cases hx : x.passes facts c with
      | ok b =>
        rw [hx] at h
        cases b with
        | false =>
          cases h
          exact ⟨[], gates, rfl, by simp, .inl hx⟩
        | true =>
          obtain ⟨front, back, rfl, hfront, hg⟩ := ih h
          exact ⟨x :: front, back, rfl, List.forall_mem_cons.mpr ⟨hx, hfront⟩, hg⟩
      | error e =>
        rw [hx] at h
        cases e with
        | fault f => cases h
        | unresolved e =>
          cases h
          exact ⟨[], gates, rfl, by simp, .inr ⟨e, hx⟩⟩
  · rintro ⟨front, back, rfl, hfront, hg⟩
    rw [firstClosed_append hfront, firstClosed]
    rcases hg with hg | ⟨e, hg⟩ <;> rw [hg] <;> exact ⟨_, rfl⟩

/-! ### What a gate asks -/

/-- A gate that gets the same answers says the same. -/
theorem passes_congr {call : ResolvedCall Arg} {g : Gate} (h : g.SameAnswers facts others site) :
    g.passes others (.ofCall site call) = g.passes facts (.ofCall site call) := by
  have hsite : (Candidate.ofCall site call).site = site := rfl
  cases g with
  | shape => rfl
  | messageType => simp only [passes, hsite, show ∀ a, _ = _ from h]
  | nonConstantMessage => simp only [passes, hsite, show ∀ a, _ = _ from h]
  | context => simp only [passes, hsite, show _ = _ from h]
  | sideEffect => simp only [passes, hsite, show ∀ a, _ = _ from h]
  | statement => simp only [passes, hsite, show _ = _ from h]

/-- No gate that is tried asks for an argument that is not there: one that comes after the first is
tried only on a guard. -/
theorem passes_ne_fault (h : facts.Faultless site) {call : ResolvedCall Arg} {g : Gate}
    (hearlier : ∀ x ∈ g.earlier, x.passes facts (.ofCall site call) = .ok true) (f : Fault) :
    g.passes facts (.ofCall site call) ≠ .error (.fault f) := by
  intro hf
  by_cases hg : g = .shape
  · subst hg
    cases hf
  · have hshape : Gate.shape ∈ g.earlier := by cases g <;> first | exact absurd rfl hg | decide
    have hguard : (Candidate.ofCall site call).isGuard = true :=
      Except.ok.inj (hearlier .shape hshape)
    exact within_passes hguard h.staticType h.isConstant h.isTestCode h.hasSideEffect
      h.replacementSpan g f hf

/-! ### Where a call is rejected -/

/-- A call that is rejected at a gate is decided so. -/
theorem evaluate_of_rejectedAt {g : Gate} (h : RejectedAt facts site g) :
    ∃ verdict, evaluate facts all site = .ok verdict ∧ verdict.decision = Verdict.reject g := by
  rw [evaluate_eq_if]
  cases h with
  | unknown hknown =>
    rw [if_neg (Bool.eq_false_iff.mp hknown)]
    exact ⟨_, rfl, rfl⟩
  | unbound hcall =>
    split
    · rw [evaluateAny, hcall]
      exact ⟨_, rfl, rfl⟩
    · exact ⟨_, rfl, rfl⟩
  | blocked hknown hcall hearlier hblocks =>
    obtain ⟨back, hback⟩ := exists_all_eq g
    obtain ⟨reason, hclosed⟩ := firstClosed_eq_some.mpr ⟨_, back, hback, hearlier, hblocks⟩
    rw [if_pos hknown, evaluateAny, hcall]
    simp only [settle, bind, Except.bind, hclosed]
    exact ⟨_, rfl, rfl⟩

/-- A call that is not matched is rejected at some gate. -/
theorem exists_rejectedAt {verdict : Verdict} (h : evaluate facts all site = .ok verdict)
    (hmatched : verdict.decision.matched = false) :
    ∃ g, RejectedAt facts site g ∧ verdict.decision = Verdict.reject g := by
  rw [evaluate_eq_if] at h
  split at h
  · next hknown =>
    unfold evaluateAny at h
    cases hcall : facts.resolveCall site with
    | error e =>
      rw [hcall] at h
      cases e with
      | fault f => cases h
      | unresolved e =>
        cases h
        exact ⟨.shape, .unbound hcall, rfl⟩
    | ok call =>
      rw [hcall] at h
      simp only [settle, bind, Except.bind] at h
      cases hclosed : firstClosed facts (.ofCall site call) all with
      | error f =>
        rw [hclosed] at h
        cases h
      | ok r =>
        rw [hclosed] at h
        cases r with
        | none =>
          have hpass := firstClosed_eq_none.mp hclosed
          obtain ⟨_, _, _, hs, hstatic, hargs, hc, hm⟩ :=
            Candidate.arguments_of_isGuard (Except.ok.inj (hpass .shape List.mem_cons_self))
          rw [accept_eq hs hc hm] at h
          cases h
          cases hmatched
        | some r =>
          obtain ⟨g, reason⟩ := r
          cases h
          obtain ⟨front, back, hall, hfront, hblocks⟩ := firstClosed_eq_some.mp ⟨reason, hclosed⟩
          exact ⟨g, .blocked hknown hcall (earlier_eq hall ▸ hfront) hblocks, rfl⟩
  · next hknown =>
    cases h
    exact ⟨.shape, .unknown (Bool.eq_false_iff.mpr hknown), rfl⟩

/-- A call that every gate lets through is not rejected. -/
theorem RejectedAt.not_all {g : Gate} (h : RejectedAt facts site g) {call : ResolvedCall Arg}
    (hknown : Catalog.isKnownMethod (facts.methodName site) = true)
    (hcall : facts.resolveCall site = .ok call) :
    ¬ ∀ x ∈ all, x.passes facts (.ofCall site call) = .ok true := by
  intro hpass
  cases h with
  | unknown h => rw [hknown] at h; cases h
  | unbound h => rw [hcall] at h; cases h
  | blocked _ hcall' _ hblocks =>
    cases hcall.symm.trans hcall'
    have hg := hpass g (by cases g <;> decide)
    rcases hblocks with h | ⟨e, h⟩ <;> rw [hg] at h <;> cases h

/-- What only gates after the rejecting one ask plays no part in the rejection. -/
theorem RejectedAt.congr {g : Gate} (h : RejectedAt facts site g)
    (hname : others.methodName site = facts.methodName site)
    (hcall : others.resolveCall site = facts.resolveCall site)
    (hasked : ∀ x ∈ g.earlier ++ [g], x.SameAnswers facts others site) :
    RejectedAt others site g := by
  cases h with
  | unknown h => exact .unknown (by rwa [hname])
  | unbound h => exact .unbound (hcall.trans h)
  | blocked hknown hbound hearlier hblocks =>
    refine .blocked (by rwa [hname]) (hcall.trans hbound) (fun x hx ↦ ?_) ?_
    · rw [passes_congr (hasked x (List.mem_append_left _ hx))]
      exact hearlier x hx
    · rw [Blocks, passes_congr (hasked g (by simp))]
      exact hblocks

/-- A call whose name no guard has is rejected at the first gate if it is bound all the same. -/
theorem evaluateAny_of_unknown (h : facts.Faultless site)
    (hknown : Catalog.isKnownMethod (facts.methodName site) = false)
    (hname : ∀ call, facts.resolveCall site = .ok call → call.method = facts.methodName site) :
    ∃ verdict, evaluateAny facts all site = .ok verdict ∧
      verdict.decision = Verdict.reject .shape := by
  unfold evaluateAny
  cases hcall : facts.resolveCall site with
  | error e =>
    cases e with
    | fault f => exact absurd hcall (h.resolveCall f)
    | unresolved e => exact ⟨_, rfl, rfl⟩
  | ok call =>
    have hguard : (Candidate.ofCall site call).isGuard = false := by
      cases hs : Catalog.lookup call.owner call.method with
      | none => simp only [Candidate.isGuard, Candidate.ofCall, hs]
      | some s =>
        have hk := Catalog.isKnownMethod_of_lookup hs
        rw [hname call hcall, hknown] at hk
        cases hk
    have hclosed : firstClosed facts (.ofCall site call) all = .ok (some (.shape, none)) := by
      simp only [all, firstClosed, passes, hguard]
      rfl
    simp only [settle, bind, Except.bind, hclosed]
    exact ⟨_, rfl, rfl⟩

/-- A host with one call, a static guard whose message has a type that is not known. Of what later
gates would ask, it says what it is given. -/
private def untypedHost (constant effect test : Except Failure Bool) : Facts Unit String where
  methodName _ := "checkState"
  resolveCall _ := .ok ⟨"com.google.common.base.Preconditions", "checkState", ["c", "m"], true⟩
  replacementSpan _ := .ok none
  sourceText a := a
  staticType _ _ := .error (.unresolved (.noType "lambda"))
  isConstant _ _ := constant
  hasSideEffect _ _ := effect
  isTestCode _ := test

private theorem untypedHost_faultless :
    (untypedHost (.ok true) (.ok true) (.ok true)).Faultless () where
  resolveCall := by simp [untypedHost, Within]
  replacementSpan := by simp [untypedHost, Within]
  staticType := by simp [untypedHost, Within]
  isConstant := by simp [untypedHost, Within]
  hasSideEffect := by simp [untypedHost, Within]
  isTestCode := by simp [untypedHost, Within]

end Gate

end GuardLint
