import GuardLint.Proofs.Check.Rejection

/-!
# Calls in test code

If more calls count as test code and nothing else changes, no call is matched that was not matched
before, and a call that still is matched gets the same verdict.
-/

namespace GuardLint

variable {Site Arg : Type} {facts others : Facts Site Arg} {site : Site}

/-- Two hosts give the same answers about a site, except that the second one may count it as test
code. -/
structure Facts.Suppresses (facts others : Facts Site Arg) (site : Site) : Prop where
  methodName : others.methodName site = facts.methodName site
  resolveCall : others.resolveCall site = facts.resolveCall site
  replacementSpan : others.replacementSpan site = facts.replacementSpan site
  sourceText : others.sourceText = facts.sourceText
  staticType : ∀ a, others.staticType a site = facts.staticType a site
  isConstant : ∀ a, others.isConstant a site = facts.isConstant a site
  hasSideEffect : ∀ a, others.hasSideEffect a site = facts.hasSideEffect a site
  isTestCode : others.isTestCode site = facts.isTestCode site ∨ others.isTestCode site = .ok true

namespace Gate

/-- Hosts that answer every question about a site alike come to one verdict. -/
theorem evaluate_congr (hname : others.methodName site = facts.methodName site)
    (hcall : others.resolveCall site = facts.resolveCall site)
    (htext : others.sourceText = facts.sourceText)
    (h : ∀ x : Gate, x.SameAnswers facts others site) :
    evaluate others all site = evaluate facts all site := by
  have hclosed : ∀ (call : ResolvedCall Arg) (gates : List Gate),
      firstClosed others (.ofCall site call) gates = firstClosed facts (.ofCall site call) gates := by
    intro call gates
    induction gates with
    | nil => rfl
    | cons x gates ih => rw [firstClosed, firstClosed, passes_congr (h x), ih]
  have haccept : ∀ c, accept others c = accept facts c := fun c ↦ by
    rw [accept, accept, htext]
  simp only [evaluate, hname, hcall, hclosed, haccept]

/-- Every gate but that of test code gets the same answers. -/
theorem sameAnswers_of_suppresses (h : facts.Suppresses others site) {g : Gate}
    (hg : g ≠ .context) : g.SameAnswers facts others site := by
  cases g with
  | shape => trivial
  | messageType => exact h.staticType
  | nonConstantMessage => exact h.isConstant
  | context => exact absurd rfl hg
  | sideEffect => exact h.hasSideEffect
  | statement => exact h.replacementSpan

/-- Test code is rejected for it if all gates before that question let the call through. -/
theorem rejectedAt_context {call : ResolvedCall Arg}
    (hknown : Catalog.isKnownMethod (facts.methodName site) = true)
    (hcall : facts.resolveCall site = .ok call) (htest : facts.isTestCode site = .ok true)
    (hearlier : ∀ x ∈ Gate.context.earlier, x.passes facts (.ofCall site call) = .ok true) :
    RejectedAt facts site .context := by
  refine .blocked hknown hcall hearlier (.inl ?_)
  rw [passes, show (Candidate.ofCall site call).site = site from rfl, htest]
  rfl

/-- The gates before that of test code let a call through for a host that counts more as such. -/
private theorem passes_earlier (h : facts.Suppresses others site) {call : ResolvedCall Arg}
    (hpass : ∀ x ∈ Gate.context.earlier, x.passes facts (.ofCall site call) = .ok true) :
    ∀ x ∈ Gate.context.earlier, x.passes others (.ofCall site call) = .ok true := by
  have hne : ∀ x ∈ Gate.context.earlier, x ≠ .context := by decide
  intro x hx
  rw [passes_congr (sameAnswers_of_suppresses h (hne x hx))]
  exact hpass x hx

/-- A call that gets a verdict is rejected by a host that counts it as test code. -/
private theorem exists_rejectedAt_of_test (h : facts.Suppresses others site)
    (htrue : others.isTestCode site = .ok true) {v : Verdict}
    (hv : evaluate facts all site = .ok v) : ∃ g, RejectedAt others site g := by
  -- What every gate before that of test code lets through comes to that gate.
  have hcontext : ∀ call, Catalog.isKnownMethod (facts.methodName site) = true →
      facts.resolveCall site = .ok call →
      (∀ x ∈ Gate.context.earlier, x.passes facts (.ofCall site call) = .ok true) →
      RejectedAt others site .context := fun call hknown hcall hearlier ↦
    rejectedAt_context (by rwa [h.methodName]) (h.resolveCall.trans hcall) htrue
      (passes_earlier h hearlier)
  cases hm : v.decision.matched with
  | true =>
    cases v with
    | matched =>
      obtain ⟨_, call, _, _, hg, -⟩ := evaluate_eq_matched.mp hv
      have hall : ∀ x ∈ Gate.context.earlier, x ∈ all := by decide
      exact ⟨_, hcontext call hg.known hg.bound fun x hx ↦ passes_of_guarded hg x (hall x hx)⟩
    | unknownMethod | unboundCall | rejected => cases hm
  | false =>
    obtain ⟨g, hg, -⟩ := exists_rejectedAt hv hm
    by_cases hcase : .context ∈ g.earlier ++ [g]
    · cases hg with
      | unknown | unbound => exact absurd hcase (by decide)
      | @blocked call g hknown hcall hearlier hblocks =>
        refine ⟨_, hcontext call hknown hcall fun x hx ↦ hearlier x ?_⟩
        have hprefix : .context ∈ g.earlier ++ [g] →
            ∀ x ∈ Gate.context.earlier, x ∈ g.earlier := by cases g <;> decide
        exact hprefix hcase x hx
    · refine ⟨g, hg.congr h.methodName h.resolveCall fun x hx ↦ sameAnswers_of_suppresses h ?_⟩
      rintro rfl
      exact hcase hx

/-- A call that gets a verdict gets one from a host that counts more as test code, and the same one
if it is matched then. -/
theorem evaluate_of_suppresses (h : facts.Suppresses others site) {v : Verdict}
    (hv : evaluate facts all site = .ok v) :
    ∃ v', evaluate others all site = .ok v' ∧ (v'.decision.matched = true → v' = v) := by
  rcases h.isTestCode with heq | htrue
  · have hsame : ∀ x : Gate, x.SameAnswers facts others site := fun x ↦ by
      by_cases hx : x = .context
      · exact hx ▸ heq
      · exact sameAnswers_of_suppresses h hx
    rw [evaluate_congr h.methodName h.resolveCall h.sourceText hsame]
    exact ⟨v, hv, fun _ ↦ rfl⟩
  · obtain ⟨g, hg⟩ := exists_rejectedAt_of_test h htrue hv
    obtain ⟨v', hv', hreject⟩ := evaluate_of_rejectedAt hg
    refine ⟨v', hv', fun hm' ↦ ?_⟩
    rw [hreject] at hm'
    cases hm'

end Gate

end GuardLint
