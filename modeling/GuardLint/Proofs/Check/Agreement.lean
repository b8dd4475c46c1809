import GuardLint.Proofs.Check.Finding
import GuardLint.Proofs.Scope.Correspondence
import GuardLint.Proofs.Semantics.Likeness

/-!
# Verdicts on calls alike

Calls alike get verdicts alike: the same gate rejects both, or both are matched, and then they differ
at most in the texts of their condition and their message.
-/

namespace GuardLint

open Syntax

/-- Verdicts that come to the same but for the texts of a match, which `T` relates, and for what the
log says. -/
inductive Verdict.Alike (T : String → String → Prop) : Verdict → Verdict → Prop
  | unknownMethod : Alike T .unknownMethod .unknownMethod
  | unboundCall (method : String) (e e' : Unresolved) :
      Alike T (.unboundCall method e) (.unboundCall method e')
  | rejected (owner owner' method : String) (g : Gate) (reason reason' : Option Unresolved) :
      Alike T (.rejected owner method g reason) (.rejected owner' method g reason')
  | matched {condition condition' message message' : String} (method exception : String)
      (nullCheck : Bool) : T condition condition' → T message message' →
      Alike T (.matched method exception condition message nullCheck)
        (.matched method exception condition' message' nullCheck)

namespace Agree

variable {α β : Type} {R : α → β → Prop} {x : Except Failure α} {y : Except Failure β}

theorem settle (h : Answer R x y) : Agree Eq (Resolve R) (Failure.settle x) (Failure.settle y) := by
  cases h with
  | ok h => exact .ok (.ok h)
  | error h =>
    cases h with
    | unresolved => exact .ok (.error trivial)
    | fault f => exact .error rfl

theorem certain (h : Answer R x y) : Agree Eq R (Gate.certain x) (Gate.certain y) := by
  cases h with
  | ok h => exact .ok h
  | error h =>
    cases h with
    | unresolved => exact .error rfl
    | fault f => exact .error rfl

/-- The same function of answers that are equal. -/
theorem map_eq {x y : Except Failure α} (h : Answer Eq x y) (f : α → β) :
    Answer Eq (x >>= fun a ↦ .ok (f a)) (y >>= fun a ↦ .ok (f a)) :=
  h.bind fun _ _ hab ↦ .ok (congrArg f hab)

end Agree

/-- A file with what stands in another one at other places, under the same settings. -/
structure SourceFile.Relocated (g : Relocation) (f f' : SourceFile) : Prop where
  index : f'.index = g.index f.index
  path : f'.path = f.path
  testGlobs : f'.testGlobs = f.testGlobs
  testOnly : f'.testOnly = f.testOnly

namespace Naming

variable {file file' : SourceFile} {Written : String → Prop} {N : Naming file.index Written}
  {g : Relocation} {site site' : CallSite} {call call' : ResolvedCall Expr}

/-- The texts of an argument of a call and of the same argument in the other file. -/
def Texts (file file' : SourceFile) (g : Relocation) (site : CallSite) (text text' : String) :
    Prop :=
  ∃ e ∈ site.call.args, text = file.textOf e ∧ text' = file'.textOf (g.expr e)

theorem OfClass.declaresTest {k k' : ClassInfo} (h : N.OfClass g k k') :
    TestCode.declaresTest k' = TestCode.declaresTest k := by
  have hmember : ∀ m, TestCode.isTest (g.member m) = TestCode.isTest m := by
    intro m
    cases m with
    | method m => simp [Relocation.member, TestCode.isTest, List.any_map, Function.comp_def]
    | field | initializer | type => simp [Relocation.member, TestCode.isTest]
  simp [TestCode.declaresTest, h.decl, List.any_map, Function.comp_def, hmember]

namespace OfSite

variable (hs : N.OfSite g site site') (hf : file.Relocated g file')
include hs hf

theorem isTestCode : file'.facts.isTestCode site' = file.facts.isTestCode site := by
  have hchain : site'.enclosing.chain.any TestCode.declaresTest =
      site.enclosing.chain.any TestCode.declaresTest := by
    have hclasses : List.Forall₂ (N.OfClass g) site.enclosing.chain site'.enclosing.chain :=
      hs.setting.chain
    generalize site.enclosing.chain = ks, site'.enclosing.chain = ks' at hclasses ⊢
    induction hclasses with
    | nil => rfl
    | cons hk _ ih => rw [List.any_cons, List.any_cons, hk.declaresTest, ih]
  simp only [SourceFile.facts, CallSite.isTestCode, hchain, hf.path, hf.testGlobs, hf.testOnly]

omit hf in
theorem replaceable (path path' : Option String) :
    (site'.replacementSpan path').isSome = (site.replacementSpan path).isSome := by
  rw [CallSite.replacementSpan, CallSite.replacementSpan, hs.statement, hs.beforeElse]
  cases site.statement with
  | none => rfl
  | some l =>
    dsimp only [Option.map_some]
    split <;> rfl

theorem setting' : N.OfSetting g (site.setting file.index) (site'.setting file'.index) := by
  rw [hf.index]
  exact hs.setting

theorem staticType {e : Expr} (he : e ∈ site.call.args) :
    Answer N.Same (file.facts.staticType e site) (file'.facts.staticType (g.expr e) site') :=
  (hs.setting' hf).staticType (hs.args e he)

theorem isConstant {e : Expr} (he : e ∈ site.call.args) :
    Answer Eq (file.facts.isConstant e site) (file'.facts.isConstant (g.expr e) site') :=
  (hs.setting' hf).isConstant (hs.args e he)

theorem resolveCall :
    Answer (N.OfBound g) (file.facts.resolveCall site) (file'.facts.resolveCall site') := by
  have hcall := (hs.setting' hf).resolveCall hs.target
  rw [← hs.call] at hcall
  exact hcall

omit hs hf in
theorem argument (hcall : N.OfBound g call call') (index : GuardShape → Nat) :
    Answer (fun e e' ↦ e ∈ call.args ∧ e' = g.expr e)
      ((Candidate.ofCall site call).argument index)
      ((Candidate.ofCall site' call').argument index) := by
  simp only [Candidate.argument, Candidate.ofCall, hcall.catalog, hcall.args]
  cases Catalog.lookup call.owner call.method with
  | none => exact .error (.fault _)
  | some shape =>
    simp only [List.getElem?_map]
    cases ha : call.args[index shape]? with
    | none => exact .error (.fault _)
    | some e => exact .ok ⟨List.mem_of_getElem? ha, rfl⟩

/-- A gate lets both calls through, or neither of them. -/
theorem passes (hcall : N.OfBound g call call') (hargs : call.args = site.call.args) (x : Gate) :
    Answer Eq (x.passes file.facts (.ofCall site call))
      (x.passes file'.facts (.ofCall site' call')) := by
  have hmessage : Answer (fun e e' ↦ e ∈ site.call.args ∧ e' = g.expr e)
      (Candidate.ofCall site call).message (Candidate.ofCall site' call').message :=
    hargs ▸ argument hcall GuardShape.messageIndex
  cases x with
  | shape =>
    refine .ok ?_
    simp only [Candidate.isGuard, Candidate.ofCall, hcall.catalog, hcall.isStatic, hcall.args,
      List.length_map]
  | messageType =>
    refine hmessage.bind ?_
    rintro e _ ⟨he, rfl⟩
    refine (hs.staticType hf he).bind fun t t' ht ↦ .ok ?_
    rw [beq_eq_of_plain ht (by decide +kernel)]
  | nonConstantMessage =>
    refine hmessage.bind ?_
    rintro e _ ⟨he, rfl⟩
    exact (hs.isConstant hf he).map_eq _
  | context =>
    refine Agree.map_eq (x := file.facts.isTestCode site) (y := file'.facts.isTestCode site') ?_ _
    rw [hs.isTestCode hf]
    exact .ok rfl
  | sideEffect =>
    refine hmessage.bind ?_
    rintro e _ ⟨-, rfl⟩
    refine .ok ?_
    rw [g.hasSideEffect_expr]
  | statement => exact .ok (hs.replaceable _ _).symm

theorem firstClosed (hcall : N.OfBound g call call') (hargs : call.args = site.call.args)
    (gates : List Gate) :
    Agree Eq (fun r r' ↦ r.map Prod.fst = r'.map Prod.fst)
      (Gate.firstClosed file.facts (.ofCall site call) gates)
      (Gate.firstClosed file'.facts (.ofCall site' call') gates) := by
  induction gates with
  | nil => exact .ok rfl
  | cons x gates ih =>
    refine (hs.passes hf hcall hargs x).settle.bind fun a a' ha ↦ ?_
    cases ha with
    | error _ => exact .ok rfl
    | ok h =>
      subst h
      split
      · exact ih
      · exact .ok rfl
      · next heq => cases heq

omit hs hf in
theorem accept (hcall : N.OfBound g call call') (hargs : call.args = site.call.args) :
    Answer (Verdict.Alike (Texts file file' g site)) (Gate.accept file.facts (.ofCall site call))
      (Gate.accept file'.facts (.ofCall site' call')) := by
  refine (argument hcall GuardShape.conditionIndex).bind fun e _ ⟨he, he'⟩ ↦ ?_
  refine (argument hcall GuardShape.messageIndex).bind fun m _ ⟨hm, hm'⟩ ↦ ?_
  subst he' hm'
  rw [hargs] at he hm
  have hshape : (Candidate.ofCall site' call').shape = (Candidate.ofCall site call).shape :=
    hcall.catalog
  have hmethod : (Candidate.ofCall site' call').call.method =
      (Candidate.ofCall site call).call.method := hcall.method
  rw [hshape, hmethod]
  cases (Candidate.ofCall site call).shape with
  | none => exact .error (.fault _)
  | some shape => exact .ok (.matched _ _ _ ⟨e, he, rfl, rfl⟩ ⟨m, hm, rfl, rfl⟩)

/-- Calls alike get verdicts alike. -/
theorem evaluate (gates : List Gate) : Agree Eq (Verdict.Alike (Texts file file' g site))
    (Gate.evaluate file.facts gates site) (Gate.evaluate file'.facts gates site') := by
  have hname : file'.facts.methodName site' = file.facts.methodName site := by
    simp only [SourceFile.facts, hs.call, Relocation.call]
  unfold Gate.evaluate
  rw [hname]
  split
  · exact .ok .unknownMethod
  · have hbound := hs.resolveCall hf
    have hown : ∀ call, file.facts.resolveCall site = .ok call → call.args = site.call.args :=
      fun call hc ↦ (Setting.resolveCall_eq_ok hc).1
    generalize file.facts.resolveCall site = r, file'.facts.resolveCall site' = r' at hbound hown ⊢
    cases hbound with
    | error h =>
      cases h with
      | fault f => exact .error rfl
      | unresolved e e' => exact .ok (.unboundCall _ e e')
    | ok hcall =>
      refine (hs.firstClosed hf hcall (hown _ rfl) gates).bind fun a a' ha ↦ ?_
      cases a with
      | none =>
        cases a' with
        | none => exact (accept hcall (hown _ rfl)).certain
        | some _ => cases ha
      | some a =>
        cases a' with
        | none => cases ha
        | some a' =>
          obtain ⟨x, reason⟩ := a
          obtain ⟨x', reason'⟩ := a'
          cases ha
          rw [hcall.method]
          exact .ok (.rejected _ _ _ x reason reason')

end OfSite

end Naming

end GuardLint
