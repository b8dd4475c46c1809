import GuardLint.Proofs.Check.Finding
import GuardLint.Proofs.Scope.Replacement
import GuardLint.Proofs.Syntax.Numbers

/-!
# What a fixed text is read as

The fixed text of a report parses, and its tree is that of the text with conditional throws in place
of the calls whose fixes are applied, and nothing else changed. A message that would be read as
several arguments is excepted: it is no longer one message in the fixed text.
-/

namespace GuardLint

open Syntax Grammar

/-! ### Call sites on the tokens -/

section

variable {source : List Char} {unit : CompilationUnit} {tokens : List Token} {skip : List String}
  {site other : CallSite} {l : Location}

/-- A call site that is a statement by itself is read from some of the tokens as that statement. -/
theorem CallSite.stands (hs : Token.ofSource source = (tokens, none))
    (hr : Reads language (.node (.one .compilationUnit)) tokens unit)
    (hsite : site ∈ CallSite.ofUnit unit skip) (hl : site.statement = some l) :
    Occurrence.Stands tokens [] site.occurrence l :=
  (Occurrence.fits_ofUnit hs hr).stands _ (CallSite.occurrence_mem hsite) l hl

/-- Call sites that are the same statement are the same. -/
theorem CallSite.eq_of_statement (hs : Token.ofSource source = (tokens, none))
    (hr : Reads language (.node (.one .compilationUnit)) tokens unit)
    (hsite : site ∈ CallSite.ofUnit unit skip) (hother : other ∈ CallSite.ofUnit unit skip)
    (hl : site.statement = some l) (hl' : other.statement = some l) : site = other := by
  have ho := Token.ordered_ofSource hs
  obtain ⟨front, us, rest, heq, hcover, hread, -⟩ := CallSite.stands hs hr hsite hl
  obtain ⟨front', us', rest', heq', hcover', hread', -⟩ := CallSite.stands hs hr hother hl'
  have hne : ∀ {ts : List Token} {v : Stmt}, Reads language (.node (.one .statement)) ts v →
      ts ≠ [] := fun h ↦ h.matches.ne_nil language_lawful
    fun _ hs ↦ by cases hs; exact inner_of_ne (by decide)
  have hus : us = us' := by
    have h := Token.within_cover (heq ▸ ho) (hne hread)
    have h' := Token.within_cover (heq' ▸ ho) (hne hread')
    rw [← heq, hcover] at h
    rw [← heq', hcover'] at h'
    exact h.symm.trans h'
  subst hus
  have hcall : site.call.location = other.call.location := by
    have h := hread.unique hread'
    simp only [CallSite.occurrence, Call.expr, Stmt.expr.injEq, Expr.call.injEq] at h
    exact h.2.1
  have hnodup : ((CallSite.ofUnit unit skip).map fun s ↦ s.call.location).Nodup := by
    have hsub := (CallSite.occurrences_sublist unit skip).map fun o ↦ o.call.location
    rw [List.map_map] at hsub
    exact (Occurrence.fits_ofUnit hs hr).distinct.sublist hsub
  exact List.inj_on_of_nodup_map hnodup hsite hother hcall

end

namespace Report

/-! ### The fixes of a report -/

section

variable {text : List Char} {path : Option String} {config : Config} {severity : Option String}
  {unit : CompilationUnit} {report : Report} {Site Arg : Type} {facts : Facts Site Arg}
  {grade : String} {checked : List Site} {findings : List Diagnostic}

/-- If the work comes to an end, the check of every call does, and the findings are those of the
calls, in order. -/
theorem checkAll_eq_ok (h : (checkAll facts grade checked).2 = .ok findings) :
    (∀ s ∈ checked, ∃ v, Gate.evaluate facts Gate.all s = .ok v) ∧
      findings = checked.filterMap (findingAt facts grade) := by
  have hall : ∀ s ∈ checked, ∃ v, Gate.evaluate facts Gate.all s = .ok v := by
    induction checked generalizing findings with
    | nil => exact fun _ hs ↦ absurd hs List.not_mem_nil
    | cons s sites ih =>
      rw [checkAll] at h
      cases hv : Gate.evaluate facts Gate.all s with
      | error f => rw [hv] at h; cases h
      | ok v =>
        rw [hv] at h
        cases hrest : (checkAll facts grade sites).2 with
        | error f => simp only [hrest] at h; cases h
        | ok ds => exact List.forall_mem_cons.mpr ⟨⟨v, hv⟩, ih hrest⟩
  rw [checkAll_ok hall] at h
  exact ⟨hall, (Except.ok.inj h).symm⟩

/-- The fixes that a report proposes. -/
def fixes (report : Report) : List Fix := report.diagnostics.filterMap Diagnostic.fix

/-- The report on a text that parses: either nothing is found because the file is skipped, or every
call has a verdict and the findings are those about the calls, in order. In the fixed text the fixes
are applied. -/
theorem ofSource_eq_ok (hparse : CompilationUnit.parse text = .ok unit)
    (h : (ofSource text path config severity).2 = .ok report) :
    report.fixedText.getD text = Fix.applyAll text report.fixes ∧
    (report.diagnostics = [] ∨
      (∀ s ∈ sites config unit, ∃ v,
        Gate.evaluate (fileOf text path config unit).facts Gate.all s = .ok v) ∧
      report.diagnostics = (sites config unit).filterMap
        (findingAt (fileOf text path config unit).facts (severity.getD config.severity.text))) := by
  cases hskip : skipReason? path config with
  | some reason =>
    rw [ofSource, hskip] at h
    cases h
    exact ⟨rfl, .inl rfl⟩
  | none =>
    rw [ofSource_of_parse hskip hparse] at h
    cases hcheck : (checkAll (fileOf text path config unit).facts
        (severity.getD config.severity.text) (sites config unit)).2 with
    | error f => rw [hcheck] at h; cases h
    | ok findings =>
      rw [hcheck] at h
      cases h
      refine ⟨?_, .inr (checkAll_eq_ok hcheck)⟩
      unfold ofFindings fixes
      cases hf : findings.filterMap Diagnostic.fix with
      | nil => rfl
      | cons f fs => rfl

end

/-! ### The rewrite of a report -/

/-- The statement that stands for a call whose condition is tested, if it is matched. -/
def proposal? (file : SourceFile) (site : CallSite) : Option Stmt :=
  match Gate.evaluate file.facts Gate.all site, site.call.args with
  | .ok (.matched _ exception _ _ false), [condition, message] =>
    some (Template.throwing (.unary .empty .negate (.paren .empty (Rewrite.none.expr condition)))
      exception (Rewrite.none.expr message))
  | _, _ => none

/-- The rewrite that puts these statements where fixes are applied. -/
def rewrite (file : SourceFile) (checked : List CallSite) (fixes : List Fix) : Rewrite := fun l ↦
  if (Fix.applied fixes).any fun e ↦ e.start == l.start && e.stop == l.stop then
    checked.findSome? fun s ↦ if s.statement = some l then proposal? file s else none
  else none

section

variable {file : SourceFile} {checked : List CallSite} {fixes : List Fix} {site : CallSite}
  {l : Location} {v : Stmt}

theorem rewrite_eq_some (h : rewrite file checked fixes l = some v) :
    (∃ e ∈ Fix.applied fixes, e.start = l.start ∧ e.stop = l.stop) ∧
      ∃ site ∈ checked, site.statement = some l ∧ proposal? file site = some v := by
  unfold rewrite at h
  split at h
  · next hany =>
    obtain ⟨e, he, hel⟩ := List.any_eq_true.mp hany
    simp only [Bool.and_eq_true, beq_iff_eq] at hel
    obtain ⟨site, hsite, hs⟩ := List.exists_of_findSome?_eq_some h
    split at hs
    · next hplace => exact ⟨⟨e, he, hel⟩, site, hsite, hplace, hs⟩
    · cases hs
  · cases h

/-- Where a fix is applied the rewrite puts what stands for the call there. -/
theorem rewrite_of_applied (hunique : ∀ s ∈ checked, s.statement = some l → s = site)
    (hsite : site ∈ checked) (hl : site.statement = some l)
    (happlied : ∃ e ∈ Fix.applied fixes, e.start = l.start ∧ e.stop = l.stop) :
    rewrite file checked fixes l = proposal? file site := by
  have hany : ((Fix.applied fixes).any fun e ↦ e.start == l.start && e.stop == l.stop) = true := by
    obtain ⟨e, he, hstart, hstop⟩ := happlied
    exact List.any_eq_true.mpr ⟨e, he, by simp [hstart, hstop]⟩
  rw [rewrite, if_pos hany]
  cases hp : proposal? file site with
  | none =>
    refine List.findSome?_eq_none_iff.mpr fun s hs ↦ ?_
    split
    · next h => rw [hunique s hs h, hp]
    · rfl
  | some v =>
    cases hfound : checked.findSome? fun s ↦ if s.statement = some l then proposal? file s else none with
    | none =>
      have h := List.findSome?_eq_none_iff.mp hfound site hsite
      rw [if_pos hl, hp] at h
      cases h
    | some w =>
      obtain ⟨s, hs, hw⟩ := List.exists_of_findSome?_eq_some hfound
      split at hw
      · next h =>
        rw [hunique s hs h, hp] at hw
        exact hw.symm
      · cases hw

end

end Report

/-! ### Patches -/

section

variable {source : List Char} {unit : CompilationUnit} {tokens : List Token} {skip : List String}
  {file : SourceFile} {site : CallSite} {place : Location} {condition message : Expr}
  {method exception : String} {f : Rewrite}

/-- The statement that a matched call is stands inside the text. -/
theorem Matched.inside {nullCheck : Bool} (hs : Token.ofSource source = (tokens, none))
    (hr : Reads language (.node (.one .compilationUnit)) tokens unit)
    (hsite : site ∈ CallSite.ofUnit unit skip)
    (hm : Matched file site place condition message method exception nullCheck)
    (replacement : List Char) :
    Edit.Inside source.length ⟨place.start, place.stop, replacement⟩ := by
  obtain ⟨front, us, rest, heq, rfl, hread, -⟩ := CallSite.stands hs hr hsite hm.statement
  have hne : us ≠ [] := hread.matches.ne_nil language_lawful
    fun _ hs ↦ by cases hs; exact inner_of_ne (by decide)
  have ho := Token.ordered_ofSource hs
  obtain ⟨ps, hspelled, rfl⟩ := Token.laid_ofSource hs
  obtain ⟨a, ha, b, hb, hhead, hlast, hcover⟩ := Token.cover_eq hne
  have hmem : b ∈ Token.laid .origin ps := by rw [heq]; simp [hb]
  have hsolid := ho.solid b hmem
  have hbound := (Token.bounds_of_mem_laid hmem).2
  rw [heq] at ho
  have hle := ho.append.1.append.2.first_le hhead hb
  have hstart : (Token.cover us).start = a.location.start := by rw [hcover]; rfl
  have hstop : (Token.cover us).stop = b.location.stop := by rw [hcover]; rfl
  rw [Position.offset_advance, ← hspelled.text_eq] at hbound
  have horigin : Position.origin.offset = 0 := rfl
  exact ⟨Int.natCast_nonneg _, by simp only [hstart, hstop]; omega, by simp only [hstop]; omega⟩

/-- Where a matched call stands among the tokens: no `else` follows the statement, and the condition
and the message are read from some of the tokens in it. -/
theorem Matched.exists_tokens {nullCheck : Bool} (hs : Token.ofSource file.text = (tokens, none))
    (hr : Reads language (.node (.one .compilationUnit)) tokens unit)
    (hsite : site ∈ CallSite.ofUnit unit skip)
    (hm : Matched file site place condition message method exception nullCheck) :
    ∃ front us rest, tokens = front ++ us ++ rest ∧ Token.cover us = place ∧
      (∃ t, us.head? = some t ∧ t.kind = .name) ∧
      (∀ t, rest.head? = some t → t.kind ≠ .word .else) ∧
      (∃ call semicolon, us = call ++ [semicolon] ∧
        Matches language (.node (.one .statementExpr)) call ∧ semicolon.kind = .mark .semicolon) ∧
      (∃ qc, Written file.text condition qc) ∧ ∃ qm, Written file.text message qm := by
  obtain ⟨front, us, rest, heq, hcover, hread, helse⟩ := CallSite.stands hs hr hsite hm.statement
  rw [CallSite.occurrence, Call.expr, hm.args] at hread
  obtain ⟨before, cs, mid, ms, after, hus, hc, hmsg, hname, hstmt⟩ := reads_guard hread hm.target
  have hun := Token.unopened_of_matches (.inl rfl) hr.matches
  have hcs : tokens = front ++ before ++ cs ++ (mid ++ ms ++ after ++ rest) := by
    rw [heq, hus]
    simp
  have hms : tokens = front ++ before ++ cs ++ mid ++ ms ++ (after ++ rest) := by
    rw [heq, hus]
    simp
  obtain ⟨qc, hqc, -⟩ := exists_written hs hun hcs hc
  obtain ⟨qm, hqm, -⟩ := exists_written hs hun hms hmsg
  refine ⟨front, us, rest, heq, hcover, hname, fun t ht hk ↦ ?_, hstmt, ⟨qc, hqc⟩, qm, hqm⟩
  -- What follows the call is no `else`, as the walk has said.
  rw [List.append_nil] at helse
  have hnext : Occurrence.elseNext rest = false := helse.symm.trans hm.noElse
  simp [Occurrence.elseNext, ht, hk] at hnext

/-- A matched call is tested as a whole, and its message is one argument: a condition that is compared
with `null` binds at least as tight as the sign of equality, without an arrow outside brackets. -/
structure Matched.Clear (file : SourceFile) (condition message : Expr) (nullCheck : Bool) : Prop where
  comparable : nullCheck = true → condition.comparable = true ∧
    ¬ Token.HasArrow (Token.ofSource (file.textOf condition).toList).1
  single : ¬ Token.Divides (Token.ofSource (file.textOf message).toList).1

/-- The statement that the fix of a matched call is meant to be. -/
def Matched.meant (condition message : Expr) (exception : String) (nullCheck : Bool) : Stmt :=
  Template.throwing (Template.tested nullCheck (Rewrite.none.expr condition)) exception
    (Rewrite.none.expr message)

section

variable {nullCheck : Bool} {qc qm : List Piece}

theorem SourceFile.textOf_eq {e : Expr} {ps : List Piece} (h : Written file.text e ps) :
    (file.textOf e).toList = spelling ps := by
  rw [textOf, String.toList_ofList, h.slice]

/-- The text of a fix stands for what it is meant to be. -/
theorem Matched.Clear.denotes (h : Clear file condition message nullCheck)
    (hc : Written file.text condition qc) (hm : Written file.text message qm) :
    Denotes (Template.test nullCheck qc)
        (Template.tested nullCheck (Rewrite.none.expr condition)) ∧
      ∀ at_, ¬ Token.Divides (Token.laid at_ qm) := by
  constructor
  · refine Template.denotes_test hc.denotes .origin fun hnull ↦ ?_
    have hclear := h.comparable hnull
    rw [SourceFile.textOf_eq hc, hc.source] at hclear
    rw [comparable_expr]
    exact hclear
  · intro at_ hdivides
    have hsingle := h.single
    rw [SourceFile.textOf_eq hm, hm.source] at hsingle
    exact hsingle (Template.divides_laid hdivides _)

/-- The edit that the fix of a matched call makes. -/
def Matched.edit (file : SourceFile) (place : Location) (condition message : Expr)
    (method exception : String) (nullCheck : Bool) : Edit :=
  ⟨place.start, place.stop, (Rule.replacement (Verdict.decision (.matched method exception
    (file.textOf condition) (file.textOf message) nullCheck))).toList⟩

/-- The fix of a matched call may be applied if a rewrite puts what the fix is meant to be where the
call is. -/
theorem Matched.patched (hs : Token.ofSource file.text = (tokens, none))
    (hr : Reads language (.node (.one .compilationUnit)) tokens unit)
    (hsite : site ∈ CallSite.ofUnit unit skip)
    (hm : Matched file site place condition message method exception nullCheck)
    (hclear : Clear file condition message nullCheck)
    (hf : f place = some (meant condition message exception nullCheck)) :
    ∃ front us rest, tokens = front ++ us ++ rest ∧
      Patched f (· ∈ Occurrence.places (Occurrence.ofUnit unit)) us rest
        (edit file place condition message method exception nullCheck) := by
  obtain ⟨front, us, rest, heq, rfl, hname, helse, hstmt, ⟨qc, hqc⟩, qm, hqm⟩ :=
    hm.exists_tokens hs hr hsite
  obtain ⟨htest, hsingle⟩ := hclear.denotes hqc hqm
  refine ⟨front, us, rest, heq, rfl, rfl, ?_, hname, helse,
    Template.pieces (Template.test nullCheck qc) exception qm, ?_, ?_⟩
  · exact List.mem_filterMap.mpr ⟨_, CallSite.occurrence_mem hsite, hm.statement⟩
  · exact Rule.replacement_eq (SourceFile.textOf_eq hqc) (SourceFile.textOf_eq hqm)
  · exact Template.patch htest hqm.denotes hsingle (Template.test_spelled hqc.spelled)
      (hqm.spelled _ (by decide)) hm.exception_spells hstmt hf

/-- The fix of a matched call, among fixes of which some are applied: if it is, a rewrite puts what
the fix is meant to be where the call is. -/
structure Matched.Realized (file : SourceFile) (sites : List CallSite) (f : Rewrite)
    (applied : List Edit) (e : Edit) : Prop where
  exists_matched : ∃ site ∈ sites, ∃ place condition message method exception nullCheck,
    Matched file site place condition message method exception nullCheck ∧
    e = edit file place condition message method exception nullCheck ∧
    (e ∈ applied → Clear file condition message nullCheck ∧
      f place = some (meant condition message exception nullCheck))

/-- A text to which the fixes of matched calls are applied parses, and its tree is that of the text
with what the fixes are meant to be in place of the calls. -/
theorem Matched.parse_applyAll (hparse : CompilationUnit.parse file.text = .ok unit)
    (config : Config) {fixes : List Fix}
    (hfixes : ∀ e ∈ fixes.filterMap Fix.edit?,
      Realized file (Report.sites config unit) f (Fix.applied fixes) e)
    (hf : ∀ l v, f l = some v → ∃ e ∈ Fix.applied fixes, e.start = l.start) :
    ∃ unit', CompilationUnit.parse (Fix.applyAll file.text fixes) = .ok unit' ∧
      Rewrite.none.unit unit' = f.unit unit := by
  obtain ⟨tokens, hs, hr⟩ := CompilationUnit.parse_eq_ok.mp hparse
  have hedits : ∀ e ∈ fixes.filterMap Fix.edit?, e.Inside file.text.length := by
    intro e he
    obtain ⟨site, hsite, place, condition, message, method, exception, nullCheck, hm, rfl, -⟩ :=
      (hfixes e he).exists_matched
    exact hm.inside hs hr hsite _
  have hfits : ∀ x ∈ fixes, x.Fits file.text.length :=
    fun x hx e he ↦ hedits e (List.mem_filterMap.mpr ⟨x, hx, he⟩)
  have hpatched : ∀ e ∈ Fix.applied fixes, ∃ front us rest, tokens = front ++ us ++ rest ∧
      Patched f (· ∈ Occurrence.places (Occurrence.ofUnit unit)) us rest e := by
    intro e he
    obtain ⟨site, hsite, place, condition, message, method, exception, nullCheck, hm, rfl, happlied⟩ :=
      (hfixes e (Fix.mem_filterMap_of_mem_applied he)).exists_matched
    obtain ⟨hclear, hplace⟩ := happlied he
    exact hm.patched hs hr hsite hclear hplace
  have ho := Token.ordered_ofSource hs
  obtain ⟨ps, hspelled, rfl⟩ := Token.laid_ofSource hs
  obtain ⟨ps', hspelled', hswapped⟩ := exists_spliced (s := 0) rfl hspelled ho
    (unopened_of_tokens (Token.unopened_of_matches (.inl rfl) hr.matches))
    (Fix.pairwise_applied hfits) (fun e he ↦ hedits e (Fix.mem_filterMap_of_mem_applied he)) hpatched
    (fun t _ l _ hne ↦ by
      obtain ⟨v, hv⟩ := Option.ne_none_iff_exists'.mp hne
      exact hf l v hv)
  obtain ⟨unit', hr', hunit⟩ := Occurrence.reads_exchange hr rfl ho (hswapped .origin)
  refine ⟨unit', CompilationUnit.parse_eq_ok.mpr ⟨_, ?_, hr'⟩, hunit⟩
  rw [Fix.applyAll_eq_weave hfits]
  exact Token.ofSource_of_spelled hspelled'

end

end

namespace Report

variable {text : List Char} {path : Option String} {config : Config} {severity : Option String}
  {unit : CompilationUnit} {report : Report}

/-- Every finding tests its condition, and has a message that is not read as several arguments. -/
def Plain (file : SourceFile) (checked : List CallSite) : Prop :=
  ∀ site ∈ checked, ∀ method exception condition message nullCheck,
    Gate.evaluate file.facts Gate.all site =
        .ok (.matched method exception condition message nullCheck) →
      nullCheck = false ∧ ¬ Token.Divides (Token.ofSource message.toList).1

/-- What a report on a text that parses says is found at its calls. -/
theorem exists_of_mem_diagnostics (hparse : CompilationUnit.parse text = .ok unit)
    (hreport : (ofSource text path config severity).2 = .ok report) {d : Diagnostic}
    (hd : d ∈ report.diagnostics) :
    ∃ site ∈ sites config unit, findingAt (fileOf text path config unit).facts
      (severity.getD config.severity.text) site = some d := by
  rcases (ofSource_eq_ok hparse hreport).2 with hnil | ⟨-, hfound⟩
  · rw [hnil] at hd
    cases hd
  · rw [hfound] at hd
    exact List.mem_filterMap.mp hd

/-- The edits of a report are those of the calls that are matched. -/
theorem exists_of_mem_edits (hparse : CompilationUnit.parse text = .ok unit)
    (hreport : (ofSource text path config severity).2 = .ok report) {e : Edit}
    (he : e ∈ report.fixes.filterMap Fix.edit?) :
    ∃ site ∈ sites config unit, ∃ place condition message method exception nullCheck,
      Matched (fileOf text path config unit) site place condition message method exception
        nullCheck ∧
      e = Matched.edit (fileOf text path config unit) place condition message method exception
        nullCheck := by
  obtain ⟨f, hf, hfe⟩ := List.mem_filterMap.mp he
  obtain ⟨d, hd, hdf⟩ := List.mem_filterMap.mp hf
  obtain ⟨site, hsite, hfinding⟩ := exists_of_mem_diagnostics hparse hreport hd
  obtain ⟨place, condition, message, method, exception, nullCheck, hm, rfl⟩ :=
    findingAt_eq_some.mp hfinding
  cases hdf
  cases hfe
  exact ⟨site, hsite, place, condition, message, method, exception, nullCheck, hm, rfl⟩

-- There is no fixed text if nothing is found, so the text counts as it is.
example : (match (ofSource "enum A\x7b\x7d".toList none .default none).2 with
    | .ok report => report.fixedText
    | .error _ => some []) = none := by
  decide +kernel

/-- A text with a guard whose message is put together. -/
private def guardedText : List Char :=
  "class A\x7b\x7bint x=1;com.google.common.base.Preconditions.checkArgument(x>0,\"m\"+x);\x7d\x7d".toList

private theorem guardedText_plain :
    (match (ofSource guardedText none .default none).2 with
      | .ok report => report.diagnostics.length == 1
      | .error _ => false) = true ∧
    (match CompilationUnit.parse guardedText with
      | .ok unit => (sites .default unit).all fun site ↦
          match Gate.evaluate (fileOf guardedText none .default unit).facts Gate.all site with
          | .ok (.matched _ _ _ message nullCheck) => !nullCheck &&
              (Token.ofSource message.toList).1.all fun t ↦ t.kind != .mark .comma
          | _ => true
      | .error _ => false) = true := by
  have htext : guardedText = _ := String.toList_ofList
  rw [ofSource, htext, CompilationUnit.parse_eq_parseNumbered]
  decide +kernel

end Report

end GuardLint
