import GuardLint.Proofs.Fix.Nesting
import GuardLint.Proofs.Run.Fixed
import GuardLint.Proofs.Scope.Nesting
import GuardLint.Proofs.Syntax.Numbers

/-!
# Which fixes of a report are applied

The findings about a text lie apart or strictly inside one another, so a fix is applied exactly if
no other finding lies inside its own. There always is such a fix if anything is found, and what it puts
into the text begins with `if`, which the call that stood there does not.
-/

namespace GuardLint

open Syntax Grammar

namespace Span

/-- A span lies strictly inside another. -/
def Inside (s t : Span) : Prop :=
  ∃ a b c d : Int, s.start = some a ∧ s.stop = some b ∧ t.start = some c ∧ t.stop = some d ∧
    c < a ∧ b < d

/-- A span contains another, perhaps with an end in common. -/
def Contains (s t : Span) : Prop :=
  ∃ a b c d : Int, s.start = some a ∧ s.stop = some b ∧ t.start = some c ∧ t.stop = some d ∧
    a ≤ c ∧ d ≤ b

variable {l m : Location} {path : Option String}

theorem inside_ofLocation (h : l.Inside m) : (ofLocation l path).Inside (ofLocation m path) :=
  ⟨_, _, _, _, rfl, rfl, rfl, rfl, Int.ofNat_lt.mpr h.1, Int.ofNat_lt.mpr h.2⟩

theorem overlaps_ofLocation (h : l.stop ≤ m.start) :
    (ofLocation l path).overlaps (ofLocation m path) = false := by
  simp only [overlaps, ofLocation, Bool.and_eq_false_iff, decide_eq_false_iff_not]
  omega

theorem contains_ofLocation : (ofLocation l path).Contains (ofLocation m path) ↔
    l.start ≤ m.start ∧ m.stop ≤ l.stop := by
  constructor
  · rintro ⟨_, _, _, _, ⟨⟩, ⟨⟩, ⟨⟩, ⟨⟩, h, h'⟩
    exact ⟨Int.ofNat_le.mp h, Int.ofNat_le.mp h'⟩
  · rintro ⟨h, h'⟩
    exact ⟨_, _, _, _, rfl, rfl, rfl, rfl, Int.ofNat_le.mpr h, Int.ofNat_le.mpr h'⟩

end Span

/-! ### Call sites -/

/-- A call that may be replaced is a statement by itself, and its span is that of the statement. -/
theorem CallSite.statement_of_replacementSpan {site : CallSite} {path : Option String} {s : Span}
    (h : site.replacementSpan path = some s) :
    ∃ l, site.statement = some l ∧ s = .ofLocation l path := by
  unfold replacementSpan at h
  split at h
  · next l hl =>
    split at h
    · cases h
    · exact ⟨l, hl, (Option.some.inj h).symm⟩
  · cases h

/-- Of the spans where calls may be replaced, each does not overlap a later one or has it strictly
inside. -/
theorem CallSite.pairwise_replacementSpan {source : List Char} {unit : CompilationUnit}
    (hp : CompilationUnit.parse source = .ok unit) (skip : List String) (path : Option String) :
    (CallSite.ofUnit unit skip).Pairwise fun site other ↦
      ∀ s t, site.replacementSpan path = some s → other.replacementSpan path = some t →
        s.overlaps t = false ∨ t.Inside s := by
  refine (pairwise_leads hp).imp fun h s t hs ht ↦ ?_
  obtain ⟨l, hl, rfl⟩ := statement_of_replacementSpan hs
  obtain ⟨m, hm, rfl⟩ := statement_of_replacementSpan ht
  exact (h l hl m hm).imp Span.overlaps_ofLocation Span.inside_ofLocation

/-! ### What a fix begins with -/

namespace Syntax

/-- A text that begins as a fix does begins with the word `if`. -/
theorem Lexer.first?_if (text : List Char) :
    first? ("if (".toList ++ text) = some (.token (.word .if), 2) := rfl

/-- Where some tokens of a source text begin there is the first of them. -/
theorem Token.first?_cover {source : List Char} {tokens front us rest : List Token}
    (hs : Token.ofSource source = (tokens, none)) (htokens : tokens = front ++ us ++ rest)
    {t : Token} (ht : us.head? = some t) :
    ∃ n, Lexer.first? (source.drop (Token.cover us).start) = some (.token t.kind, n) := by
  obtain ⟨ps, hspelled, rfl⟩ := laid_ofSource hs
  have hne : us ≠ [] := by
    rintro rfl
    cases ht
  obtain ⟨qs, rs, ss, rfl, -, -, -, hcover, ⟨u, piece, hu, hr⟩, -⟩ := exists_segment htokens hne
  obtain rfl := Option.some.inj (ht.symm.trans hu)
  obtain ⟨rs, rfl⟩ := List.head?_eq_some_iff.mp hr
  have hdrop : source.drop (Token.cover us).start =
      spelling ((.token t.kind, piece) :: (rs ++ ss)) := by
    have horigin : Position.origin.offset = 0 := rfl
    rw [hcover, hspelled.text_eq]
    simp only [Location.start, Position.offset_advance, horigin, Nat.zero_add, List.append_assoc,
      spelling_append, spelling_cons, List.cons_append, List.drop_left]
  rw [List.append_assoc] at hspelled
  exact ⟨piece.length, by rw [hdrop, spelling_cons]; exact hspelled.suffix.cons_inv.1⟩

end Syntax

/-- What a fix puts into a text is not what the text has there. -/
theorem Matched.replacement_ne {file : SourceFile} {unit : CompilationUnit} {tokens : List Token}
    {skip : List String} {site : CallSite} {place : Location} {condition message : Expr}
    {method exception : String} {nullCheck : Bool}
    (hs : Token.ofSource file.text = (tokens, none))
    (hr : Reads language (.node (.one .compilationUnit)) tokens unit)
    (hsite : site ∈ CallSite.ofUnit unit skip)
    (hm : Matched file site place condition message method exception nullCheck) (rest : List Char) :
    (edit file place condition message method exception nullCheck).replacement ++ rest ≠
      file.text.drop place.start := by
  intro heq
  obtain ⟨front, us, back, htokens, rfl, ⟨t, ht, hname⟩, -⟩ := hm.exists_tokens hs hr hsite
  obtain ⟨n, hfirst⟩ := Token.first?_cover hs htokens ht
  have hif : ∃ text, (edit file (Token.cover us) condition message method exception
      nullCheck).replacement = "if (".toList ++ text := by
    simp only [edit, Rule.replacement, String.toList_append, List.append_assoc]
    exact ⟨_, rfl⟩
  obtain ⟨text, hif⟩ := hif
  rw [← heq, hif, List.append_assoc, Lexer.first?_if, hname] at hfirst
  cases hfirst

namespace Report

variable {text : List Char} {path : Option String} {config : Config} {severity : Option String}
  {unit : CompilationUnit} {report : Report}

/-- A finding about a call that is the statement at `place`, and the edit of its fix. -/
structure Proposes (file : SourceFile) (sites : List CallSite) (grade : String) (d : Diagnostic)
    (place : Location) (e : Edit) : Prop where
  found : ∃ site ∈ sites, findingAt file.facts grade site = some d ∧ site.statement = some place
  phase : d.phase = some "rule"
  span : d.span = .ofLocation place file.path
  fix : ∃ f, d.fix = some f ∧ f.edit? = some e ∧ f.span = d.span
  start : e.start = place.start
  stop : e.stop = place.stop
  inside : e.Inside file.text.length
  differs : ∀ rest, e.replacement ++ rest ≠ file.text.drop place.start

theorem exists_proposes_of_found (hparse : CompilationUnit.parse text = .ok unit) {site : CallSite}
    (hsite : site ∈ sites config unit) {grade : String} {d : Diagnostic}
    (hfound : findingAt (fileOf text path config unit).facts grade site = some d) :
    ∃ place e, site.statement = some place ∧
      Proposes (fileOf text path config unit) (sites config unit) grade d place e := by
  obtain ⟨tokens, hs, hr⟩ := CompilationUnit.parse_eq_ok.mp hparse
  obtain ⟨place, condition, message, method, exception, nullCheck, hm, rfl⟩ :=
    findingAt_eq_some.mp hfound
  exact ⟨place, Matched.edit (fileOf text path config unit) place condition message method exception
    nullCheck, hm.statement, ⟨site, hsite, hfound, hm.statement⟩, rfl, rfl, ⟨_, rfl, rfl, rfl⟩, rfl,
    rfl, hm.inside hs hr hsite _, hm.replacement_ne hs hr hsite⟩

/-- Every diagnostic of a report on a text that parses is such a finding. -/
theorem exists_proposes (hparse : CompilationUnit.parse text = .ok unit)
    (hreport : (ofSource text path config severity).2 = .ok report) {d : Diagnostic}
    (hd : d ∈ report.diagnostics) :
    ∃ place e, Proposes (fileOf text path config unit) (sites config unit)
      (severity.getD config.severity.text) d place e := by
  obtain ⟨site, hsite, hfound⟩ := exists_of_mem_diagnostics hparse hreport hd
  obtain ⟨place, e, -, h⟩ := exists_proposes_of_found hparse hsite hfound
  exact ⟨place, e, h⟩

/-- The findings of a report on a text that parses are all its diagnostics. -/
theorem findings_eq (hparse : CompilationUnit.parse text = .ok unit)
    (hreport : (ofSource text path config severity).2 = .ok report) :
    report.findings = report.diagnostics := by
  refine List.filter_eq_self.mpr fun d hd ↦ ?_
  obtain ⟨_, _, h⟩ := exists_proposes hparse hreport hd
  rw [h.phase]
  rfl

section

variable {file : SourceFile} {checked : List CallSite} {grade : String} {d d' : Diagnostic}
  {l m : Location} {e f : Edit}

/-- A finding has one edit. -/
theorem Proposes.edit_eq (h : Proposes file checked grade d l e)
    (h' : Proposes file checked grade d m f) : e = f := by
  obtain ⟨x, hx, hxe, -⟩ := h.fix
  obtain ⟨y, hy, hyf, -⟩ := h'.fix
  obtain rfl := Option.some.inj (hx.symm.trans hy)
  exact Option.some.inj (hxe.symm.trans hyf)

/-- Different findings lie apart, or one lies strictly inside the other. -/
theorem Proposes.leads_or (hparse : CompilationUnit.parse text = .ok unit)
    (h : Proposes file (sites config unit) grade d l e)
    (h' : Proposes file (sites config unit) grade d' m f) (hne : d ≠ d') :
    l.Leads m ∨ m.Leads l := by
  obtain ⟨site, hsite, hfound, hl⟩ := h.found
  obtain ⟨other, hother, hfound', hm⟩ := h'.found
  refine CallSite.leads_or hparse hsite hother ?_ hl hm
  rintro rfl
  exact hne (Option.some.inj (hfound.symm.trans hfound'))

/-- The edits of different findings are nested as their places are. -/
theorem Proposes.nested (h : Proposes file checked grade d l e)
    (h' : Proposes file checked grade d' m f) (hlm : l.Leads m ∨ m.Leads l) : e.Nested f := by
  have := h.start
  have := h.stop
  have := h'.start
  have := h'.stop
  unfold Location.Leads Location.Inside at hlm
  unfold Edit.Nested Edit.Precedes Edit.Inner
  omega

/-- Of different findings one contains another exactly if its edit has the other's inside. -/
theorem Proposes.contains_iff (h : Proposes file checked grade d l e)
    (h' : Proposes file checked grade d' m f) (hlm : l.Leads m ∨ m.Leads l) :
    d.span.Contains d'.span ↔ f.Inner e := by
  have := h.start
  have := h.stop
  have := h'.start
  have := h'.stop
  have := h.inside.nonempty
  have := h'.inside.nonempty
  rw [h.span, h'.span, Span.contains_ofLocation]
  unfold Location.Leads Location.Inside at hlm
  unfold Edit.Inner
  omega

end

section

variable (hparse : CompilationUnit.parse text = .ok unit)
  (hreport : (ofSource text path config severity).2 = .ok report)

include hparse hreport

/-- No two findings of a report are the same. -/
theorem nodup_diagnostics : report.diagnostics.Nodup := by
  rcases (ofSource_eq_ok hparse hreport).2 with hnil | ⟨-, hfound⟩
  · rw [hnil]
    exact .nil
  · rw [hfound]
    refine List.pairwise_filterMap.mpr ((CallSite.pairwise_leads hparse).imp_of_mem
      fun {s t} hs ht h d hd d' hd' ↦ ?_)
    rintro rfl
    obtain ⟨l, e, hl, hp⟩ := exists_proposes_of_found hparse hs hd
    obtain ⟨m, f, hm, hp'⟩ := exists_proposes_of_found hparse ht hd'
    have hlm := hp.nested hp' (.inl (h l hl m hm))
    rw [hp.edit_eq hp'] at hlm
    exact hlm.irrefl hp'.inside

/-- The edits of a report are those of its findings. -/
theorem mem_edits_iff {e : Edit} : e ∈ report.fixes.filterMap Fix.edit? ↔
    ∃ d ∈ report.diagnostics, ∃ l, Proposes (fileOf text path config unit) (sites config unit)
      (severity.getD config.severity.text) d l e := by
  constructor
  · intro he
    obtain ⟨f, hf, hfe⟩ := List.mem_filterMap.mp he
    obtain ⟨d, hd, hdf⟩ := List.mem_filterMap.mp hf
    obtain ⟨l, e', h⟩ := exists_proposes hparse hreport hd
    obtain ⟨f', hf', hfe', -⟩ := h.fix
    obtain rfl := Option.some.inj (hdf.symm.trans hf')
    obtain rfl := Option.some.inj (hfe.symm.trans hfe')
    exact ⟨d, hd, l, h⟩
  · rintro ⟨d, hd, l, h⟩
    obtain ⟨f, hf, hfe, -⟩ := h.fix
    exact List.mem_filterMap.mpr ⟨f, List.mem_filterMap.mpr ⟨d, hd, hf⟩, hfe⟩

theorem fits_of_mem_fixes : ∀ f ∈ report.fixes, f.Fits text.length := by
  intro f hf e hfe
  obtain ⟨d, -, l, h⟩ := (mem_edits_iff hparse hreport).mp (List.mem_filterMap.mpr ⟨f, hf, hfe⟩)
  exact h.inside

/-- The edits of a report lie apart or strictly inside one another. -/
theorem nested_edits : ∀ e ∈ report.fixes.filterMap Fix.edit?,
    ∀ f ∈ report.fixes.filterMap Fix.edit?, e ≠ f → e.Nested f := by
  intro e he f hf hne
  obtain ⟨d, -, l, h⟩ := (mem_edits_iff hparse hreport).mp he
  obtain ⟨d', -, m, h'⟩ := (mem_edits_iff hparse hreport).mp hf
  refine h.nested h' (h.leads_or hparse h' ?_)
  rintro rfl
  exact hne (h.edit_eq h')

/-- The fix of a finding is applied exactly if the finding contains no other. -/
theorem mem_applied_iff_innermost {d : Diagnostic} {l : Location} {e : Edit}
    (hd : d ∈ report.diagnostics) (h : Proposes (fileOf text path config unit) (sites config unit)
      (severity.getD config.severity.text) d l e) :
    e ∈ Fix.applied report.fixes ↔
      ∀ d' ∈ report.diagnostics, d' ≠ d → ¬ d.span.Contains d'.span := by
  rw [Fix.mem_applied_iff (nested_edits hparse hreport) (fits_of_mem_fixes hparse hreport)
    ((mem_edits_iff hparse hreport).mpr ⟨d, hd, l, h⟩)]
  constructor
  · intro hinner d' hd' hne hcontains
    obtain ⟨m, f, h'⟩ := exists_proposes hparse hreport hd'
    exact hinner f ((mem_edits_iff hparse hreport).mpr ⟨d', hd', m, h'⟩)
      ((h.contains_iff h' (h.leads_or hparse h' hne.symm)).mp hcontains)
  · intro hcontains f hf hinner
    obtain ⟨d', hd', m, h'⟩ := (mem_edits_iff hparse hreport).mp hf
    have hne : d' ≠ d := by
      rintro rfl
      rw [h.edit_eq h'] at hinner
      exact Int.lt_irrefl _ hinner.1
    exact hcontains d' hd' hne
      ((h.contains_iff h' (h.leads_or hparse h' hne.symm)).mpr hinner)

end

/-- A text in which edits are made is another if the first of them puts there what the text does not
have. -/
theorem applyAll_ne {fixes : List Fix} (hfits : ∀ f ∈ fixes, f.Fits text.length) {e : Edit}
    {es : List Edit} (happlied : Fix.applied fixes = e :: es)
    (hdiffers : ∀ rest, e.replacement ++ rest ≠ text.drop e.start.toNat) :
    Fix.applyAll text fixes ≠ text := by
  intro h
  rw [Fix.applyAll_eq_weave hfits, happlied, Edit.weave, List.drop_zero, Nat.sub_zero,
    List.append_assoc] at h
  have hcut := List.take_append_drop e.start.toNat text
  exact hdiffers _ (List.append_cancel_left (h.trans hcut.symm))

/-- If anything is found in a text, some fix is applied, and the fixed text is another. -/
theorem fixedText_ne (hparse : CompilationUnit.parse text = .ok unit)
    (hreport : (ofSource text path config severity).2 = .ok report)
    (hne : report.diagnostics ≠ []) : Fix.applied report.fixes ≠ [] ∧
      ∃ fixed, report.fixedText = some fixed ∧ fixed ≠ text := by
  obtain ⟨d, hd⟩ := List.exists_mem_of_ne_nil _ hne
  obtain ⟨l, e, h⟩ := exists_proposes hparse hreport hd
  have happlied := Fix.applied_ne_nil
    (List.ne_nil_of_mem ((mem_edits_iff hparse hreport).mpr ⟨d, hd, l, h⟩))
  refine ⟨happlied, ?_⟩
  obtain ⟨e, es, hes⟩ := List.exists_cons_of_ne_nil happlied
  obtain ⟨d, -, l, h⟩ := (mem_edits_iff hparse hreport).mp
    (Fix.mem_filterMap_of_mem_applied (hes ▸ List.mem_cons_self))
  have hchanged := applyAll_ne (fits_of_mem_fixes hparse hreport) hes fun rest ↦ by
    rw [h.start, Int.toNat_natCast]
    exact h.differs rest
  rw [← (ofSource_eq_ok hparse hreport).1] at hchanged
  cases hfixed : report.fixedText with
  | none => exact absurd (by rw [hfixed]; rfl) hchanged
  | some fixed => exact ⟨fixed, rfl, by rwa [hfixed] at hchanged⟩

/-- Where calls of a text that parses may be replaced they lie apart, or one lies strictly inside
the other. The findings of a report are distinct, and the fixes applied are those of the findings
that contain no other. If there is any finding, some fix is applied and the fixed text is
another. -/
theorem applied_innermost (hparse : CompilationUnit.parse text = .ok unit) :
    (∀ skip path, (CallSite.ofUnit unit skip).Pairwise fun site other ↦
      ∀ s t, site.replacementSpan path = some s → other.replacementSpan path = some t →
        s.overlaps t = false ∨ t.Inside s) ∧
    ∀ path config severity report, (ofSource text path config severity).2 = .ok report →
      report.findings.Nodup ∧
      (∀ d ∈ report.findings, ∃ f e, d.fix = some f ∧ f.edit? = some e ∧ f.span = d.span ∧
        (e ∈ Fix.applied report.fixes ↔
          ∀ d' ∈ report.findings, d' ≠ d → ¬ d.span.Contains d'.span)) ∧
      (∀ e ∈ Fix.applied report.fixes,
        ∃ d ∈ report.findings, ∃ f, d.fix = some f ∧ f.edit? = some e) ∧
      (report.findings ≠ [] → Fix.applied report.fixes ≠ [] ∧
        ∃ fixed, report.fixedText = some fixed ∧ fixed ≠ text) := by
  refine ⟨CallSite.pairwise_replacementSpan hparse, fun path config severity report hreport ↦ ?_⟩
  rw [findings_eq hparse hreport]
  refine ⟨nodup_diagnostics hparse hreport, fun d hd ↦ ?_, fun e he ↦ ?_,
    fixedText_ne hparse hreport⟩
  · obtain ⟨l, e, h⟩ := exists_proposes hparse hreport hd
    obtain ⟨f, hf, hfe, hspan⟩ := h.fix
    exact ⟨f, e, hf, hfe, hspan, mem_applied_iff_innermost hparse hreport hd h⟩
  · obtain ⟨d, hd, l, h⟩ := (mem_edits_iff hparse hreport).mp (Fix.mem_filterMap_of_mem_applied he)
    obtain ⟨f, hf, hfe, -⟩ := h.fix
    exact ⟨d, hd, f, hf, hfe⟩

/-- A text with a finding inside the arguments of another. -/
private def nestedText : List Char :=
  ("import static com.google.common.base.Preconditions.*;" ++
    "class A\x7bString s;\x7bcheckState(()->\x7bcheckState(b,s);\x7d,s);\x7d\x7d").toList

private theorem nestedText_findings :
    (match CompilationUnit.parse nestedText, (ofSource nestedText none .default none).2 with
      | .ok _, .ok report =>
        report.findings.length == 2 && (Fix.applied report.fixes).length == 1
      | _, _ => false) = true := by
  have htext : nestedText = _ := Text.toList_ofList_append _ _
  rw [ofSource, htext, CompilationUnit.parse_eq_parseNumbered]
  decide +kernel

/-- Of two findings one of which lies inside the other, one fix is applied, and the text changes. -/
theorem applied_innermost_nested : ∃ unit report,
    CompilationUnit.parse nestedText = .ok unit ∧
    (ofSource nestedText none .default none).2 = .ok report ∧
    report.findings.length = 2 ∧ report.findings.Nodup ∧
    (Fix.applied report.fixes).length = 1 ∧
    ∃ fixed, report.fixedText = some fixed ∧ fixed ≠ nestedText := by
  have hcount := nestedText_findings
  split at hcount
  · rename_i unit report hparse hreport
    obtain ⟨-, hinner⟩ := applied_innermost hparse
    obtain ⟨hnodup, -, -, hchanged⟩ := hinner none .default none report hreport
    simp only [Bool.and_eq_true, beq_iff_eq] at hcount
    exact ⟨unit, report, hparse, hreport, hcount.1, hnodup, hcount.2,
      (hchanged fun h ↦ by simp [h] at hcount).2⟩
  · cases hcount

end Report

end GuardLint
