import GuardLint.Proofs.Check.Agreement
import GuardLint.Proofs.Run.Fixed
import GuardLint.Proofs.Syntax.Layout
import GuardLint.Proofs.Syntax.Numbers

/-!
# Decisions do not depend on the layout

Two texts with the same tokens have the same calls, in the same order, and what is decided about a
call of the one is decided about that of the other. Blanks, line breaks and comments only show in the
texts of a condition and a message, which are cut out of the whole text as they stand; but these have
the same tokens again.
-/

namespace GuardLint

open Syntax Grammar

/-- Two texts are cut into tokens to their end, into the same but for their places. -/
structure SameTokens (text text' : String) : Prop where
  cut : (Token.ofSource text.toList).2 = none
  cut' : (Token.ofSource text'.toList).2 = none
  faces : (Token.ofSource text.toList).1.map Token.face =
    (Token.ofSource text'.toList).1.map Token.face

/-- Decisions that are the same but for the layout of the texts in them. -/
structure Decision.Alike (d d' : Decision) : Prop where
  matched : d.matched = d'.matched
  exceptionType : d.exceptionType = d'.exceptionType
  conditionText : Option.Rel SameTokens d.conditionText d'.conditionText
  messageText : Option.Rel SameTokens d.messageText d'.messageText
  methodName : d.methodName = d'.methodName
  nullCheck : d.nullCheck = d'.nullCheck
  rejectedBy : d.rejectedBy = d'.rejectedBy

/-! ### Names stay as they are -/

/-- Every name stands for itself. -/
def Naming.identity (x : UnitIndex) : Naming x fun _ ↦ True where
  Same := Eq
  plain _ := rfl
  same_iff := by
    rintro a _ b _ rfl rfl
    rfl
  strange := .inl
  key_iff := by
    rintro a _ b _ rfl rfl m n
    rfl
  element := by
    rintro a _ rfl
    cases Typing.elementType? a with
    | none => exact .none
    | some t => exact .some rfl
  classNamed := by
    rintro a _ rfl
    rfl
  resolve := by
    rintro a _ rfl
    exact .self _
  written _ _ _ := rfl
  declared _ _ := ⟨rfl, fun _ _ ↦ trivial⟩

/-- Classes keep their names if they keep their numbers. -/
def Naming.Family.identity (x : UnitIndex) : Naming.Family x (fun _ ↦ True) True where
  Admits N a a' := N = .identity x ∧ a = a'
  unnamed := trivial
  same := by
    rintro N a _ ⟨rfl, rfl⟩
    rfl
  member := by
    rintro N a _ ⟨rfl, rfl⟩ n -
    exact ⟨rfl, rfl⟩
  anonymous := by
    rintro N a _ ⟨rfl, rfl⟩ k k' hk
    rw [hk trivial]
    exact ⟨.identity x, id, rfl, rfl⟩

/-- The call sites of a relocated source file are those of the file, relocated. -/
theorem CallSite.forall₂_ofUnit (g : Relocation) (unit : CompilationUnit) (skip : List String) :
    List.Forall₂ (CallSite.Alike (.ofUnit unit) (fun _ ↦ True) g) (ofUnit unit skip)
      (ofUnit (g.unit unit) skip) :=
  (CallSite.corresponds_ofUnit (F := .identity (.ofUnit unit)) (N := .identity (.ofUnit unit))
    (fun _ h ↦ h) (fun _ ↦ rfl) (fun _ _ ↦ ⟨rfl, rfl⟩) fun _ _ ↦ trivial).forall₂ trivial

/-! ### Texts of conditions and messages -/

section

variable {file file' : SourceFile} {tokens tokens' : List Token} {unit unit' : CompilationUnit}
  {g : Relocation} {skip : List String} {site : CallSite} {place : Location}
  {condition message : Expr} {method exception : String}

/-- The arguments of a matched call are read from some of the tokens. -/
theorem Matched.exists_args {nullCheck : Bool} (hs : Token.ofSource file.text = (tokens, none))
    (hr : Reads language (.node (.one .compilationUnit)) tokens unit)
    (hsite : site ∈ CallSite.ofUnit unit skip)
    (hm : Matched file site place condition message method exception nullCheck) :
    ∀ e ∈ site.call.args, ∃ front us rest, tokens = front ++ us ++ rest ∧
      Reads language (.node (.one .expr)) us e := by
  obtain ⟨front, us, rest, heq, -, hread, -⟩ := CallSite.stands hs hr hsite hm.statement
  rw [CallSite.occurrence, Call.expr, hm.args] at hread
  obtain ⟨before, cs, mid, ms, after, hus, hc, hmsg, -, -⟩ := reads_guard hread hm.target
  rw [hm.args]
  refine List.forall_mem_cons.mpr ⟨⟨front ++ before, cs, mid ++ ms ++ after ++ rest, ?_, hc⟩,
    List.forall_mem_singleton.mpr ⟨front ++ before ++ cs ++ mid, ms, after ++ rest, ?_, hmsg⟩⟩
  · rw [heq, hus]
    simp
  · rw [heq, hus]
    simp

/-- The text of an expression has the same tokens where these are moved. -/
theorem sameTokens_textOf (hs : Token.ofSource file.text = (tokens, none))
    (hs' : Token.ofSource file'.text = (tokens', none)) (hun : Token.Unopened tokens)
    (hun' : Token.Unopened tokens') (hg : g.Moves tokens tokens') {front us rest : List Token}
    (heq : tokens = front ++ us ++ rest) {e : Expr}
    (hr : Reads language (.node (.one .expr)) us e) :
    SameTokens (file.textOf e) (file'.textOf (g.expr e)) := by
  have hinfix : us <:+: tokens := ⟨front, rest, heq.symm⟩
  have hr' : Reads language (.node (.one .expr)) (us.map g.token) (g.expr e) :=
    (hg.among hinfix).reads hr
  have heq' : tokens' = front.map g.token ++ us.map g.token ++ rest.map g.token := by
    rw [← hg.tokens, heq, List.map_append, List.map_append]
  obtain ⟨ps, hps, at_, hlaid⟩ := exists_written hs hun heq hr
  obtain ⟨qs, hqs, at_', hlaid'⟩ := exists_written hs' hun' heq' hr'
  have hmoved : (us.map g.token).map Token.face = us.map Token.face := by
    rw [List.map_map]
    rfl
  refine ⟨?_, ?_, ?_⟩
  · rw [SourceFile.textOf_eq hps, hps.source]
  · rw [SourceFile.textOf_eq hqs, hqs.source]
  · rw [SourceFile.textOf_eq hps, SourceFile.textOf_eq hqs, hps.source, hqs.source,
      Token.faces_laid ps .origin at_, Token.faces_laid qs .origin at_', hlaid, hlaid', hmoved]

end

/-- Verdicts alike decide alike if the texts of a match have the same tokens. -/
theorem Verdict.Alike.decision {T : String → String → Prop} {v v' : Verdict} (h : v.Alike T v')
    (hT : v.decision.matched = true → ∀ t t', T t t' → SameTokens t t') :
    v.decision.Alike v'.decision := by
  cases h with
  | unknownMethod | unboundCall | rejected => exact ⟨rfl, rfl, .none, .none, rfl, rfl, rfl⟩
  | matched _ _ _ hc hm =>
    exact ⟨rfl, rfl, .some (hT rfl _ _ hc), .some (hT rfl _ _ hm), rfl, rfl, rfl⟩

namespace Report

variable {text text' : List Char} {unit unit' : CompilationUnit}

/-- Two texts that parse and have the same tokens but for their places have the same calls in the
same order, but for their places. The check of a call ends in a fault if that of the same call in
the other text does, in the same fault; else the decisions are the same but for the layout of the
texts in them, which have the same tokens. -/
theorem evaluate_layout (hp : CompilationUnit.parse text = .ok unit)
    (hp' : CompilationUnit.parse text' = .ok unit')
    (hf : (Token.ofSource text').1.map Token.face = (Token.ofSource text).1.map Token.face)
    (path : Option String) (config : Config) :
    ∃ g : Relocation, unit' = g.unit unit ∧
      List.Forall₂ (fun site site' ↦ site'.call = g.call site.call ∧
        Agree Eq Decision.Alike
          ((Gate.evaluate (fileOf text path config unit).facts Gate.all site).map
            Verdict.decision)
          ((Gate.evaluate (fileOf text' path config unit').facts Gate.all site').map
            Verdict.decision))
        (sites config unit) (sites config unit') := by
  obtain ⟨g, hg, rfl⟩ := CompilationUnit.exists_moves hp hp' hf
  obtain ⟨ts, hs, hr⟩ := CompilationUnit.parse_eq_ok.mp hp
  obtain ⟨ts', hs', hr'⟩ := CompilationUnit.parse_eq_ok.mp hp'
  rw [hs, hs'] at hg
  refine ⟨g, rfl, ?_⟩
  have hun := Token.unopened_of_matches (.inl rfl) hr.matches
  have hun' := Token.unopened_of_matches (.inl rfl) hr'.matches
  have hsites : List.Forall₂
      (fun s s' ↦ s ∈ sites config unit ∧ CallSite.Alike (.ofUnit unit) (fun _ ↦ True) g s s')
      (sites config unit) (sites config (g.unit unit)) :=
    (List.forall₂_and_left _ _).mpr ⟨fun _ h ↦ h, CallSite.forall₂_ofUnit g unit _⟩
  refine hsites.imp fun site site' ⟨hsite, N, halike⟩ ↦ ⟨halike.call, ?_⟩
  have hfile : (fileOf text path config unit).Relocated g
      (fileOf text' path config (g.unit unit)) := ⟨g.index_ofUnit unit, rfl, rfl, rfl⟩
  have hverdict := halike.evaluate hfile Gate.all
  -- A match has its texts from arguments that are read from some of the tokens.
  have htexts : ∀ v, Gate.evaluate (fileOf text path config unit).facts Gate.all site = .ok v →
      v.decision.matched = true → ∀ t t', Naming.Texts (fileOf text path config unit)
        (fileOf text' path config (g.unit unit)) g site t t' → SameTokens t t' := by
    rintro v hv hmatched _ _ ⟨e, he, rfl, rfl⟩
    cases v with
    | matched method exception condition message nullCheck =>
      obtain ⟨place, c, m, hm, -, -⟩ := exists_matched hv
      obtain ⟨front, us, rest, heq, hread⟩ := hm.exists_args hs hr hsite e he
      exact sameTokens_textOf hs hs' hun hun' hg heq hread
    | unknownMethod | unboundCall | rejected => cases hmatched
  generalize Gate.evaluate (fileOf text path config unit).facts Gate.all site = r,
    Gate.evaluate (fileOf text' path config (g.unit unit)).facts Gate.all site' = r'
    at hverdict htexts ⊢
  cases hverdict with
  | error hfault => exact .error hfault
  | ok hv => exact .ok (hv.decision (htexts _ rfl))

-- A comment between two names is as good as a line break.
example : (Token.ofSource "a/*?*/b".toList).1.map Token.face =
    (Token.ofSource "a\nb".toList).1.map Token.face := by
  decide +kernel

/-- A text with a guard. -/
private def tightText : List Char :=
  "class A\x7b\x7bjava.util.Objects.requireNonNull(this,\"\"+this);\x7d\x7d".toList

/-- The same text with a line break, a comment and a blank in the call. -/
private def looseText : List Char :=
  "class A\x7b\x7bjava.util.Objects\n.requireNonNull(this,/*?*/\"\"+ this);\x7d\x7d".toList

private theorem tightText_matched :
    (match CompilationUnit.parse tightText, CompilationUnit.parse looseText with
      | .ok unit, .ok _ => (sites .default unit).map fun site ↦
          match Gate.evaluate (fileOf tightText none .default unit).facts Gate.all site with
          | .ok v => v.decision.matched
          | .error _ => false
      | _, _ => []) = [true] ∧
    (Token.ofSource looseText).1.map Token.face = (Token.ofSource tightText).1.map Token.face := by
  have htight : tightText = _ := String.toList_ofList
  have hloose : looseText = _ := String.toList_ofList
  rw [htight, hloose, CompilationUnit.parse_eq_parseNumbered]
  decide +kernel

/-- A guard is matched with and without a line break, a comment and a blank in it. -/
theorem evaluate_layout_loose : ∃ unit unit' site site' v v',
    CompilationUnit.parse tightText = .ok unit ∧ CompilationUnit.parse looseText = .ok unit' ∧
    sites .default unit = [site] ∧ sites .default unit' = [site'] ∧
    Gate.evaluate (fileOf tightText none .default unit).facts Gate.all site = .ok v ∧
    Gate.evaluate (fileOf looseText none .default unit').facts Gate.all site' = .ok v' ∧
    v.decision.matched = true ∧ v.decision.Alike v'.decision := by
  obtain ⟨hmatched, hfaces⟩ := tightText_matched
  split at hmatched
  · next unit unit' hp hp' =>
    obtain ⟨g, -, hsites⟩ := evaluate_layout hp hp' hfaces none .default
    obtain ⟨site, hsite, hv⟩ := List.map_eq_singleton_iff.mp hmatched
    rw [hsite] at hsites
    obtain ⟨site', _, ⟨-, hagree⟩, hrest, hsite'⟩ := List.forall₂_cons_left_iff.mp hsites
    cases hrest
    split at hv
    · next v hev =>
      rw [hev] at hagree
      generalize hev' : Gate.evaluate (fileOf looseText none .default unit').facts Gate.all site' = r'
        at hagree
      cases r' with
      | error => cases hagree
      | ok v' =>
        cases hagree with
        | ok halike =>
          exact ⟨unit, unit', site, site', v, v', hp, hp', hsite, hsite', hev, hev', hv, halike⟩
    · cases hv
  · cases hmatched

end Report

end GuardLint
