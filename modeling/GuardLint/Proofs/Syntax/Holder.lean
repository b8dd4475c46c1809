import GuardLint.Proofs.Syntax.Denotation
import GuardLint.Proofs.Syntax.Standalone

/-!
# A class around an expression

The tokens of a class whose only member is a field that an expression initializes. They are a source
file, and what is read of them is this class and this expression.
-/

namespace GuardLint.Syntax

open Grammar

/-- The tokens of a class with one field. -/
structure Holder where
  word : Token
  name : Token
  opening : Token
  type : Token
  var : Token
  sign : Token
  value : List Token
  semicolon : Token
  closing : Token
  word_kind : word.kind = .word .class
  name_kind : name.kind = .name
  opening_kind : opening.kind = .mark .leftBrace
  type_kind : type.kind = .name
  var_kind : var.kind = .name
  sign_kind : sign.kind = .mark .assign
  value_matches : Matches language (.node (.one .expr)) value
  semicolon_kind : semicolon.kind = .mark .semicolon
  closing_kind : closing.kind = .mark .rightBrace

variable {ts : List Token}

/-! ### Parts that are left out -/

/-- An element that may be left out is left out before a token that cannot begin it. -/
private theorem parts_skip {e : Element Category} {es : List (Element Category)} {t : Token}
    {v : e.Value Category.Value} {vs : Values Category.Value es}
    (hp : Parts (Reads language) (e :: es) (t :: ts) (v, vs))
    (hne : e.symbol ≠ .node (.one .compilationUnit) ∧ e.symbol ≠ .node (.run .compilationUnit))
    (ht : language.symbolMayStart t.kind e.symbol = false) :
    e.absent? = some v ∧ Parts (Reads language) es (t :: ts) vs := by
  have hin : ∀ h, e.symbol = .node h → Inner language h := by
    intro h hs
    rw [hs] at hne
    cases h with
    | one c => exact fun hc : c = .compilationUnit ↦ hne.1 (by rw [hc])
    | run c => exact fun hc : c = .compilationUnit ↦ hne.2 (by rw [hc])
  rcases hp with ⟨us, ws, x, heq, hx, -, -⟩ | h
  · obtain ⟨u, us, rfl⟩ := List.exists_cons_of_ne_nil (hx.matches.ne_nil language_lawful hin)
    obtain ⟨rfl, -⟩ := List.cons.inj heq
    have hstart := hx.matches.symbolMayStart language_lawful fun h hs ↦ .inr (hin h hs)
    rw [ht] at hstart
    cases hstart
  · exact h

/-- What belongs to a category as a whole is read as a run of one. -/
private theorem reads_run_whole {c : Category} {vs : List c.Value}
    (hm : Matches language (.node (.one c)) ts) (hr : Reads language (.node (.run c)) ts vs) :
    ∃ v, vs = [v] ∧ Reads language (.node (.one c)) ts v := by
  have first : (language.productions (.run c))[0]? = some _ := rfl
  obtain ⟨⟨v, _⟩, rfl, hall⟩ := hr.first_inv first (fun q hq ↦ by cases hq) (spans_alone.mpr hm)
  exact ⟨v, rfl, parts_alone.mp hall.parts_reads⟩

namespace Holder

variable (h : Holder)

/-- The tokens that declare the variable. -/
def declarator : List Token := h.var :: h.sign :: h.value

/-- The tokens of the field. -/
def field : List Token := h.type :: (h.declarator ++ [h.semicolon])

/-- The tokens of the body of the class. -/
def body : List Token := h.opening :: (h.field ++ [h.closing])

/-- All tokens. -/
def tokens : List Token := h.word :: h.name :: h.body

theorem declarator_matches : Matches language (.node (.one .declarator)) h.declarator := by
  have hinit : Matches language (.node (.one .initPart)) (h.sign :: h.value) :=
    matches_node.mpr ⟨_, List.mem_of_getElem? (i := 0) rfl, spans_need_tok.mpr ⟨_, _, rfl, h.sign_kind,
      spans_alone.mpr (matches_of_lifts (n := 1) (by decide) h.value_matches)⟩⟩
  refine matches_node.mpr ⟨_, List.mem_of_getElem? (i := 0) rfl, ?_⟩
  refine spans_need_tok.mpr ⟨_, _, rfl, h.var_kind, spans_cons.mpr (.inr ⟨rfl, ?_⟩)⟩
  exact spans_cons.mpr (.inl ⟨_, [], (List.append_nil _).symm, hinit, spans_nil.mpr rfl⟩)

theorem field_matches : Matches language (.node (.one .fieldDecl)) h.field := by
  have htype : Matches language (.node (.one .type)) [h.type] := by
    have hbare : Matches language (.node (.one .bareType)) [h.type] :=
      matches_of_lifts (n := 1) (by decide) (matches_classType h.type_kind)
    exact matches_node.mpr ⟨_, List.mem_of_getElem? (i := 0) rfl, spans_need.mpr ⟨_, [], rfl, hbare,
        spans_cons.mpr (.inr ⟨rfl, spans_nil.mpr rfl⟩)⟩⟩
  have hdeclarators : Matches language (.node (.one .declarators)) h.declarator :=
    matches_node.mpr ⟨_, List.mem_of_getElem? (i := 0) rfl, spans_need.mpr ⟨_, [],
      (List.append_nil _).symm, h.declarator_matches, spans_cons.mpr (.inr ⟨rfl, spans_nil.mpr rfl⟩)⟩⟩
  refine matches_node.mpr ⟨_, List.mem_of_getElem? (i := 0) rfl, spans_cons.mpr (.inr ⟨rfl, ?_⟩)⟩
  exact spans_need.mpr ⟨[h.type], _, rfl, htype, spans_need.mpr ⟨_, _, rfl, hdeclarators,
    spans_need_tok.mpr ⟨_, _, rfl, h.semicolon_kind, spans_nil.mpr rfl⟩⟩⟩

private theorem member_matches : Matches language (.node (.one .member)) h.field :=
  matches_of_lifts (n := 1) (by decide) h.field_matches

private theorem matches_run {c : Category} (hm : Matches language (.node (.one c)) ts) :
    Matches language (.node (.run c)) ts :=
  matches_node.mpr ⟨_, List.mem_of_getElem? (i := 0) rfl, spans_alone.mpr hm⟩

private theorem classDecl_matches : Matches language (.node (.one .classDecl)) h.tokens := by
  have hbody : Matches language (.node (.one .classBody)) h.body :=
    matches_node.mpr ⟨_, List.mem_of_getElem? (i := 0) rfl, spans_need_tok.mpr ⟨_, _, rfl,
      h.opening_kind, spans_cons.mpr (.inl ⟨_, _, rfl, matches_run h.member_matches,
        spans_need_tok.mpr ⟨_, _, rfl, h.closing_kind, spans_nil.mpr rfl⟩⟩)⟩⟩
  refine matches_node.mpr ⟨_, List.mem_of_getElem? (i := 0) rfl, spans_cons.mpr (.inr ⟨rfl, ?_⟩)⟩
  refine spans_need_tok.mpr ⟨_, _, rfl, h.word_kind, spans_need_tok.mpr ⟨_, _, rfl, h.name_kind, ?_⟩⟩
  refine spans_cons.mpr (.inr ⟨rfl, spans_cons.mpr (.inr ⟨rfl, spans_cons.mpr (.inr ⟨rfl, ?_⟩)⟩)⟩)
  exact spans_alone.mpr hbody

private theorem typeDecl_matches : Matches language (.node (.one .typeDecl)) h.tokens :=
  matches_of_lifts (n := 1) (by decide) h.classDecl_matches

/-- The class is a source file. -/
theorem matches_tokens : Matches language (.node (.one .compilationUnit)) h.tokens := by
  refine matches_node.mpr ⟨_, List.mem_of_getElem? (i := 0) rfl, ?_⟩
  refine spans_cons.mpr (.inr ⟨rfl, spans_cons.mpr (.inr ⟨rfl, spans_cons.mpr (.inl ?_)⟩)⟩)
  exact ⟨_, [], (List.append_nil _).symm, matches_run h.typeDecl_matches, spans_nil.mpr rfl⟩

/-! ### What is read -/

variable {h}

private theorem reads_initPart {s : Token} {e : Expr} (hm : Matches language (.node (.one .expr)) ts)
    (hr : Reads language (.node (.one .initPart)) (s :: ts) e) :
    Reads language (.node (.one .expr)) ts e := by
  obtain ⟨p, hp, vs, rfl, hparts⟩ := hr.node_inv
  obtain rfl := List.mem_singleton.mp hp
  obtain ⟨x, v, _⟩ := vs
  obtain ⟨us, heq, -, hvalue⟩ := parts_tok.mp hparts
  obtain ⟨-, rfl⟩ := List.cons.inj heq
  -- Of the two kinds of values an expression is read first.
  have first : (language.productions (.one .varInit))[0]? = some _ := rfl
  obtain ⟨⟨e, _⟩, rfl, hall⟩ := (parts_alone.mp hvalue).first_inv first (fun q hq ↦ by cases hq)
    (spans_alone.mpr hm)
  exact parts_alone.mp hall.parts_reads

private theorem reads_declarator {d : Declarator}
    (hr : Reads language (.node (.one .declarator)) h.declarator d) :
    ∃ l e, d = ⟨l, h.var.text, 0, some e⟩ ∧ Reads language (.node (.one .expr)) h.value e := by
  obtain ⟨p, hp, vs, rfl, hparts⟩ := hr.node_inv
  obtain rfl := List.mem_singleton.mp hp
  obtain ⟨x, dims, init, _⟩ := vs
  obtain ⟨ws, heq, -, hdims⟩ := parts_tok.mp hparts
  obtain ⟨rfl, rfl⟩ := List.cons.inj heq
  obtain ⟨hnone, hinit⟩ := parts_skip hdims (by decide) (by rw [h.sign_kind]; decide)
  obtain rfl : [] = dims := Option.some.inj hnone
  rcases parts_maybe.mp hinit with ⟨us, ws, e, hcut, he, rfl, hnil⟩ | ⟨-, hnil⟩
  · obtain rfl := parts_nil.mp hnil
    rw [List.append_nil] at hcut
    subst hcut
    exact ⟨_, e, rfl, reads_initPart h.value_matches he⟩
  · cases hnil

private theorem reads_declarators {ds : List Declarator}
    (hr : Reads language (.node (.one .declarators)) h.declarator ds) :
    ∃ l e, ds = [⟨l, h.var.text, 0, some e⟩] ∧ Reads language (.node (.one .expr)) h.value e := by
  obtain ⟨p, hp, vs, rfl, hparts⟩ := hr.node_inv
  obtain rfl := List.mem_singleton.mp hp
  obtain ⟨d, ds, _⟩ := vs
  obtain ⟨us, ws, heq, hd, hparts⟩ := parts_need.mp hparts
  rcases parts_many.mp hparts with ⟨xs, ys, rfl, hxs, hnil⟩ | ⟨rfl, hnil⟩
  · obtain rfl := parts_nil.mp hnil
    rw [List.append_nil] at heq
    exact absurd hxs.matches
      (not_declarators h.var_kind h.sign_kind h.value_matches heq hd.matches)
  · obtain rfl := parts_nil.mp hnil
    rw [List.append_nil] at heq
    subst heq
    obtain ⟨l, e, rfl, he⟩ := reads_declarator hd
    exact ⟨l, e, rfl, he⟩

private theorem reads_field {d : VarDecl} (hr : Reads language (.node (.one .fieldDecl)) h.field d) :
    ∃ l lt l' e, d = ⟨l, ⟨h.type.text, [], 0, some lt⟩, [⟨l', h.var.text, 0, some e⟩], [], []⟩ ∧
      Reads language (.node (.one .expr)) h.value e := by
  obtain ⟨p, hp, vs, rfl, hparts⟩ := hr.node_inv
  obtain rfl := List.mem_singleton.mp hp
  obtain ⟨items, t, ds, s, _⟩ := vs
  obtain ⟨hnone, htype⟩ := parts_skip hparts (by decide) (by rw [h.type_kind]; decide)
  obtain rfl : [] = items := Option.some.inj hnone
  obtain ⟨us, ws, heq, ht, hds⟩ := parts_need.mp htype
  obtain ⟨u, us, rfl⟩ := List.exists_cons_of_ne_nil <|
    ht.matches.ne_nil language_lawful fun _ hs ↦ by cases hs; exact inner_of_ne (by decide)
  obtain ⟨rfl, htail⟩ := List.cons.inj heq
  cases us with
  | cons u us =>
    obtain ⟨rfl, -⟩ := List.cons.inj htail
    exact absurd ht.matches (not_type_of_names h.type_kind h.var_kind)
  | nil =>
    obtain ⟨xs, ys, rfl, hxs, hs⟩ := parts_need.mp hds
    obtain ⟨ys, rfl, -, hnil⟩ := parts_tok.mp hs
    obtain rfl := parts_nil.mp hnil
    have hends : h.declarator ++ [h.semicolon] = xs ++ [s] := htail
    obtain ⟨rfl, -⟩ := List.append_inj' hends rfl
    obtain ⟨lt, rfl⟩ := reads_type h.type_kind ht
    obtain ⟨l', e, rfl, he⟩ := reads_declarators hxs
    exact ⟨_, lt, l', e, rfl, he⟩

/-- The class that is read, with the locations of its parts, if the variable is initialized with `e`. -/
def classOf (h : Holder) (l : Location) (lf lt lv : Location) (e : Expr) : TypeDecl :=
  ⟨l, .classType, h.name.text,
    [.field ⟨lf, ⟨h.type.text, [], 0, some lt⟩, [⟨lv, h.var.text, 0, some e⟩], [], []⟩], [], [], [], []⟩

private theorem reads_body {ms : List Member}
    (hr : Reads language (.node (.one .classBody)) h.body ms) :
    ∃ lf lt lv e, ms = [.field ⟨lf, ⟨h.type.text, [], 0, some lt⟩, [⟨lv, h.var.text, 0, some e⟩], [],
      []⟩] ∧ Reads language (.node (.one .expr)) h.value e := by
  obtain ⟨p, hp, vs, rfl, hparts⟩ := hr.node_inv
  obtain rfl := List.mem_singleton.mp hp
  obtain ⟨x, ms, y, _⟩ := vs
  obtain ⟨ws, heq, -, hmembers⟩ := parts_tok.mp hparts
  obtain ⟨-, rfl⟩ := List.cons.inj heq
  rcases parts_many.mp hmembers with ⟨us, ws, hcut, hms, hclose⟩ | ⟨-, hclose⟩
  · obtain ⟨ws, rfl, -, hnil⟩ := parts_tok.mp hclose
    obtain rfl := parts_nil.mp hnil
    obtain ⟨rfl, -⟩ := List.append_inj' hcut rfl
    obtain ⟨m, rfl, hm⟩ := reads_run_whole h.member_matches hms
    have first : (language.productions (.one .member))[0]? = some _ := rfl
    obtain ⟨⟨d, _⟩, rfl, hall⟩ := hm.first_inv first (fun q hq ↦ by cases hq)
      (spans_alone.mpr h.field_matches)
    obtain ⟨lf, lt, lv, e, rfl, he⟩ := reads_field (parts_alone.mp hall.parts_reads)
    exact ⟨lf, lt, lv, e, rfl, he⟩
  · obtain ⟨ws, hcut, -, hnil⟩ := parts_tok.mp hclose
    obtain rfl := parts_nil.mp hnil
    simpa [field] using congrArg List.length hcut

private theorem reads_class {d : TypeDecl}
    (hr : Reads language (.node (.one .classDecl)) h.tokens d) :
    ∃ l lf lt lv e, d = h.classOf l lf lt lv e ∧ Reads language (.node (.one .expr)) h.value e := by
  obtain ⟨p, hp, vs, rfl, hparts⟩ := hr.node_inv
  obtain rfl := List.mem_singleton.mp hp
  obtain ⟨items, w, n, params, parent, interfaces, ms, _⟩ := vs
  obtain ⟨hitems, hparts⟩ := parts_skip hparts (by decide) (by rw [h.word_kind]; decide)
  obtain ⟨ws, heq, -, hparts⟩ := parts_tok.mp hparts
  obtain ⟨rfl, rfl⟩ := List.cons.inj heq
  obtain ⟨ws, heq, -, hparts⟩ := parts_tok.mp hparts
  obtain ⟨rfl, rfl⟩ := List.cons.inj heq
  obtain ⟨-, hparts⟩ := parts_skip hparts (by decide) (by rw [h.opening_kind]; decide)
  obtain ⟨hparent, hparts⟩ := parts_skip hparts (by decide) (by rw [h.opening_kind]; decide)
  obtain ⟨hinterfaces, hparts⟩ := parts_skip hparts (by decide) (by rw [h.opening_kind]; decide)
  obtain ⟨lf, lt, lv, e, rfl, he⟩ := reads_body (parts_alone.mp hparts)
  obtain rfl : [] = items := Option.some.inj hitems
  obtain rfl : none = parent := Option.some.inj hparent
  obtain rfl : none = interfaces := Option.some.inj hinterfaces
  exact ⟨_, lf, lt, lv, e, rfl, he⟩

/-- What is read is the class and its field, initialized with what is read of the value. -/
theorem reads_unit {unit : CompilationUnit}
    (hr : Reads language (.node (.one .compilationUnit)) h.tokens unit) :
    ∃ l lc lf lt lv e, unit = ⟨l, none, [], [h.classOf lc lf lt lv e]⟩ ∧
      Reads language (.node (.one .expr)) h.value e := by
  obtain ⟨p, hp, vs, rfl, hparts⟩ := hr.node_inv
  obtain rfl := List.mem_singleton.mp hp
  obtain ⟨package, imports, types, _⟩ := vs
  obtain ⟨hpackage, hparts⟩ := parts_skip hparts (by decide) (by rw [h.word_kind]; decide)
  obtain ⟨himports, hparts⟩ := parts_skip hparts (by decide) (by rw [h.word_kind]; decide)
  rcases parts_many.mp hparts with ⟨us, ws, heq, hds, hnil⟩ | ⟨-, hnil⟩
  · obtain rfl := parts_nil.mp hnil
    rw [List.append_nil] at heq
    subst heq
    obtain ⟨d, rfl, hd⟩ := reads_run_whole h.typeDecl_matches hds
    have first : (language.productions (.one .typeDecl))[0]? = some _ := rfl
    obtain ⟨⟨d, _⟩, rfl, hall⟩ := hd.first_inv first (fun q hq ↦ by cases hq)
      (spans_alone.mpr h.classDecl_matches)
    obtain ⟨lc, lf, lt, lv, e, rfl, he⟩ := reads_class (parts_alone.mp hall.parts_reads)
    obtain rfl : none = package := Option.some.inj hpackage
    obtain rfl : [] = imports := Option.some.inj himports
    exact ⟨_, lc, lf, lt, lv, e, rfl, he⟩
  · cases hnil

end Holder

end GuardLint.Syntax
