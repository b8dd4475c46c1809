import GuardLint.Proofs.Grammar.Gather
import GuardLint.Proofs.Scope.TypeName
import GuardLint.Proofs.Syntax.Expression
import GuardLint.Proofs.Syntax.Language
import GuardLint.Proofs.Syntax.Segment

/-!
# The characters in the names of types

The names of types in a source file are made of names and reserved words of the text, with dots
between them. So none has a character that no such token has.
-/

namespace GuardLint.Syntax

open Grammar

/-! ### Names of the text -/

/-- A text without the character that sets off a variable from its class. -/
def Unkeyed (text : String) : Prop := '#' ∉ text.toList

/-- A token is spelled with characters of names if it is one, or a reserved word. -/
def Kind.Spells : Kind → Token → Prop
  | .name | .word _ => fun t ↦ Unkeyed t.text
  | _ => fun _ ↦ True

theorem unkeyed_append {a b : String} : Unkeyed (a ++ b) ↔ Unkeyed a ∧ Unkeyed b := by
  simp only [Unkeyed, String.toList_append, List.mem_append, not_or]

theorem unkeyed_intercalate (parts : List String) :
    Unkeyed (".".intercalate parts) ↔ ∀ p ∈ parts, Unkeyed p := by
  have hdot : Unkeyed "." := by simp [Unkeyed]
  match parts with
  | [] => simp [Unkeyed]
  | [p] => simp
  | p :: q :: parts =>
    rw [String.intercalate_cons_cons, unkeyed_append, unkeyed_append,
      unkeyed_intercalate (q :: parts), List.forall_mem_cons (a := p)]
    simp only [hdot, and_true]

theorem unkeyed_void : Unkeyed "void" := by simp [Unkeyed]

namespace TypeName

/-! ### Parts -/

/-- The names of types in a declaration or an expression before a body. -/
def ofSetup : Setup → List String
  | .vars d => ofVars d
  | .expr e => ofExpr e

/-- The names of types in a `catch` clause. -/
def ofCatch (c : CatchClause) : List String := c.types.map TypeRef.name ++ ofBlock c.body

/-- The names of types in an item of a `switch`. -/
def ofItem : SwitchItem → List String
  | .label e => ofExpr? e
  | .stmt s => ofStmt s

/-! ### Categories -/

/-- The names of types in a value of a category. -/
def ofCategory : (c : Category) → c.Value → List String
  | .compilationUnit => ofUnit
  | .packageDecl | .qualifiedName | .dotName => fun n ↦ [n]
  | .importDecl => fun i ↦ [i.name]
  | .typeDecl => fun d ↦ d.toList.flatMap ofType
  | .classDecl | .interfaceDecl | .enumDecl => ofType
  | .classBody | .enumMembers => ofMembers
  | .enumBody => fun b ↦ ofConstants b.1 ++ ofMembers b.2
  | .enumConstants => ofConstants
  | .enumConstant | .commaEnumConstant => ofConstant
  | .member => fun m ↦ m.toList.flatMap ofMember
  | .initializer => ofMember
  | .fieldDecl | .localVars => ofVars
  | .methodDecl | .constructorDecl => ofMethod
  | .methodBody => ofBlock?
  | .formalParams | .formalParamList | .lambdaParams | .lambdaParamList => List.flatMap ofParam
  | .formalParam | .commaFormalParam | .lambdaParam | .commaLambdaParam => ofParam
  | .declarators => ofDeclarators
  | .declarator | .commaDeclarator => fun d ↦ ofExpr? d.init
  | .resultType | .type | .bareType | .primitiveType | .classType | .furtherCatchType =>
    fun t ↦ [t.name]
  | .catchType => List.map TypeRef.name
  | .classTypePart | .dotTypePart => fun p ↦ [p.1]
  | .block | .finallyClause => ofBlock
  | .blockStmt | .statement | .elsePart => ofStmt
  | .forInit | .resources => ofSetups
  | .resource | .furtherResource => ofSetup
  | .catchClause => ofCatch
  | .switchBody => ofItems
  | .switchLabel | .switchItem => ofItem
  | .varInits | .statementExprs | .arguments | .exprs => ofExprs
  | .initPart | .varInit | .commaVarInit | .arrayInit | .commaStatementExpr
  | .assertMessage | .statementExpr | .expr | .assignment | .assign | .assignTarget | .lambda
  | .conditional | .logicOr | .logicAnd | .bitOr | .bitXor | .bitAnd | .equality | .relational
  | .shift | .additive | .multiplicative | .unary | .unsignedUnary | .preStep | .cast
  | .postfixExpr | .postStep | .primary | .paren | .thisRef | .superRef | .name | .fieldAccess
  | .methodCall | .arrayAccess | .newObject | .newArray | .dimExpr | .classLiteral | .methodRef
  | .commaExpr | .literal => ofExpr
  | _ => fun _ ↦ []

theorem ofConstants_eq (cs : List EnumConstant) : ofConstants cs = cs.flatMap ofConstant := by
  induction cs with
  | nil => rw [ofConstants, List.flatMap_nil]
  | cons c cs ih => rw [ofConstants, ih, List.flatMap_cons]

theorem ofStmts_eq (ss : List Stmt) : ofStmts ss = ss.flatMap ofStmt := by
  induction ss with
  | nil => rw [ofStmts, List.flatMap_nil]
  | cons s ss ih => rw [ofStmts, ih, List.flatMap_cons]

theorem ofSetups_eq (ss : List Setup) : ofSetups ss = ss.flatMap ofSetup := by
  induction ss with
  | nil => rw [ofSetups, List.flatMap_nil]
  | cons s ss ih => cases s <;> rw [ofSetups, ih, List.flatMap_cons, ofSetup]

theorem ofCatches_eq (cs : List CatchClause) : ofCatches cs = cs.flatMap ofCatch := by
  induction cs with
  | nil => rw [ofCatches, List.flatMap_nil]
  | cons c cs ih =>
    obtain ⟨_, _, _, _⟩ := c
    rw [ofCatches, ih, List.flatMap_cons, ofCatch]

theorem ofItems_eq (is : List SwitchItem) : ofItems is = is.flatMap ofItem := by
  induction is with
  | nil => rw [ofItems, List.flatMap_nil]
  | cons i is ih => cases i <;> rw [ofItems, ih, List.flatMap_cons, ofItem]

theorem ofBlock?_eq (b : Option Block) : ofBlock? b = b.toList.flatMap ofBlock := by
  cases b <;> simp [ofBlock?]

theorem ofConstant_mk (l : Location) (n : String) (as : List Expr) (b : Option (List Member)) :
    ofConstant ⟨l, n, as, b⟩ = ofExprs as ++ b.toList.flatMap ofMembers := by
  cases b <;> simp [ofConstant]

theorem ofExpr_newObject (l : Location) (t : TypeRef) (as : List Expr) (b : Option (List Member)) :
    ofExpr (.newObject l t as b) = t.name :: (ofExprs as ++ b.toList.flatMap ofMembers) := by
  cases b <;> simp [ofExpr]

theorem ofStmt_ifElse (l : Location) (c : Expr) (s : Stmt) (e : Option Stmt) :
    ofStmt (.ifElse l c s e) = ofExpr c ++ ofStmt s ++ e.toList.flatMap ofStmt := by
  cases e <;> simp [ofStmt]

/-- The names of types in a value have no character that no name of the text has. -/
structure Named (c : Category) (v : c.Value) : Prop where
  unkeyed : ∀ n ∈ ofCategory c v, Unkeyed n

theorem named_iff {c : Category} {v : c.Value} :
    Named c v ↔ ∀ n ∈ ofCategory c v, Unkeyed n := ⟨Named.unkeyed, .mk⟩

theorem forall_mem_getD {α : Type} {o : Option (List α)} {p : α → Prop} :
    (∀ x ∈ o.getD [], p x) ↔ ∀ xs ∈ o, ∀ x ∈ xs, p x := by
  cases o <;> simp

/-- The names in an expression come from its parts. -/
private theorem named_expression (c : Category) (hc : c.isExpression = true) : ∀ p ∈ c.rules,
    ∀ (l : Location) (vs : Values Category.Value p.elements),
      All Named Kind.Spells p.elements vs → Named c (p.value l vs) := by
  cases c
  all_goals try exact absurd hc Bool.false_ne_true
  all_goals repeat' refine List.forall_mem_cons.mpr ⟨fun l vs h ↦ ?_, ?_⟩
  all_goals
    first
    | exact List.forall_mem_nil _
    -- one part handed on, two parts around an operator, a literal
    | exact ⟨h.1.unkeyed⟩
    | exact ⟨List.forall_mem_append.mpr ⟨h.1.unkeyed, h.2.2.1.unkeyed⟩⟩
    | exact ⟨List.forall_mem_nil _⟩
    | simp only [TypeRef.addDims, Production.value, Action.apply, All, Element.All, Symbol.All,
        named_iff, ofCategory.eq_def, ofExpr, ofExpr_newObject, ofExpr?_eq, ofExprs_eq,
        ofMembers_eq, List.forall_mem_append, List.forall_mem_cons, List.forall_mem_flatMap,
        Option.mem_toList, List.not_mem_nil, false_implies, implies_true, and_true, true_and,
        Option.mem_def, Option.toList_none, Option.toList_some] at h ⊢
      grind

theorem named_value (c : Category) : ∀ p ∈ c.rules, ∀ (l : Location)
    (vs : Values Category.Value p.elements),
      All Named Kind.Spells p.elements vs → Named c (p.value l vs) := by
  by_cases hc : c.isExpression = true
  · exact named_expression c hc
  cases c
  all_goals try exact absurd rfl hc
  -- Most categories hold no names.
  all_goals try exact fun _ _ _ _ _ ↦ ⟨List.forall_mem_nil _⟩
  all_goals repeat' refine List.forall_mem_cons.mpr ⟨fun l vs h ↦ ?_, ?_⟩
  all_goals
    first
    | exact List.forall_mem_nil _
    -- one part handed on, a token for a name
    | exact ⟨h.1.unkeyed⟩
    | exact ⟨List.forall_mem_singleton.mpr h.1⟩
    | simp only [Category.declare, Category.namedType, Category.typeOfParts, TypeRef.addDims,
        Production.value, Action.apply, All, Element.All, Symbol.All, named_iff,
        ofCategory.eq_def, Kind.Spells, ofUnit, ofImport, ofType, ofConstants_eq, ofConstant_mk,
        ofMembers_eq, ofMember, ofMethod, ofVars, ofDeclarators_eq, ofParam, ofBlock?_eq, ofBlock,
        ofStmts_eq, ofStmt, ofStmt_ifElse, ofSetups_eq, ofSetup, ofCatches_eq, ofCatch,
        ofItems_eq, ofItem, ofExpr, ofExpr?_eq, ofExprs_eq, List.forall_mem_append,
        List.forall_mem_cons, List.forall_mem_flatMap, List.forall_mem_map, forall_mem_getD,
        Option.mem_toList, List.not_mem_nil, List.mem_filterMap, false_implies, implies_true,
        and_true, true_and, Option.some.injEq, forall_eq', id_eq, Option.mem_def,
        Option.toList_none, Option.toList_some, unkeyed_intercalate, unkeyed_void] at h ⊢ <;>
      grind

end TypeName

/-! ### Texts -/

theorem Lexer.notMem_of_isNamePart {c : Char} {text : List Char} (hc : isNamePart c = false) :
    c ∉ text.take (run isNamePart text) := by
  rw [run, ← List.prefix_iff_eq_take.mp (List.takeWhile_prefix _)]
  intro h
  rw [List.all_eq_true.mp List.all_takeWhile c h] at hc
  cases hc

/-- A character that is no part of names is not in a name. -/
theorem Lexer.notMem_name {text : List Char} {n : Nat} {c : Char} (h : name text = some n)
    (hstart : isNameStart c = false) (hpart : isNamePart c = false) : c ∉ text.take n := by
  cases text with
  | nil => cases h
  | cons d text =>
    rw [name] at h
    split at h
    · next hd =>
      cases h
      rw [Nat.add_comm, List.take_succ_cons, List.mem_cons, not_or]
      refine ⟨fun heq ↦ ?_, notMem_of_isNamePart hpart⟩
      rw [← heq, hstart] at hd
      cases hd
    · cases h

theorem Lexer.unkeyed_name {text : List Char} {n : Nat} (h : name text = some n) :
    Unkeyed (String.ofList (text.take n)) := by
  rw [Unkeyed, String.toList_ofList]
  exact notMem_name h (by decide) (by decide)

theorem Kind.spells_of_first? {text : List Char} {kind : Kind} {n : Nat} {l : Location}
    (h : Lexer.first? text = some (.token kind, n)) :
    kind.Spells ⟨kind, String.ofList (text.take n), l⟩ := by
  cases kind with
  | name | word =>
    simp only [Lexer.first?_eq_some, Lexeme.Class.token.injEq, reduceCtorEq, and_false, false_and,
      exists_false, false_or, or_false] at h
    exact Lexer.unkeyed_name h.2.2.1
  | number | char | string | mark => trivial

/-- What holds of every token that a text can begin with holds of the tokens of a text. -/
theorem Token.forall_mem_laid {P : Token → Prop}
    (h : ∀ {text : List Char} {kind : Kind} {n : Nat} (l : Location),
      Lexer.first? text = some (.token kind, n) → P ⟨kind, String.ofList (text.take n), l⟩)
    {ps : List Piece} {text : List Char} (hs : Spelled ps text) (at_ : Position) :
    ∀ t ∈ laid at_ ps, P t := by
  induction hs generalizing at_ with
  | nil => exact List.forall_mem_nil _
  | @cons kind piece rest ps hfirst _ ih =>
    cases kind with
    | token kind =>
      rw [laid_token]
      refine List.forall_mem_cons.mpr ⟨?_, ih _⟩
      have hpiece := h ⟨at_, at_.advance piece⟩ hfirst
      rwa [List.take_left] at hpiece
    | comment | blank => exact ih _

/-- No token is empty. -/
theorem Token.text_ne_of_mem_laid {ps : List Piece} {text : List Char} (h : Spelled ps text)
    (at_ : Position) : ∀ t ∈ laid at_ ps, t.text ≠ "" := by
  refine forall_mem_laid (fun {text _ n} l hfirst heq ↦ ?_) h at_
  have htake : text.take n = [] := String.ofList_injective heq
  obtain ⟨hpos, hle⟩ := Lexer.first?_bounds hfirst
  rw [List.take_eq_nil_iff] at htake
  rcases htake with rfl | rfl
  · exact absurd hpos (Nat.lt_irrefl 0)
  · exact absurd (Nat.lt_of_lt_of_le hpos hle) (Nat.lt_irrefl 0)

/-- The tokens of a text are spelled with what their kinds allow. -/
theorem Token.spells_of_mem_laid {ps : List Piece} {text : List Char} (h : Spelled ps text)
    (at_ : Position) : ∀ t ∈ laid at_ ps, t.kind.Spells t :=
  forall_mem_laid (fun _ ↦ Kind.spells_of_first?) h at_

/-- The names of types in a source file have no character that no name has. -/
theorem CompilationUnit.unkeyed_of_parse {source : List Char} {unit : CompilationUnit}
    (h : CompilationUnit.parse source = .ok unit) : ∀ n ∈ TypeName.ofUnit unit, Unkeyed n := by
  obtain ⟨tokens, htokens, hr⟩ := CompilationUnit.parse_eq_ok.mp h
  obtain ⟨ps, hs, rfl⟩ := Token.laid_ofSource htokens
  have hnamed : TypeName.Named .compilationUnit unit :=
    Reads.all (P := TypeName.Named) (fun c p hp l ↦ TypeName.named_value c p hp l) hr
      (Token.spells_of_mem_laid hs _)
  exact hnamed.unkeyed

end GuardLint.Syntax
