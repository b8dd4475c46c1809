import GuardLint.Proofs.Grammar.Reading
import GuardLint.Syntax.Parse

/-!
# The language is lawful

The grammar of source files obeys the laws of grammars, so a source text parses exactly if its
tokens have a preferred derivation, and its tree is the value of that derivation.
-/

namespace GuardLint.Syntax

open Grammar

namespace Category

/-- Every category. -/
def all : List Category :=
  [.compilationUnit, .packageDecl, .importDecl, .importAll, .qualifiedName, .dotName,
   .modifierItem, .modifier, .annotationUse, .annotationArgs, .elementPair, .commaElementPair,
   .elementValue, .commaElementValue, .elementValues, .elementArray, .typeDecl, .classDecl,
   .interfaceDecl, .enumDecl, .superclass, .interfaces, .superinterfaces, .typeList, .commaType,
   .typeParams, .typeParam, .commaTypeParam, .typeBound, .furtherBound, .classBody, .enumBody,
   .enumConstants, .enumConstant, .commaEnumConstant, .enumMembers, .member, .fieldDecl,
   .methodDecl, .methodBody, .constructorDecl, .initializer, .resultType, .formalParams,
   .formalParamList, .formalParam, .commaFormalParam, .throwsClause, .declarators, .declarator,
   .commaDeclarator, .initPart, .varInit, .commaVarInit, .varInits, .arrayInit, .type, .bareType,
   .primitiveType, .classType, .classTypePart, .dotTypePart, .typeArgs, .typeArgList, .typeArg,
   .commaTypeArg, .wildcard, .dim, .block, .blockStmt, .localVars, .statement, .elsePart,
   .forInit, .statementExprs, .commaStatementExpr, .resources, .resource, .furtherResource,
   .catchClause, .catchType, .furtherCatchType, .finallyClause, .assertMessage, .switchBody,
   .switchLabel, .switchItem, .statementExpr, .expr, .assignment, .assign, .assignTarget,
   .assignOp, .lambda, .lambdaParams, .lambdaParamList, .lambdaParam, .commaLambdaParam,
   .conditional, .logicOr, .logicAnd, .bitOr, .bitXor, .bitAnd, .equality, .relational,
   .relationalOp, .shift, .shiftOp, .additive, .multiplicative, .unary, .unsignedUnary, .preStep,
   .stepOp, .cast, .postfixExpr, .postStep, .primary, .paren, .thisRef, .superRef, .name,
   .fieldAccess, .methodCall, .arrayAccess, .newObject, .newArray, .dimExpr, .classLiteral,
   .methodRef, .refName, .arguments, .exprs, .commaExpr, .literal]

theorem mem_all (c : Category) : c ∈ all := by
  cases c <;> decide +kernel

end Category

/-- Every kind of token. -/
def Kind.all : List Kind :=
  [.number, .name, .char, .string] ++ Keyword.all.map .word ++ Mark.all.map .mark

theorem Kind.mem_all (k : Kind) : k ∈ Kind.all := by
  cases k with
  | number | name | char | string => decide
  | word k => cases k <;> decide +kernel
  | mark m => cases m <;> decide +kernel

/-- The length of the longest chain of categories that stand alone for each other below one, up to
some length. -/
def Category.rank : (limit : Nat) → Category → Nat
  | 0, _ => 0
  | limit + 1, c =>
    ((rules c).flatMap fun p ↦ standAlone p.elements).foldl
      (fun n d ↦ max n (rank limit d + 1)) 0

/-- What the laws of a grammar ask of the productions of a category. -/
private theorem language_checked : ∀ c ∈ Category.all,
    (c ≠ .compilationUnit → ∀ p ∈ c.rules, ∃ e ∈ p.elements, e.optional = false) ∧
    (∀ p ∈ c.rules, ∀ e ∈ p.elements,
      e.symbol ≠ .node (.one .compilationUnit) ∧ e.symbol ≠ .node (.run .compilationUnit)) ∧
    2 * c.rank 40 + 1 < 2000 ∧
    ∀ p ∈ c.rules, ∀ d ∈ standAlone p.elements, d.rank 40 < c.rank 40 := by
  decide +kernel

/-- The kinds of token that may begin a symbol. -/
def Category.starters : Symbol Category → List Kind
  | .tok k => [k]
  | .node (.one c) | .node (.run c) => Kind.all.filter c.mayStart

theorem Category.mem_starters {k : Kind} {s : Symbol Category}
    (h : language.symbolMayStart k s = true) : k ∈ starters s := by
  cases s with
  | tok k' => exact List.mem_singleton.mpr (beq_iff_eq.mp h)
  | node head =>
    cases head with
    | one c | run c => exact List.mem_filter.mpr ⟨k.mem_all, h⟩

/-- What may come first in a production begins with no token that its category may not begin. -/
private theorem starts_checked : ∀ c ∈ Category.all, ∀ p ∈ c.rules, ∀ s ∈ firsts p.elements,
    ∀ k ∈ Category.starters s, c.mayStart k = true := by
  decide +kernel

/-- The grammar of source files is lawful. -/
theorem language_lawful : Lawful language where
  solid c := (language_checked c c.mem_all).1
  fresh c := (language_checked c c.mem_all).2.1
  starts c p hp k hk := by
    obtain ⟨s, hs, hks⟩ := elementsMayStart_iff.mp hk
    exact starts_checked c c.mem_all p hp s hs k (Category.mem_starters hks)
  finite := ⟨Category.all, Category.mem_all, by decide +kernel⟩
  ranked := ⟨Category.rank 40, fun c ↦ (language_checked c c.mem_all).2.2.1,
    fun c p hp _ _ _ hes ho d hd ↦
      (language_checked c c.mem_all).2.2.2 p hp d (mem_standAlone hes ho hd)⟩

/-- Every category but that of whole texts is a part of a text. -/
theorem inner_of_ne {c : Category} (hc : c ≠ .compilationUnit) : Inner language (.one c) := hc

/-- A source text parses if it is cut into tokens to its end and these have a preferred derivation;
the tree is its value. -/
theorem CompilationUnit.parse_eq_ok {source : List Char} {unit : CompilationUnit} :
    CompilationUnit.parse source = .ok unit ↔
      ∃ tokens, Token.ofSource source = (tokens, none) ∧
        Reads language (.node (.one .compilationUnit)) tokens unit := by
  unfold CompilationUnit.parse
  obtain ⟨tokens, stray⟩ := Token.ofSource source
  have hread : (∃ chart, Grammar.chart language tokens = .ok chart ∧
      reading language tokens chart = some unit) ↔
        Reads language (.node (.one .compilationUnit)) tokens unit :=
    chart_reading_iff language_lawful
  simp only [Prod.mk.injEq]
  constructor
  · intro h
    split at h
    · cases h
    · next chart hc =>
      split at h
      · cases h
      · split at h
        · next unit' hu =>
          cases h
          exact ⟨tokens, ⟨rfl, rfl⟩, hread.mp ⟨chart, hc, hu⟩⟩
        · cases h
  · rintro ⟨_, ⟨rfl, rfl⟩, hr⟩
    obtain ⟨chart, hc, hu⟩ := hread.mpr hr
    simp only [hc, hu]

end GuardLint.Syntax
