import GuardLint.Scope.CallSite
import GuardLint.Semantics.Failure

/-!
# Names in a setting

What a name means depends on the source file, the variables in scope and the classes around. A
dotted name is that of a type as long as it does not begin with a variable and none of its parts
is a field of the type before it.
-/

namespace GuardLint

open Syntax

/-- What the meaning of a piece of code depends on. -/
structure Setting where
  index : UnitIndex
  scope : Scope
  enclosing : Nest

/-- The setting of a call. -/
def CallSite.setting (s : CallSite) (index : UnitIndex) : Setting :=
  ⟨index, s.scope, s.enclosing⟩

namespace Setting

/-- A bound on the number of variables that code in a setting can name. -/
def variableCount (c : Setting) : Nat :=
  c.scope.length + (c.index.classes.flatMap (·.inner.fields)).length +
    (c.enclosing.chain.flatMap (·.fields)).length

/-- The name of the type that an expression names, as it is written, if it names a type. -/
def typeName? (c : Setting) : Expr → Except Unresolved (Option String)
  | .name _ n => .ok (if (c.scope.lookup n).isNone then some n else none)
  | .field _ e n => do
    match ← typeName? c e with
    | none => .ok none
    | some head =>
      match c.index.classNamed? (← c.index.resolveType head) with
      | some k => .ok (if (k.inner.field? n).isSome then none else some (head ++ "." ++ n))
      | none => .ok (some (head ++ "." ++ n))
  | _ => .ok none

/-- The name of a type that is written out, with its dimensions. -/
def typeOfRef (c : Setting) (t : TypeRef) : Except Unresolved String := do
  .ok ((← c.index.resolveType t.name) ++ String.join (List.replicate t.dims "[]"))

/-- The first answer of a search through the classes that some types name, in order. Each class
searched is remembered, and those remembered are handed on. -/
def searchTypes (c : Setting) (className : String)
    (search : ClassInfo → List String → Except Unresolved (Option String × List String)) :
    List TypeRef → List String → Except Unresolved (Option String × List String)
  | [], seen => .ok (none, seen)
  | t :: ts, seen => do
    let fullName ← c.index.resolveType t.name
    match c.index.classNamed? fullName with
    | none => .error (.foreignSupertype className fullName)
    | some n =>
      match ← search n.inner seen with
      | (some owner, seen) => .ok (some owner, seen)
      | (none, seen) => searchTypes c className search ts seen

/-- The class that declares a method of some name, among a class and the classes that it inherits
from, with the classes searched. The search goes depth first and enters no class twice, so it is no
deeper than there are classes. -/
def inheritedFrom (c : Setting) (method : String) :
    (fuel : Nat) → ClassInfo → List String → Except Unresolved (Option String × List String)
  | 0, _, seen => .ok (none, seen)
  | fuel + 1, k, seen =>
    if seen.contains k.fullName then .ok (none, seen)
    else if k.declares method then .ok (some k.fullName, k.fullName :: seen)
    else searchTypes c k.fullName (inheritedFrom c method fuel) k.decl.supertypes
      (k.fullName :: seen)

/-- The class that declares or inherits a method of some name, the innermost of those around. -/
def memberOwner (c : Setting) (method : String) :
    List ClassInfo → Except Unresolved (Option String)
  | [] => .ok none
  | k :: ks => do
    match ← inheritedFrom c method (c.index.classes.length + 2) k [] with
    | (some owner, _) => .ok (some owner)
    | (none, _) => memberOwner c method ks

/-- The class of a call without target: methods of the classes around it hide those imported. -/
def bareOwner (c : Setting) (method : String) : Except Unresolved String := do
  match ← c.memberOwner method c.enclosing.chain with
  | some owner => .ok owner
  | none =>
    match c.index.staticOwners method with
    | [] => .error (.unknownMethod method)
    | [owner] => .ok owner
    | owners => .error (.ambiguousImport method owners)

end Setting

end GuardLint
