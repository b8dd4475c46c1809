import GuardLint.Data.Table
import GuardLint.Scope.ClassInfo
import GuardLint.Scope.Resolution

/-!
# The names of a source file

What a source file says about names: its package, its imports and the classes that it declares.
A type name is looked up among the declared classes, then the single imports, then the imports of
whole packages as far as their types are known, then the types that need no import, and at last in
the package of the file.
-/

namespace GuardLint

open Syntax

/-- The names in a list, each once, in the order in which they first come. -/
def distinct (names : List String) : List String :=
  names.foldl (fun seen n => if seen.contains n then seen else seen ++ [n]) []

/-- What a source file says about names. The classes are listed outer before inner, in the order
of the text; classes in anonymous bodies are not among them. -/
structure UnitIndex where
  package : Option String
  imports : List ImportDecl
  classes : List Nest

namespace UnitIndex

mutual

/-- A class and the classes nested in it as members. -/
def nested (n : Nest) : TypeDecl → List Nest
  | ⟨_, _, _, members, _, _, _, _⟩ => n :: nestedMembers n members

/-- The classes among the members of a class, and those nested in them. -/
def nestedMembers (n : Nest) : List Member → List Nest
  | [] => []
  | .type d :: members => nested (n.member d) d ++ nestedMembers n members
  | _ :: members => nestedMembers n members

end

/-- The nest of a class that no class surrounds. -/
def topLevel (package : Option String) (d : TypeDecl) : Nest :=
  ⟨⟨d, match package with
    | some p => if p.isEmpty then d.name else p ++ "." ++ d.name
    | none => d.name⟩, []⟩

/-- What a source file says about names. -/
def ofUnit (unit : CompilationUnit) : UnitIndex where
  package := unit.package
  imports := unit.imports
  classes := unit.types.flatMap fun d => nested (topLevel unit.package d) d

/-- The types imported one by one: simple name and full name. Of two imports of one simple name
the later counts. -/
def singleImports (x : UnitIndex) : List (String × String) :=
  (x.imports.filter fun i => !i.isStatic && !i.onDemand).foldl
    (fun table i => setValue table (lastPart i.name) i.name) []

/-- The packages imported as a whole. -/
def onDemandImports (x : UnitIndex) : List String :=
  (x.imports.filter fun i => !i.isStatic && i.onDemand).map ImportDecl.name

/-- The text of a name before its last dot, and nothing if it has none. -/
def ownerPart (name : String) : String :=
  String.ofList ((name.toList.reverse.dropWhile (· != '.')).drop 1).reverse

/-- The members imported one by one: name and class, in order. -/
def staticImports (x : UnitIndex) : List (String × String) :=
  (x.imports.filter fun i => i.isStatic && !i.onDemand).map fun i =>
    (lastPart i.name, ownerPart i.name)

/-- The classes whose members are imported as a whole. -/
def staticOnDemandImports (x : UnitIndex) : List String :=
  (x.imports.filter fun i => i.isStatic && i.onDemand).map ImportDecl.name

/-- The first declared class with some full name. -/
def classNamed? (x : UnitIndex) (fullName : String) : Option Nest :=
  x.classes.find? (·.inner.fullName == fullName)

/-- The first declared class with some simple name. -/
def classSimplyNamed? (x : UnitIndex) (name : String) : Option Nest :=
  x.classes.find? (·.inner.decl.name == name)

/-- The types of the language's own package that are known. -/
def coreTypes : List String :=
  ["Boolean", "Byte", "Character", "CharSequence", "Class", "Double", "Enum", "Error", "Exception",
   "Float", "IllegalArgumentException", "IllegalStateException", "Integer", "Iterable", "Long",
   "Math", "NullPointerException", "Number", "Object", "Override", "Runnable", "RuntimeException",
   "Short", "String", "StringBuilder", "System", "Thread", "Throwable", "Void"]

/-- The types of other packages that are known. -/
def libraryTypes : List String :=
  ["com.google.common.base.Preconditions", "com.google.common.base.Strings", "java.util.Objects",
   "java.util.List", "java.util.Map", "java.util.Set", "java.util.Optional",
   "java.util.function.Supplier", "org.apache.commons.lang3.Validate",
   "org.apache.commons.lang3.StringUtils"]

/-- Whether a full name is that of a known type. -/
def isWellKnown (fullName : String) : Bool :=
  libraryTypes.contains fullName || coreTypes.any fun t => "java.lang." ++ t == fullName

/-- The words that name types by themselves. -/
def primitiveNames : List String :=
  ["boolean", "byte", "char", "short", "int", "long", "float", "double", "void"]

/-- The full name of a simple name, as far as anything but the package of the file tells it. A
known type that only the import of a whole package supplies may be hidden by a class of the file's
own package, which cannot be seen. -/
def resolveSimple? (x : UnitIndex) (name : String) : Except Unresolved (Option String) :=
  match x.classSimplyNamed? name with
  | some n => .ok (some n.inner.fullName)
  | none =>
    match x.singleImports.lookup name with
    | some fullName => .ok (some fullName)
    | none =>
      match (x.onDemandImports.map (· ++ "." ++ name)).filter isWellKnown with
      | [candidate] =>
        match x.package with
        | some package =>
          if package.isEmpty then .ok (some candidate)
          else .error (.hiddenType name candidate package)
        | none => .ok (some candidate)
      | _ => .ok (if coreTypes.contains name then some ("java.lang." ++ name) else none)

/-- The full name of a type name as it is written. Of a dotted name the part before the first dot
is resolved; if nothing tells it, the name is taken to be full. -/
def resolveType (x : UnitIndex) (name : String) : Except Unresolved String :=
  if primitiveNames.contains name then .ok name
  else
    let chars := name.toList
    let head := String.ofList (chars.takeWhile (· != '.'))
    match chars.dropWhile (· != '.') with
    | '.' :: rest => do
      match ← x.resolveSimple? head with
      | some fullName => .ok (fullName ++ "." ++ String.ofList rest)
      | none => .ok name
    | _ => do
      match ← x.resolveSimple? name with
      | some fullName => .ok fullName
      | none =>
        match x.package with
        | some package => .ok (if package.isEmpty then name else package ++ "." ++ name)
        | none => .ok name

/-- The classes that a bare method name may come from by static imports; imports of the name itself
come before those of whole classes. -/
def staticOwners (x : UnitIndex) (member : String) : List String :=
  match (x.staticImports.filter (·.1 == member)).map Prod.snd with
  | [] => distinct x.staticOnDemandImports
  | owners => distinct owners

end UnitIndex

end GuardLint
