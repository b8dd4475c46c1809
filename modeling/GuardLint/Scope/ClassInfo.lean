import GuardLint.Scope.Variable

/-!
# Classes

A class body under its full name, with the fields and methods that it declares itself, and the
chain of class bodies around it.
-/

namespace GuardLint

open Syntax

/-- A class body and its full name. -/
structure ClassInfo where
  decl : TypeDecl
  fullName : String

namespace ClassInfo

/-- The fields that a member declares. -/
def memberFields (c : ClassInfo) : Member → List Variable
  | .field d => Variable.ofFields c.fullName c.decl.kind d
  | _ => []

/-- The fields that a class declares, constants of an enum first. Of several with one name the
last counts, in the place of the first. -/
def fields (c : ClassInfo) : List Variable :=
  (c.decl.constants.map (Variable.ofConstant c.fullName) ++
    c.decl.members.flatMap c.memberFields).foldl Variable.put []

/-- The field of some name that a class declares. -/
def field? (c : ClassInfo) (name : String) : Option Variable := c.fields.find? (·.name == name)

/-- A member as a method, constructors aside. -/
def method? : Member → Option MethodDecl
  | .method m => if m.isConstructor then none else some m
  | _ => none

/-- The methods that a class declares. -/
def methods (c : ClassInfo) : List MethodDecl := c.decl.members.filterMap method?

/-- The methods of some name that a class declares. -/
def methodsNamed (c : ClassInfo) (name : String) : List MethodDecl :=
  c.methods.filter (·.name == name)

/-- Whether a class declares a method of some name. -/
def declares (c : ClassInfo) (name : String) : Bool := c.methods.any (·.name == name)

/-- Whether a class carries an annotation with one of some simple names. -/
def annotatedWith (c : ClassInfo) (names : List String) : Bool :=
  c.decl.annotations.any fun a => names.contains a.simpleName

/-- The class body of an anonymous class or of an enum constant. -/
def anonymous (location : Location) (members : List Member) (supertype : Option TypeRef)
    (fullName : String) : ClassInfo :=
  ⟨⟨location, .classType, "", members, [], [], [], supertype.toList⟩, fullName⟩

end ClassInfo

/-- A class body and those around it, the innermost first. -/
structure Nest where
  inner : ClassInfo
  outer : List ClassInfo

namespace Nest

/-- The classes of a nest, the innermost first. -/
def chain (n : Nest) : List ClassInfo := n.inner :: n.outer

/-- The nest of a class body inside the innermost class of another. -/
def push (n : Nest) (c : ClassInfo) : Nest := ⟨c, n.chain⟩

/-- The nest of a member class. -/
def member (n : Nest) (d : TypeDecl) : Nest := n.push ⟨d, n.inner.fullName ++ "." ++ d.name⟩

/-- The scope of the fields of all classes of a nest, those of the innermost class innermost. -/
def fieldScope (n : Nest) : Scope :=
  n.chain.foldr (fun c s => s.bind c.fields) []

/-- Whether some class of a nest declares a method of some name. -/
def declares (n : Nest) (name : String) : Bool := n.chain.any (·.declares name)

end Nest

end GuardLint
