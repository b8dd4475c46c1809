/-!
# Problems of a run

What is wrong with a run itself, not with the code it looks at: a short code, a message, and the
path of the file that it is about.
-/

namespace GuardLint

/-- A problem of a run. -/
structure Problem where
  code : String
  message : String
  path : Option String
  deriving DecidableEq, Repr

/-- A problem in words; an empty path is not mentioned. -/
def Problem.render (p : Problem) : String :=
  s!"[{p.code}] {p.message}" ++
    match p.path with
    | some path => if path.isEmpty then "" else " path=" ++ path
    | none => ""

end GuardLint
