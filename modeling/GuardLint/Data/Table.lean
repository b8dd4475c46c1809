/-!
# Tables

Lists of names and values in which each name has one value, in the order in which the names first
came.
-/

namespace GuardLint

/-- A table with a value for a name, in the place of the one it had or at the end. -/
def setValue {α : Type} (table : List (String × α)) (name : String) (value : α) :
    List (String × α) :=
  match table with
  | [] => [(name, value)]
  | (n, v) :: rest => if n = name then (n, value) :: rest else (n, v) :: setValue rest name value

end GuardLint
