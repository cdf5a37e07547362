/-!
# Record notation

Diagnostics show a value as a name with labelled fields between braces, or as a name applied to
one argument.  Both forms are put together here from parts that are already text.
-/

namespace StreamParse.Text

/-- A name with its fields in order: `Name { first: 1, second: 2 }`. -/
def record (name : String) (fields : List (String × String)) : String :=
  let shown := fields.map fun (label, value) => label ++ ": " ++ value
  name ++ " \x7b " ++ ", ".intercalate shown ++ " \x7d"

/-- A name applied to one argument: `Name(argument)`. -/
def applied (name argument : String) : String :=
  name ++ "(" ++ argument ++ ")"

end StreamParse.Text
