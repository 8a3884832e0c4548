import ExplicitNull.Issue
import ExplicitNull.Json.Value

/-!
The listing of issues, as text or as a JSON array with one object for each issue. Both keep the
order of the issues. The JSON form exists only if all paths are text.
-/
namespace ExplicitNull.Report

def nothingFound : Bytes := utf8 "No implicit-nullable typed parameters found."

def entry (n : Nat) (i : Issue) : Bytes :=
  utf8 "---\n#" ++ decimal n ++ utf8 ": " ++ i.file.display ++
  utf8 "  function-occurrence: " ++ decimal i.address.functionIndex ++
  utf8 "  param-index: " ++ decimal i.address.paramIndex ++
  utf8 "  typeStartInBody: " ++ decimal i.typeStart ++ utf8 "\n" ++
  utf8 "    line " ++ decimal i.line ++ utf8 ": " ++ i.typeName ++ utf8 " " ++ i.parameter ++
  utf8 "\n"

def renderText (issues : List Issue) : Bytes :=
  if issues.isEmpty then nothingFound ++ utf8 "\n"
  else
    utf8 "Found " ++ decimal issues.length ++ utf8 " candidate(s):\n" ++
      (issues.mapIdx fun k i => entry (k + 1) i).flatten

def fields (i : Issue) : List (Bytes × Bytes) :=
  [(utf8 "file", Json.quote i.file.raw),
    (utf8 "function_index", decimal i.address.functionIndex),
    (utf8 "param_index", decimal i.address.paramIndex),
    (utf8 "type_start", decimal i.typeStart),
    (utf8 "line", decimal i.line),
    (utf8 "parameter", Json.quote i.parameter),
    (utf8 "type_name", Json.quote i.typeName)]

def object (i : Issue) : Bytes :=
  utf8 "  \x7b\n" ++
    Bytes.joinWith (utf8 ",\n")
      ((fields i).map fun (key, value) => utf8 "    " ++ Json.quote key ++ utf8 ": " ++ value) ++
    utf8 "\n  \x7d"

/-- The JSON form, indented by two spaces a level; `none` if a path is not text. -/
def renderJson? (issues : List Issue) : Option Bytes :=
  if issues.all (Utf8.isValid ·.file.raw) then
    some (if issues.isEmpty then utf8 "[]"
      else utf8 "[\n" ++ Bytes.joinWith (utf8 ",\n") (issues.map object) ++ utf8 "\n]")
  else none

end ExplicitNull.Report
