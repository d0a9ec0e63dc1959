import HeaderHints.TypeExpr.Basic

/-!
# The module of a path

Inside a module its own name is redundant. The module of a file is the name of the file without its
extension, and for the file of a package, `__init__`, the name of the directory around it.
-/

namespace HeaderHints.ModulePath

/-- The parts of a path between slashes, without empty parts and those that stay in place. -/
def parts (path : Text) : List Text :=
  (Text.splitAll '/' path).filter fun part => !part.isEmpty && part ≠ ['.']

/-- The name that a path ends in. A step to the directory above is no name. -/
def lastName? (parts : List Text) : Option Text :=
  parts.getLast?.filter (· ≠ ['.', '.'])

/-- A file name without its extension, which starts at the last dot unless the name starts there. -/
def stem (file : Text) : Text :=
  match Text.cut? '.' file.reverse with
  | some (_, front) => if front.isEmpty then file else front.reverse
  | none => file

/-- The module of a path. -/
def module? (path : Text) : Option Text := do
  let parts := parts path
  let stem := stem (← lastName? parts)
  if stem = "__init__".toList then lastName? parts.dropLast else some stem

/-- The modules that are redundant in the file at a path. -/
def redundant (path? : Option Text) : Modules :=
  (path?.bind module?).toList

end HeaderHints.ModulePath
