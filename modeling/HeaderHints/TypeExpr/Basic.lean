import HeaderHints.Text.Blank

/-!
# Type expressions

A type is a name applied to arguments. A bare name has none; a union has the name `Union`; a
bracketed list without a name, such as the parameters of a callable, has the empty name; and an
item of a dictionary display pairs a key with a value under the name `:`.

`TypeExpr.render` writes a type the way it is written in a header. Names lose the modules that the
reader of the header does not need, and the capitalised aliases of built-in types become the
built-in names.
-/

namespace HeaderHints

/-- A name applied to arguments. -/
inductive TypeExpr where
  | node (name : Text) (args : List TypeExpr)

/-- Modules whose names are left out in front of the names that they define. -/
abbrev Modules := List Text

namespace TypeExpr

/-! ### Shapes -/

/-- The name that is applied. -/
def name : TypeExpr → Text
  | node name _ => name

/-- The arguments. -/
def args : TypeExpr → List TypeExpr
  | node _ args => args

/-- A bare name. -/
def leaf (name : Text) : TypeExpr :=
  node name []

/-- Whether a type has no arguments. -/
def isLeaf (t : TypeExpr) : Bool :=
  t.args.isEmpty

/-- One of several types. -/
def union (args : List TypeExpr) : TypeExpr :=
  node "Union".toList args

/-- A type or `None`. -/
def optional (inner : TypeExpr) : TypeExpr :=
  union [inner, leaf "None".toList]

/-- An item of a dictionary display. -/
def pair (key value : TypeExpr) : TypeExpr :=
  node [':'] [key, value]

/-! ### Names -/

/-- Aliases of built-in types. -/
def aliases : List Text :=
  ["List".toList, "Set".toList, "Type".toList, "Dict".toList, "Tuple".toList, "Overload".toList]

/-- The modules that every header leaves out. -/
def typingModules : Modules :=
  ["typing".toList, "mypy_extensions".toList]

/-- A name without the module before its first `separator`, if that is one of `modules`. -/
def unqualified? (modules : Modules) (separator : Char) (name : Text) : Option Text :=
  match Text.cut? separator name with
  | some (module, rest) => if modules.contains module then some rest else none
  | none => none

/-- A name without a typing module, which may end in a dot or a colon. -/
def untyped (name : Text) : Text :=
  (unqualified? typingModules '.' name <|> unqualified? typingModules ':' name).getD name

/-- How a name is written where `modules` are left out. -/
def displayName (modules : Modules) (name : Text) : Text :=
  let short := untyped ((unqualified? modules '.' name).getD name)
  if aliases.contains short then short.map Char.toLower else short

/-! ### Rendering -/

/-- A name with the texts of its arguments. -/
def applied (name : Text) (args : List Text) : Text :=
  if args.isEmpty then
    if name.isEmpty then "[]".toList else name
  else if name = "Union".toList then
    " | ".toList.intercalate args
  else if name = [':'] then
    ": ".toList.intercalate args
  else
    name ++ ['['] ++ ", ".toList.intercalate args ++ [']']

mutual

/-- The text of a type. -/
def render (modules : Modules) : TypeExpr → Text
  | node name args => applied (displayName modules name) (renderAll modules args)

/-- The texts of several types. -/
def renderAll (modules : Modules) : List TypeExpr → List Text
  | [] => []
  | t :: ts => render modules t :: renderAll modules ts

end

@[simp] theorem renderAll_eq_map (modules : Modules) (ts : List TypeExpr) :
    renderAll modules ts = ts.map (render modules) := by
  induction ts with
  | nil => simp [renderAll]
  | cons t ts ih => simp [renderAll, ih]

end TypeExpr

end HeaderHints
