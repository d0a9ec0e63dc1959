import HeaderHints.TypeExpr.Basic
import HeaderHints.TypeExpr.Reader

/-!
# The grammar of types

```text
type   := single ('|' single)*
single := '[' items ']' | name | name '[' items ']'
items  := (type (',' type)*)? ','?
```

A few names have rules of their own: `Tuple` and `Overload` always take items, the latter in round
brackets; a `Union` of one type is that type; `Optional` of one type is a union with `None`; and
`lambda` is followed by its body, which is taken as it stands. The same grammar reads the inferred
types and the annotations and default values of a header.

The readers below carry a bound on the depth of their calls. One call in four takes a token, so four
times the number of tokens is enough, and the readers without a bound start from there.
-/

namespace HeaderHints.TypeExpr

open Reader

/-- Several types side by side are a union; a single one stands for itself. -/
def ofChoices : List TypeExpr → TypeExpr
  | [t] => t
  | ts => union ts

/-- The word `lambda` with its body. -/
def lambda (body : Text) : TypeExpr :=
  leaf ("lambda".toList ++ (if body.head? = some ':' then body else ' ' :: body))

/-- The body that follows the word `lambda`. -/
def readLambdaBody : Reader Text :=
  Token.text <$> expectKind [.lambdaBody]

mutual

/-- A type without a bar at its top level. -/
def readSingleWithin : Nat → Reader TypeExpr
  | 0 => throw .ranOut
  | n + 1 => do
    if (← peekText) = ['['] then
      return node [] (← readBracketedWithin n ['['] [']'])
    let name := (← expectKind [.dottedName]).text
    if name = "Any".toList then
      return leaf name
    else if name = "mypy_extensions.NoReturn".toList || name = "typing.NoReturn".toList then
      return leaf "NoReturn".toList
    else if name = "Tuple".toList then
      return node name (← readBracketedWithin n ['['] [']'])
    else if name = "Union".toList then
      match ← readBracketedWithin n ['['] [']'] with
      | [] => throw .emptyUnion
      | ts => return ofChoices ts
    else if name = "lambda".toList then
      return lambda (← readLambdaBody)
    else if name = "Overload".toList then
      return node name (← readBracketedWithin n ['('] [')'])
    else if (← peekText) = ['['] then
      match ← readBracketedWithin n ['['] [']'] with
      | [t] => return if name = "Optional".toList then optional t else node name [t]
      | ts => return node name ts
    else
      return leaf name

/-- Items between brackets. -/
def readBracketedWithin : Nat → Text → Text → Reader (List TypeExpr)
  | 0, _, _ => throw .ranOut
  | n + 1, opening, closing => do
    expect opening
    let ts ← readItemsWithin n
    expect closing
    return ts

/-- Types divided by commas, up to a closing bracket. -/
def readItemsWithin : Nat → Reader (List TypeExpr)
  | 0 => throw .ranOut
  | n + 1 => do
    let ahead ← peekText
    if ahead = [')'] || ahead = [']'] then
      return []
    let t := ofChoices (← readChoicesWithin n)
    let ahead ← peekText
    if ahead = [','] then
      expect [',']
      return t :: (← readItemsWithin n)
    else if ahead = [')'] || ahead = [']'] then
      return [t]
    else
      throw (.expectedListEnd ahead)

/-- Single types divided by bars. -/
def readChoicesWithin : Nat → Reader (List TypeExpr)
  | 0 => throw .ranOut
  | n + 1 => do
    let t ← readSingleWithin n
    if (← peekText) = ['|'] then
      expect ['|']
      return t :: (← readChoicesWithin n)
    else
      return [t]

end

/-- Run a bounded reader with a bound that the tokens at hand cannot exhaust. -/
def unbounded {α : Type} (reader : Nat → Reader α) : Reader α := do
  reader (4 * (← get).length + 4)

/-- A type without a bar at its top level. -/
def readSingle : Reader TypeExpr :=
  unbounded readSingleWithin

/-- Types divided by commas, up to a closing bracket. -/
def readItems : Reader (List TypeExpr) :=
  unbounded readItemsWithin

/-- Single types divided by bars. -/
def readChoices : Reader (List TypeExpr) :=
  unbounded readChoicesWithin

/-- One type. -/
def read : Reader TypeExpr :=
  ofChoices <$> readChoices

/-- One type that takes all tokens up to the end token. -/
def readWhole : Reader TypeExpr := do
  let t ← read
  if ← atEnd then return t else throw (.expectedTypeEnd (← peek))

end HeaderHints.TypeExpr
