import HeaderHints.TypeExpr.Grammar

/-!
# Collection displays

A default value such as `[]`, `(a,)` or `{k: v}`: items that read as types, between brackets. Braces
hold pairs when a colon comes before the first comma outside inner brackets.
-/

namespace HeaderHints

/-- The shapes of brackets. -/
inductive Bracket where
  | round
  | square
  | curly
deriving DecidableEq

namespace Bracket

/-- The opening bracket. -/
def opening : Bracket → Text
  | round => ['(']
  | square => ['[']
  | curly => ['{']

/-- The closing bracket. -/
def closing : Bracket → Text
  | round => [')']
  | square => [']']
  | curly => ['}']

/-- The shape that a text opens. -/
def ofOpening? (t : Text) : Option Bracket :=
  [round, square, curly].find? (·.opening = t)

end Bracket

/-- Items between brackets, and whether a comma follows the last of them. -/
structure Collection where
  /-- The brackets around the items. -/
  bracket : Bracket
  /-- The items, or pairs of a key and a value. -/
  items : List TypeExpr
  /-- Whether a comma follows the last item. -/
  trailingComma : Bool

namespace Collection

open Reader

/-- The text of a collection. Only a tuple of one item keeps the comma after it. -/
def render (modules : Modules) (c : Collection) : Text :=
  c.bracket.opening ++ ", ".toList.intercalate (c.items.map (TypeExpr.render modules)) ++
    (if c.bracket = .round && c.items.length = 1 && c.trailingComma then [','] else []) ++
    c.bracket.closing

/-- Whether a colon comes before the first comma or the closing bracket, outside the brackets that
open in between. -/
def pairsAhead : Nat → List Token → Bool
  | _, [] => false
  | depth, t :: ts =>
    if t.isOpener then
      pairsAhead (depth + 1) ts
    else if t.isCloser then
      if depth = 0 then false else pairsAhead (depth - 1) ts
    else if depth = 0 && t.text = [':'] then
      true
    else if (depth = 0 && t.text = [',']) || t.kind = .stop then
      false
    else
      pairsAhead depth ts

/-- The items up to the closing bracket, and whether a comma follows the last of them. -/
def readItemsWithin (closing : Text) (pairs : Bool) : Nat → Reader (List TypeExpr × Bool)
  | 0 => throw .ranOut
  | n + 1 => do
    if (← peekText) = closing then
      return ([], false)
    let mut item ← TypeExpr.read
    if pairs then
      expect [':']
      item := .pair item (← TypeExpr.read)
    let ahead ← peekText
    if ahead = [','] then
      expect [',']
      let (items, trailing) ← readItemsWithin closing pairs n
      return (item :: items, items.isEmpty || trailing)
    else if ahead = closing then
      return ([item], false)
    else
      throw (.expectedCloser closing ahead)

/-- A collection display. -/
def read : Reader Collection := do
  let t ← next
  match Bracket.ofOpening? t.text with
  | none => throw (.expectedOpener t.text)
  | some bracket =>
    let ahead ← get
    let pairs := bracket = .curly && pairsAhead 0 ahead
    let (items, trailing) ← readItemsWithin bracket.closing pairs (ahead.length + 1)
    expect bracket.closing
    return ⟨bracket, items, trailing⟩

end Collection

end HeaderHints
