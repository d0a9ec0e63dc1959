import HeaderHints.Text.Basic

/-!
# Lexemes

The smallest pieces of Python source: names, numbers, strings, operators, comments and line breaks,
with the changes of indentation between them. A string with replacement fields is not one lexeme but
a start, literal pieces, the lexemes of the fields, and an end. Every lexeme knows where it stands;
`slice` recovers the source between two positions.
-/

namespace HeaderHints

/-- A place in the rows that have been read. -/
structure Position where
  /-- The number of the row, counted from the first row that was read. -/
  row : Nat
  /-- The number of bytes before it in its row. -/
  col : Nat
deriving DecidableEq

/-- Whether `p` comes before `q`. -/
def Position.before (p q : Position) : Bool :=
  p.row < q.row || (p.row = q.row && p.col < q.col)

namespace Lexeme

/-- The classes of lexemes. -/
inductive Tag where
  | name
  | number
  | string
  /-- The quotes that open a string with replacement fields, and what stands before them. -/
  | fstringStart
  /-- Literal text between replacement fields. -/
  | fstringMiddle
  /-- The quotes that close a string with replacement fields. -/
  | fstringEnd
  | op
  | comment
  /-- The end of a logical line. -/
  | newline
  /-- A line break that ends no logical line. -/
  | nl
  | indent
  | dedent
  /-- A character that starts no lexeme, or a string that is not closed. -/
  | error
  | endMarker
deriving DecidableEq

/-- Whether a lexeme makes its line a logical one. -/
def Tag.isContent : Tag → Bool
  | comment | nl | newline => false
  | _ => true

end Lexeme

/-- A piece of source. -/
structure Lexeme where
  /-- The class. -/
  tag : Lexeme.Tag
  /-- The text. -/
  text : Text
  /-- Where the text starts. -/
  start : Position
  /-- Where the text ends. -/
  stop : Position
deriving DecidableEq

namespace Lexeme

/-- The source between two positions of some rows. -/
def slice (rows : List Text) (start stop : Position) : Text :=
  if !start.before stop then
    []
  else if start.row = stop.row then
    Text.between start.col stop.col (rows.getD start.row [])
  else
    Text.fromByte start.col (rows.getD start.row []) ++
      ((rows.drop (start.row + 1)).take (stop.row - start.row - 1)).flatten ++
      Text.toByte stop.col (rows.getD stop.row [])

end Lexeme

end HeaderHints
