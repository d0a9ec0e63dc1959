import HeaderHints.Text.Basic

/-!
# Shapes of lexemes

How far a lexeme reaches into the rest of its row. Each function splits a text into the lexeme at
its start and what follows; it is the longest piece of its shape.
-/

namespace HeaderHints.Lexeme

/-! ### Gaps, names and comments -/

/-- Characters that separate lexemes on a row: spaces, tabs and form feeds. -/
def isGap (c : Char) : Bool :=
  c = ' ' || c = '\t' || c = '\x0c'

/-- Width of a margin: a tab goes to the next multiple of eight, a form feed back to zero. -/
def marginWidth (margin : Text) : Nat :=
  margin.foldl (fun width c =>
    if c = '\t' then (width / 8 + 1) * 8 else if c = '\x0c' then 0 else width + 1) 0

/-- Characters that start a name: letters, the underscore and everything beyond ASCII. -/
def isNameStart (c : Char) : Bool :=
  c.isAlpha || c = '_' || 0x80 ≤ c.toNat

/-- Characters that continue a name. -/
def isNamePart (c : Char) : Bool :=
  c.isAlphanum || c = '_' || 0x80 ≤ c.toNat

/-- Whether a character breaks a row. -/
def isBreak (c : Char) : Bool :=
  c = '\r' || c = '\n'

/-! ### Numbers -/

/-- Digits and the underscores between them. -/
def isDigitPart (c : Char) : Bool :=
  c.isDigit || c = '_'

/-- Hexadecimal digits and the underscores between them. -/
def isHexPart (c : Char) : Bool :=
  c.isDigit || ('a' ≤ c && c ≤ 'f') || ('A' ≤ c && c ≤ 'F') || c = '_'

/-- The exponent at the start of a text: the letter, a sign, and at least one digit. -/
def splitExponent : Text → Text × Text
  | e :: t =>
    if e = 'e' || e = 'E' then
      match t with
      | s :: d :: r =>
        if s.isDigit then
          let (digits, r) := t.span isDigitPart
          (e :: digits, r)
        else if (s = '+' || s = '-') && d.isDigit then
          let (digits, r) := (d :: r).span isDigitPart
          (e :: s :: digits, r)
        else
          ([], e :: t)
      | [s] => if s.isDigit then ([e, s], []) else ([], e :: t)
      | [] => ([], e :: t)
    else
      ([], e :: t)
  | [] => ([], [])

/-- A decimal number: digits, a fraction, an exponent and the imaginary unit, each optional. -/
def splitDecimal (t : Text) : Text × Text :=
  let (whole, r) := t.span isDigitPart
  let (fraction, r) :=
    match r with
    | '.' :: r =>
      let (digits, r) := r.span isDigitPart
      ('.' :: digits, r)
    | _ => ([], r)
  let (exponent, r) := splitExponent r
  let (unit, r) :=
    match r with
    | 'j' :: r => (['j'], r)
    | 'J' :: r => (['J'], r)
    | _ => ([], r)
  (whole ++ fraction ++ exponent ++ unit, r)

/-- A number. After a zero, a letter may announce another base; all bases share their digits. -/
def splitNumber : Text → Text × Text
  | '0' :: base :: t =>
    if "xXoObB".toList.contains base then
      let (digits, r) := t.span isHexPart
      ('0' :: base :: digits, r)
    else
      splitDecimal ('0' :: base :: t)
  | t => splitDecimal t

/-! ### Operators -/

/-- The operators, longer ones first. -/
def operators : List Text :=
  ["...".toList, "**=".toList, "//=".toList, ">>=".toList, "<<=".toList,
    "->".toList, "**".toList, "//".toList, "<<".toList, ">>".toList, "<=".toList, ">=".toList,
    "==".toList, "!=".toList, ":=".toList, "+=".toList, "-=".toList, "*=".toList, "/=".toList,
    "%=".toList, "&=".toList, "|=".toList, "^=".toList, "@=".toList,
    ['('], [')'], ['['], [']'], ['{'], ['}'], [':'], [','], [';'], ['.'], ['+'], ['-'], ['*'],
    ['/'], ['|'], ['&'], ['<'], ['>'], ['='], ['%'], ['~'], ['^'], ['@'], ['!']]

/-- The operator at the start of a text. -/
def operator? (t : Text) : Option Text :=
  operators.find? (·.isPrefixOf t)

/-! ### Strings -/

/-- Quotes around a string: one quote character or three. -/
structure Quotes where
  /-- The quote character. -/
  char : Char
  /-- Whether it is tripled. -/
  tripled : Bool
deriving DecidableEq

namespace Quotes

/-- The written quotes. -/
def text (q : Quotes) : Text :=
  if q.tripled then [q.char, q.char, q.char] else [q.char]

/-- The quotes at the start of a text. -/
def of? : Text → Option Quotes
  | c :: t =>
    if c = '"' || c = '\'' then some ⟨c, [c, c].isPrefixOf t⟩ else none
  | [] => none

end Quotes

/-- Whether a word before a quote belongs to the string. -/
def isStringMark (word : Text) : Bool :=
  ["r".toList, "u".toList, "b".toList, "f".toList, "br".toList, "rb".toList, "fr".toList,
    "rf".toList].contains (word.map Char.toLower)

/-- Whether a word before a quote announces replacement fields. -/
def marksFields (word : Text) : Bool :=
  word.any fun c => c = 'f' || c = 'F'

/-- How the body of a string goes on one row. -/
inductive Body where
  /-- The string ends after `text`, closing quotes included. -/
  | closed (text rest : Text)
  /-- The row ends before the string, which cannot go on: it breaks off after `text`. -/
  | broken (text rest : Text)
  /-- The string goes on in the next row. -/
  | continued

/-- A body with more text before it. -/
def Body.preceded (lead : Text) : Body → Body
  | closed text rest => closed (lead ++ text) rest
  | broken text rest => broken (lead ++ text) rest
  | continued => continued

/-- Read the body of a string to its closing quotes or to the end of the row. A backslash takes the
next character with it, and before a line break, a null character or nothing it takes the rest of
the row. -/
def body (q : Quotes) : Text → Body
  | [] => if q.tripled then .continued else .broken [] []
  | '\\' :: [] => .continued
  | '\\' :: c :: r =>
    if c = '\x00' || isBreak c then .continued else (body q r).preceded ['\\', c]
  | c :: r =>
    if c = '\n' then
      if q.tripled then .continued else .broken [] (c :: r)
    else if c ≠ q.char then
      (body q r).preceded [c]
    else if !q.tripled then
      .closed [c] r
    else if [c, c].isPrefixOf r then
      .closed [c, c, c] (r.drop 2)
    else
      (body q r).preceded [c]

/-- A text with more text before its first part. -/
def preceded (lead : Text) (parts : Text × Text) : Text × Text :=
  (lead ++ parts.1, parts.2)

/-- The literal text at the start of a text inside `q`, up to a line break, a brace that is not
doubled, or the closing quotes. In a format specification braces are not doubled and quotes are
literal. -/
def splitLiteral (q : Quotes) (inSpec : Bool) : Text → Text × Text
  | [] => ([], [])
  | '\\' :: [] => (['\\'], [])
  | '\\' :: c :: r =>
    if c = '\n' || c = '{' || c = '}' then
      preceded ['\\'] (splitLiteral q inSpec (c :: r))
    else
      preceded ['\\', c] (splitLiteral q inSpec r)
  | '{' :: '{' :: r =>
    if inSpec then ([], '{' :: '{' :: r) else preceded ['{', '{'] (splitLiteral q inSpec r)
  | '}' :: '}' :: r =>
    if inSpec then ([], '}' :: '}' :: r) else preceded ['}', '}'] (splitLiteral q inSpec r)
  | c :: r =>
    if c = '\n' || c = '{' || c = '}' then
      ([], c :: r)
    else if c = q.char && !inSpec && (!q.tripled || [c, c].isPrefixOf r) then
      ([], c :: r)
    else
      preceded [c] (splitLiteral q inSpec r)

end HeaderHints.Lexeme
