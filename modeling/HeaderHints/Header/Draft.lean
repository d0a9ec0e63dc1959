import HeaderHints.Fault
import HeaderHints.Lexeme.Basic
import HeaderHints.Text.Word

/-!
# Drafts of headers

A function header is read lexeme by lexeme. A draft holds the tokens found so far and what has to
be known to give the next lexeme its role: whether `def` and the argument list have been seen, how
many brackets are open, and whether an annotation or a default value is being read. Line breaks,
indentation, comments and joined lines are tokens too, so that a header can be written back in its
own shape.

A default value is folded into as few tokens as possible, with one space around binary operators.
The body of a lambda and a string with replacement fields are taken from the source as they stand;
while one of them is read, the draft is in a mode of its own.
-/

namespace HeaderHints.Header

/-- Why a header could not be read. -/
inductive Failure where
  /-- The source does not read as a header. -/
  | unreadable (fault : Fault)
  /-- The source ends before the colon of the header. -/
  | endOfInput

namespace Failure

/-- What is shown of a failure to read a header. -/
def message : Failure → Text
  | unreadable fault => fault.message
  | endOfInput => "reached end of input while reading function definition".toList

/-- The fault behind a failure. -/
def fault : Failure → Fault
  | unreadable fault => fault
  | endOfInput => .headerCutShort

end Failure

/-- What the lexemes of a header are part of. -/
inductive Mode where
  /-- The header itself. -/
  | plain
  /-- The body of a lambda that starts at `start` and reaches to `stop` so far, with `depth` open
  brackets, and whether its colon has been seen. -/
  | lambda (start stop : Position) (depth : Nat) (colon : Bool)
  /-- A string with replacement fields that starts at `start`, where `nesting` such strings are
  open. -/
  | fstring (start : Position) (nesting : Nat)
  /-- Nothing: the header is complete. -/
  | complete

/-- A header in the course of being read. -/
structure Draft where
  /-- The tokens found so far, newest first. -/
  written : List Token := []
  /-- Whether `def` has been seen. -/
  sawDef : Bool := false
  /-- Whether the bracket of the argument list has been seen. -/
  inArguments : Bool := false
  /-- Number of open brackets. -/
  openBrackets : Nat := 0
  /-- Positive inside an annotation: one more than the brackets opened in it. -/
  annotationDepth : Nat := 0
  /-- Positive inside a default value: one more than the brackets opened in it. -/
  valueDepth : Nat := 0
  /-- Where the last lexeme that was not layout ended. -/
  reached : Option Position := none
  /-- The row whose margin has been written. -/
  begunRow : Option Nat := none
  /-- Whether the last row ended in a line break. -/
  broken : Bool := false
  /-- What is being read. -/
  mode : Mode := .plain

namespace Draft

/-! ### Writing tokens -/

/-- Write a token. -/
def push (d : Draft) (kind : Token.Kind) (text : Text) : Draft :=
  { d with written := .of kind text :: d.written }

/-- Write layout, if there is any. -/
def pushLayout (d : Draft) (text : Text) : Draft :=
  if text.isEmpty then d else d.push .endSeparator text

/-- Change the text of the last token. -/
def amend (d : Draft) (change : Text → Text) : Draft :=
  { d with written := d.written.modifyHead fun t => { t with text? := some (change t.text) } }

/-- The kind of the last token. -/
def lastKind? (d : Draft) : Option Token.Kind :=
  d.written.head?.map (·.kind)

/-- Note where a lexeme ended. -/
def reach (d : Draft) (stop : Position) : Draft :=
  { d with reached := some stop, begunRow := some stop.row }

/-! ### Layout -/

/-- Write the layout before the first lexeme of a row: after a joined line the rest of that line,
and then the margin. -/
def layout (rows : List Text) (start : Position) (d : Draft) : Draft :=
  if d.begunRow = some start.row then
    d
  else
    let joint :=
      match d.reached with
      | some last =>
        if !d.broken && last.row < start.row then Text.fromByte last.col (rows.getD last.row [])
        else []
      | none => []
    let margin := Text.toByte start.col (rows.getD start.row [])
    { (d.pushLayout joint).pushLayout margin with begunRow := some start.row, broken := false }

/-- A separator before a line break or a comment is written without a space after it. -/
def tighten (d : Draft) : Draft :=
  { d with
    written := d.written.modifyHead fun t =>
      if t.kind = .separator then { t with kind := .endSeparator } else t }

/-- Take in a line break. -/
def lineBreak (x : Lexeme) (d : Draft) : Draft :=
  { d.tighten.pushLayout x.text with broken := true, reached := some x.stop }

/-- Take in a comment, with the blanks before it on its row. -/
def comment (rows : List Text) (x : Lexeme) (d : Draft) : Draft :=
  let gap :=
    match d.reached with
    | some last =>
      if last.row = x.start.row && d.begunRow = some last.row then
        Text.between last.col x.start.col (rows.getD last.row [])
      else []
    | none => []
  (((d.layout rows x.start).tighten).push .endSeparator (gap ++ x.text)).reach x.stop

/-! ### Names and values -/

/-- Write a name, or continue a dotted one. -/
def dotted (kind : Token.Kind) (text : Text) (d : Draft) : Draft :=
  let continues := d.written.head?.any fun t =>
    (t.kind = kind || t.isA .dottedName) && t.text.getLast? = some '.'
  if continues then d.amend (· ++ text) else d.push kind text

/-- Whether a character can begin or end an operand. -/
def isOperandChar (c : Char) : Bool :=
  Text.isAlphanumeric c || c = '_' || c = '\'' || c = '"'

/-- Whether a text ends in an operand. -/
def endsOperand (t : Text) : Bool :=
  t.getLast?.any isOperandChar

/-- Whether a text starts with an operand. -/
def startsOperand (t : Text) : Bool :=
  t.head?.any isOperandChar

/-- Fold a name or a literal into the default value. -/
def operand (text : Text) (d : Draft) : Draft :=
  if d.lastKind? = some .argumentDefault then
    d.amend fun value =>
      value ++ (if endsOperand value && startsOperand text then [' '] else []) ++ text
  else
    d.push .argumentDefault text

/-- Operators that can stand between two operands. -/
def binaryOperators : List Text :=
  [['+'], ['-'], ['*'], ['/'], ['/', '/'], ['%'], ['*', '*'], ['@'], ['^'], ['&'], ['|'],
    ['>', '>'], ['<', '<'], ['=', '='], ['!', '='], ['<'], ['>'], ['<', '='], ['>', '=']]

/-- Operators that can stand before an operand. -/
def unaryOperators : List Text :=
  [['-'], ['+'], ['~'], ['*'], ['*', '*']]

/-- Fold an operator into the default value. -/
def operator (op : Text) (d : Draft) : Except Failure Draft :=
  if d.lastKind? = some .argumentDefault then
    .ok <| d.amend fun value =>
      let trimmed := Text.trimEnd value
      if op ≠ ['~'] && endsOperand trimmed then trimmed ++ [' '] ++ op ++ [' '] else value ++ op
  else if d.written.head?.any (·.isCloser) then
    .ok (d.push .argumentDefault ([' '] ++ op ++ [' ']))
  else if unaryOperators.contains op then
    .ok (d.push .argumentDefault op)
  else
    .error (.unreadable (.unexpectedOperator op))

/-! ### Lexemes of the header itself -/

/-- Take in a name. -/
def name (x : Lexeme) (d : Draft) : Except Failure Draft :=
  if !d.inArguments then
    if x.text = "async".toList then
      .ok ((d.push .keyword x.text).reach x.stop)
    else if x.text = "def".toList then
      if d.sawDef then .error (.unreadable .secondDefinition)
      else .ok ({ d.push .definition x.text with sawDef := true }.reach x.stop)
    else
      .ok ((d.dotted .functionName x.text).reach x.stop)
  else if 0 < d.annotationDepth then
    .ok ((d.dotted .dottedName x.text).reach x.stop)
  else if 0 < d.valueDepth then
    if x.text = "lambda".toList then
      .ok { d.push .argumentDefault x.text with mode := .lambda x.stop x.stop 0 false }
    else
      .ok ((d.operand x.text).reach x.stop)
  else
    .ok ((d.push .argumentName x.text).reach x.stop)

/-- Take in an opening bracket. The first round bracket after `def` outside brackets opens the
argument list. -/
def openBracket (text : Text) (d : Draft) : Draft :=
  { d.push .endSeparator text with
    inArguments := d.inArguments || (text = ['('] && d.sawDef && d.openBrackets = 0)
    openBrackets := d.openBrackets + 1
    annotationDepth := if 0 < d.annotationDepth then d.annotationDepth + 1 else 0
    valueDepth := if 0 < d.valueDepth then d.valueDepth + 1 else 0 }

/-- Take in a closing bracket. -/
def closeBracket (text : Text) (d : Draft) : Draft :=
  { d.push .endSeparator text with
    openBrackets := d.openBrackets - 1
    annotationDepth := d.annotationDepth - 1
    valueDepth := d.valueDepth - 1 }

/-- Take in a comma, which ends an annotation or a default value outside brackets. -/
def comma (text : Text) (d : Draft) : Draft :=
  { d.push .separator text with
    annotationDepth := if d.annotationDepth = 1 then 0 else d.annotationDepth
    valueDepth := if d.valueDepth = 1 then 0 else d.valueDepth }

/-- Take in an equals sign: inside brackets of a default value it names an argument of a call. -/
def equals (text : Text) (d : Draft) : Draft :=
  if 1 < d.valueDepth then
    if d.lastKind? = some .argumentDefault then d.amend (· ++ text)
    else d.push .argumentDefault text
  else
    { d.push .defaultDef text with annotationDepth := 0, valueDepth := 1 }

/-- Take in a dot. -/
def dot (text : Text) (d : Draft) : Except Failure Draft :=
  if [some .dottedName, some .argumentDefault, some .functionName].contains d.lastKind? then
    .ok (d.amend (· ++ text))
  else if 0 < d.valueDepth then
    .ok (d.push .argumentDefault text)
  else
    .error (.unreadable .unexpectedDot)

/-- Take in the colon that closes the header, with what follows it on its row unless that is
blank. -/
def close (rows : List Text) (x : Lexeme) (d : Draft) : Draft :=
  let rest := Text.fromByte x.stop.col (rows.getD x.stop.row [])
  let tail := (rest.reverse.dropWhile fun c => c = '\r' || c = '\n').reverse
  let d := { d.push .endDefinition x.text with annotationDepth := 0, mode := .complete }
  (if tail.all Text.isBlank then d else d.push .endSeparator tail).reach x.stop

/-- Take in an operator. -/
def op (rows : List Text) (x : Lexeme) (d : Draft) : Except Failure Draft :=
  if x.text = [':'] && d.inArguments && d.openBrackets = 0 then
    .ok (d.close rows x)
  else
    (·.reach x.stop) <$>
      if Token.opensBracket x.text then
        .ok (d.openBracket x.text)
      else if Token.closesBracket x.text then
        .ok (d.closeBracket x.text)
      else if x.text = [':'] then
        .ok (if 0 < d.valueDepth then d.push .colon x.text
          else { d.push .typeDef x.text with annotationDepth := 1 })
      else if x.text = [','] then
        .ok (d.comma x.text)
      else if x.text = ['='] then
        .ok (d.equals x.text)
      else if x.text = ['-', '>'] then
        .ok { d.push .returnTypeDef x.text with annotationDepth := 1 }
      else if x.text = ['.'] then
        d.dot x.text
      else if x.text = ['.', '.', '.'] then
        .ok (d.push .dottedName x.text)
      else if d.valueDepth = 0 && [['*'], ['*', '*'], ['/']].contains x.text then
        .ok (d.push .endSeparator x.text)
      else if x.text = ['@'] && !d.sawDef then
        .ok (d.push .endSeparator x.text)
      else if x.text = ['|'] && d.valueDepth = 0 then
        .ok (d.push .separator x.text)
      else if binaryOperators.contains x.text || unaryOperators.contains x.text then
        d.operator x.text
      else
        .error (.unreadable (.unexpectedOperator x.text))

/-- Take in a lexeme of the header itself. -/
def plain (rows : List Text) (x : Lexeme) (d : Draft) : Except Failure Draft :=
  match x.tag with
  | .indent | .dedent => .ok d
  | .endMarker => .error .endOfInput
  | .error => .error (.unreadable (.unrecognized x.text))
  | .newline | .nl => .ok (d.lineBreak x)
  | .comment => .ok (d.comment rows x)
  | .name => (d.layout rows x.start).name x
  | .number | .string => .ok (((d.layout rows x.start).operand x.text).reach x.stop)
  | .fstringStart => .ok { d.layout rows x.start with mode := .fstring x.start 1 }
  | .fstringMiddle | .fstringEnd => .error (.unreadable (.strayFragment x.text))
  | .op => (d.layout rows x.start).op rows x

/-! ### Lambdas and strings with replacement fields -/

/-- Whether a lexeme ends the body of a lambda. A comma, a line break or a comment does so outside
brackets once the colon has been seen; a closing bracket does when it belongs to what is around. -/
def endsLambda (x : Lexeme) (depth : Nat) (colon : Bool) : Bool :=
  match x.tag with
  | .op => depth = 0 && (Token.closesBracket x.text || (x.text = [','] && colon))
  | .newline | .nl | .comment => depth = 0 && colon
  | _ => false

/-- Take in a lexeme while the body of a lambda is read. The lexeme that ends the body belongs to
the header. -/
def inLambda (rows : List Text) (x : Lexeme) (start stop : Position) (depth : Nat) (colon : Bool)
    (d : Draft) : Except Failure Draft :=
  match x.tag with
  | .endMarker => .error .endOfInput
  | .error => .error (.unreadable (.unrecognizedInLambda x.text))
  | tag =>
    if endsLambda x depth colon then
      let d := d.push .lambdaBody (Text.trim (Lexeme.slice rows start stop))
      { d.reach stop with mode := .plain }.plain rows x
    else
      let isOp := tag = .op
      let depth' :=
        if isOp && Token.opensBracket x.text then depth + 1
        else if isOp && Token.closesBracket x.text then depth - 1
        else depth
      let colon' := colon || (isOp && x.text = [':'] && depth = 0)
      .ok { d with mode := .lambda start x.stop depth' colon' }

/-- Take in a lexeme while a string with replacement fields is read. -/
def inFString (rows : List Text) (x : Lexeme) (start : Position) (nesting : Nat) (d : Draft) :
    Except Failure Draft :=
  match x.tag with
  | .endMarker => .error .endOfInput
  | .error => .error (.unreadable (.unterminatedFString x.text))
  | .fstringStart => .ok { d with mode := .fstring start (nesting + 1) }
  | .fstringEnd =>
    if nesting ≤ 1 then
      let d := (d.operand (Lexeme.slice rows start x.stop)).reach x.stop
      .ok { d with mode := .plain }
    else
      .ok { d with mode := .fstring start (nesting - 1) }
  | _ => .ok d

/-- Take in the next lexeme, where `rows` have been read so far. -/
def take (rows : List Text) (x : Lexeme) (d : Draft) : Except Failure Draft :=
  match d.mode with
  | .plain => d.plain rows x
  | .lambda start stop depth colon => d.inLambda rows x start stop depth colon
  | .fstring start nesting => d.inFString rows x start nesting
  | .complete => .ok d

/-- Whether the header is complete. -/
def isComplete (d : Draft) : Bool :=
  match d.mode with
  | .complete => true
  | _ => false

/-- The tokens of a draft in order, closed by the end token. -/
def tokens (d : Draft) : List Token :=
  d.written.reverse ++ [Token.last]

end Draft

end HeaderHints.Header
