import HeaderHints.Lexeme.Basic
import HeaderHints.Lexeme.Shape
import HeaderHints.Source

/-!
# Scanning

A scan reads a source row by row and produces lexemes. It holds the row it is in as two texts,
before and after the reading point, so the column of the reading point is a measure of the first
text and cannot disagree with it. A row is asked for when the scan gets to it and not before.

Most steps of a scan stay in one row and produce a lexeme. A backslash before a line break, and
the end of a row without a line break inside tripled quotes, move on to the next row and produce
nothing: `step` is one step, and `next` goes on until there is a lexeme.

Inside a string with replacement fields the scan keeps a stack of frames, one for each such string
that is open, with the fields that are open in it. In the innermost frame literal text is read
when no field is open or the innermost field has reached its format specification; otherwise
ordinary lexemes are.
-/

namespace HeaderHints

/-- A replacement field that is open: the brackets that are open in it, and whether its format
specification has started. -/
structure Field where
  /-- Open braces. -/
  braces : Nat := 0
  /-- Open round brackets. -/
  rounds : Nat := 0
  /-- Open square brackets. -/
  squares : Nat := 0
  /-- Whether the format specification has started. -/
  inSpec : Bool := false

namespace Field

/-- Whether no bracket is open in the field. -/
def isTop (f : Field) : Bool :=
  f.braces = 0 && f.rounds = 0 && f.squares = 0

/-- The field after an operator inside it. At the top level a colon starts the format
specification. -/
def after (op : Text) (f : Field) : Field :=
  match op with
  | ['{'] => { f with braces := f.braces + 1 }
  | ['('] => { f with rounds := f.rounds + 1 }
  | ['['] => { f with squares := f.squares + 1 }
  | ['}'] => { f with braces := f.braces - 1 }
  | [')'] => { f with rounds := f.rounds - 1 }
  | [']'] => { f with squares := f.squares - 1 }
  | [':'] => { f with inSpec := f.inSpec || f.isTop }
  | _ => f

end Field

/-- A string with replacement fields that is open. -/
structure Frame where
  /-- Its quotes. -/
  quotes : Lexeme.Quotes
  /-- Its open fields, innermost first. -/
  fields : List Field := []

namespace Frame

/-- Whether literal text is being read. -/
def isLiteral (f : Frame) : Bool :=
  f.fields.head?.all (·.inSpec)

/-- The frame after an operator inside its innermost field: a closing brace at the top level closes
the field. -/
def after (op : Text) (f : Frame) : Frame :=
  match f.fields with
  | [] => f
  | field :: outer =>
    if op = ['}'] && field.isTop then
      { f with fields := outer }
    else
      { f with fields := field.after op :: outer }

end Frame

/-- A source in the course of being read. -/
structure Scan where
  /-- Where rows come from. -/
  feed : Feed
  /-- The rows that have been left. -/
  past : List Text := []
  /-- The row being read, before and after the reading point. -/
  current : Option (Text × Text) := none
  /-- Number of open brackets. -/
  depth : Nat := 0
  /-- Widths of the open blocks, innermost first. -/
  levels : List Nat := []
  /-- Whether a logical line starts at the reading point. -/
  atStart : Bool := true
  /-- Whether the logical line has content. -/
  hasContent : Bool := false
  /-- The open strings with replacement fields, innermost first. -/
  frames : List Frame := []
  /-- Lexemes that have been found and not produced yet. -/
  queued : List Lexeme := []
  /-- Whether the source is exhausted. -/
  exhausted : Bool := false
  /-- Whether `next?` has produced the end marker. -/
  ended : Bool := false

namespace Scan

open Lexeme

/-! ### Rows and positions -/

/-- Begin reading a source at line `first`. -/
def start (source : Source) (first : Nat) : Scan :=
  { feed := .start source first }

/-- The rows that have been read. -/
def rows (s : Scan) : List Text :=
  s.past ++ (s.current.map fun (before, rest) => before ++ rest).toList

/-- Where the text after `before` stands in the current row. -/
def position (s : Scan) (before : Text) : Position :=
  ⟨s.past.length, Text.bytes before⟩

/-- Get hold of the current row, if there is one. -/
def load (s : Scan) : Scan :=
  match s.current with
  | some _ => s
  | none =>
    match s.feed.ask with
    | (some row, feed) => { s with feed, current := some ([], row) }
    | (none, feed) => { s with feed }

/-- Leave the current row. -/
def leaveRow (s : Scan) : Scan :=
  { s with past := s.rows, current := none }

/-! ### Producing lexemes -/

/-- A lexeme without text. -/
def mark (s : Scan) (tag : Tag) (before : Text) : Lexeme :=
  ⟨tag, [], s.position before, s.position before⟩

/-- Produce the lexeme `text` of the current row, which reads `before ++ text ++ rest`. -/
def produce (s : Scan) (tag : Tag) (before text rest : Text) : Option Lexeme × Scan :=
  (some ⟨tag, text, s.position before, s.position (before ++ text)⟩,
    { s with
      current := some (before ++ text, rest)
      hasContent := s.hasContent || tag.isContent })

/-- Close the open blocks at the end of the source, then produce the end marker. -/
def finish (s : Scan) : Option Lexeme × Scan :=
  match s.levels with
  | [] => (some (s.mark .endMarker []), { s with exhausted := true })
  | _ :: outer =>
    (some (s.mark .dedent []),
      { s with levels := [], queued := outer.map fun _ => s.mark .dedent [], exhausted := true })

/-- Produce a line break and leave the row. It ends a logical line when nothing is open and the line
has content. -/
def lineBreak (s : Scan) (before text rest : Text) : Option Lexeme × Scan :=
  let logical := s.depth = 0 && s.frames.isEmpty
  let ends := logical && s.hasContent
  (some ⟨if ends then .newline else .nl, text, s.position before, s.position (before ++ text)⟩,
    { s with
      past := s.past ++ [before ++ text ++ rest]
      current := none
      atStart := logical
      hasContent := s.hasContent && !ends })

/-- Compare the margin of a new logical line with the open blocks. Rows that hold nothing but a
comment have no say. -/
def indentation (s : Scan) (row : Text) : Option Lexeme × Scan :=
  let s := { s with atStart := false }
  let (margin, text) := row.span isGap
  if text.head?.all fun c => c = '#' || isBreak c then
    (none, s)
  else
    let width := marginWidth margin
    if s.levels.headD 0 < width then
      (some ⟨.indent, margin, s.position [], s.position margin⟩,
        { s with levels := width :: s.levels })
    else
      let inner := s.levels.takeWhile (width < ·)
      let outer := s.levels.dropWhile (width < ·)
      let dedents := inner.map fun _ => s.mark .dedent margin
      let mismatch := if outer.headD 0 = width then [] else
        [{ s.mark .error margin with
          text := "unindent does not match any outer indentation level".toList }]
      match dedents ++ mismatch with
      | [] => (none, { s with levels := outer })
      | lexeme :: queued => (some lexeme, { s with levels := outer, queued })

/-! ### Strings -/

/-- Read the rows of a string that starts at `opening` to its end. -/
def stringRows (q : Quotes) (opening : Position) : Nat → Scan → Option Lexeme × Scan
  | 0, s => s.finish
  | n + 1, s =>
    match s.current with
    | none => s.finish
    | some (before, rest) =>
      match body q rest with
      | .closed text rest =>
        let stop := s.position (before ++ text)
        (some ⟨.string, slice s.rows opening stop, opening, stop⟩,
          { s with current := some (before ++ text, rest), hasContent := true })
      | .broken text rest =>
        let stop := s.position (before ++ text)
        (some ⟨.error, slice s.rows opening stop, opening, stop⟩,
          { s with current := some (before ++ text, rest) })
      | .continued => stringRows q opening n s.leaveRow.load

/-- Read the string whose quotes are `q`, with the word `word` before them. -/
def string (s : Scan) (before word : Text) (q : Quotes) (rest : Text) : Option Lexeme × Scan :=
  if marksFields word then
    { s with frames := ⟨q, []⟩ :: s.frames }.produce .fstringStart before (word ++ q.text) rest
  else
    stringRows q (s.position before) (s.feed.upcoming.length + 2)
      { s with current := some (before ++ word ++ q.text, rest) }

/-- Open a replacement field in the innermost string. -/
def openField (s : Scan) : Scan :=
  { s with
    depth := s.depth + 1
    frames := s.frames.modifyHead fun f => { f with fields := {} :: f.fields } }

/-- Close the innermost replacement field of the innermost string. -/
def closeField (s : Scan) : Scan :=
  { s with
    depth := s.depth - 1
    frames := s.frames.modifyHead fun f => { f with fields := f.fields.tail } }

/-- Close the innermost string with replacement fields. -/
def closeFrame (s : Scan) : Scan :=
  { s with frames := s.frames.tail }

/-- Read literal text of the innermost string with replacement fields, whose frame is `frame`. -/
def literal (s : Scan) (frame : Frame) (before rest : Text) : Option Lexeme × Scan :=
  let q := frame.quotes
  let inSpec := !frame.fields.isEmpty
  match splitLiteral q inSpec rest with
  | (text, '\n' :: after) =>
    if q.tripled then
      let (lexeme, s) := s.produce .fstringMiddle before (text ++ ['\n']) after
      (lexeme, s.leaveRow)
    else if !text.isEmpty then
      s.produce .fstringMiddle before text ('\n' :: after)
    else
      s.closeFrame.produce .error before [] ('\n' :: after)
  | (c :: text, after) => s.produce .fstringMiddle before (c :: text) after
  | ([], []) =>
    if q.tripled then
      (none, s.leaveRow)
    else
      s.closeFrame.produce .error before [] []
  | ([], '{' :: after) => s.openField.produce .op before ['{'] after
  | ([], '}' :: after) =>
    if inSpec then s.closeField.produce .op before ['}'] after
    else s.produce .error before ['}'] after
  | ([], after) => s.closeFrame.produce .fstringEnd before q.text (after.drop q.text.length)

/-! ### Operators -/

/-- Produce an operator. Brackets count towards the depth, and the innermost field sees them. -/
def operator (s : Scan) (before op rest : Text) : Option Lexeme × Scan :=
  let depth :=
    match op with
    | ['('] | ['['] | ['{'] => s.depth + 1
    | [')'] | [']'] | ['}'] => s.depth - 1
    | _ => s.depth
  { s with depth, frames := s.frames.modifyHead (·.after op) }.produce .op before op rest

/-! ### Steps -/

/-- Read what stands at the reading point, outside literal text. -/
def plain (s : Scan) (before rest : Text) : Option Lexeme × Scan :=
  let (gap, rest) := rest.span isGap
  let before := before ++ gap
  match rest with
  | [] => s.lineBreak before [] []
  | c :: t =>
    if c = '#' then
      let (text, rest) := (c :: t).span (!isBreak ·)
      s.produce .comment before text rest
    else if c = '\n' then
      s.lineBreak before [c] t
    else if c = '\r' then
      if t.head? = some '\n' then s.lineBreak before [c, '\n'] (t.drop 1)
      else s.lineBreak before [c] t
    else if c = '\\' && t.head?.any isBreak then
      (none, s.leaveRow)
    else if c.isDigit || (c = '.' && t.head?.any Char.isDigit) then
      let (text, rest) := splitNumber (c :: t)
      s.produce .number before text rest
    else if let some q := Quotes.of? (c :: t) then
      s.string before [] q ((c :: t).drop q.text.length)
    else if isNameStart c then
      let (word, rest) := (c :: t).span isNamePart
      match Quotes.of? rest with
      | some q =>
        if isStringMark word then s.string before word q (rest.drop q.text.length)
        else s.produce .name before word rest
      | none => s.produce .name before word rest
    else
      match operator? (c :: t) with
      | some op => s.operator before op ((c :: t).drop op.length)
      | none => s.produce .error before [c] t

/-- One step: a lexeme, or a move to the next row. -/
def step (s : Scan) : Option Lexeme × Scan :=
  match s.queued with
  | lexeme :: queued => (some lexeme, { s with queued })
  | [] =>
    if s.exhausted then
      (some (s.mark .endMarker []), s)
    else
      let s := s.load
      match s.current, s.frames with
      | none, _ => s.finish
      | some (before, rest), frame :: _ =>
        if frame.isLiteral then s.literal frame before rest
        else s.plain before rest
      | some (before, rest), [] =>
        if s.atStart then
          match s.indentation rest with
          | (some lexeme, s) => (some lexeme, s)
          | (none, s) => s.plain before rest
        else
          s.plain before rest

/-- Steps up to the next lexeme. -/
def nextWithin : Nat → Scan → Lexeme × Scan
  | 0, s => (s.mark .endMarker [], s)
  | n + 1, s =>
    match s.step with
    | (some lexeme, s) => (lexeme, s)
    | (none, s) => nextWithin n s

/-- The next lexeme. After the end of the source it is the end marker again and again. -/
def next (s : Scan) : Lexeme × Scan :=
  nextWithin (s.feed.upcoming.length + 3) s

/-- The next lexeme, up to and including the first end marker. -/
def next? (s : Scan) : Option Lexeme × Scan :=
  if s.ended then
    (none, s)
  else
    let (lexeme, s) := s.next
    (some lexeme, { s with ended := lexeme.tag = .endMarker })

/-! ### Whole sources -/

/-- What the rows of a source add to the weight of a scan. -/
def sourceWeight : Source → Nat
  | [] => 0
  | row :: more => 3 * (row.getD []).length + 6 + sourceWeight more

/-- A bound on the number of lexemes to come, the end marker apart. Every lexeme takes characters,
leaves a row, or uses up one of the counted items. -/
def weight (s : Scan) : Nat :=
  s.queued.length + s.levels.length + s.frames.length + (if s.atStart then 4 else 0) +
    (s.current.map fun (_, rest) => 3 * rest.length + 5).getD 0 +
    sourceWeight s.feed.upcoming

/-- Up to `n` lexemes that `next?` still produces. -/
def restWithin : Nat → Scan → List Lexeme × Scan
  | 0, s => ([], s)
  | n + 1, s =>
    match s.next? with
    | (none, s) => ([], s)
    | (some lexeme, s) =>
      let (lexemes, s) := restWithin n s
      (lexeme :: lexemes, s)

/-- All lexemes that `next?` still produces. -/
def rest (s : Scan) : List Lexeme × Scan :=
  restWithin (s.weight + 1) s

end Scan

/-- The lexemes of a text, up to and including the end marker. -/
def Lexeme.ofText (t : Text) : List Lexeme :=
  (Scan.start (Document.ofText t).source 0).rest.1

end HeaderHints
