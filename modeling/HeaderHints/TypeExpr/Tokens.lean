import HeaderHints.Fault
import HeaderHints.Text.Word

/-!
# Tokens of inferred types

An inferred type arrives as a flat text. Brackets, commas, stars, bars and arrows are separators; a
run of name characters is one dotted name, whose parts may be divided by dots or colons with blanks
around them. Question marks carry no information and are dropped before anything else is read.
-/

namespace HeaderHints.TypeExpr

/-! ### Names -/

/-- Characters of the first part of a name. -/
def isHead (c : Char) : Bool :=
  Text.isWord c || c = '-' || c = '\x60'

/-- Characters of the later parts of a name. -/
def isPart (c : Char) : Bool :=
  Text.isWord c || c = '-' || c = '/'

/-- The parts of a name after the first, with their dividers, and what follows them. -/
def splitParts : Nat → Text → Text × Text
  | 0, t => ([], t)
  | n + 1, t =>
    match t.span Text.isBlank with
    | (_, []) => ([], t)
    | (gap, c :: r) =>
      if c = '.' || c = ':' then
        let (space, r) := r.span Text.isBlank
        let (part, r) := r.span isPart
        let (parts, r) := splitParts n r
        (gap ++ c :: space ++ part ++ parts, r)
      else
        ([], t)

/-- The name at the start of a text and what follows it. -/
def splitName (t : Text) : Text × Text :=
  match t.span isHead with
  | ([], _) => ([], t)
  | (head, r) =>
    let (parts, r) := splitParts r.length r
    (head ++ parts, r)

/-- The name meant by a written one. Blanks are dropped; a backquote starts the number of a type
variable; the classes of single time zones stand for their base class; and a name with a dash or a
slash is no name at all, so any type may be meant. -/
def meantName (written : Text) : Text :=
  let name := (written.filter fun c => !Text.isBlank c).takeWhile (· ≠ '\x60')
  if "pytz.tzfile.".toList.isPrefixOf name then "datetime.tzinfo".toList
  else if name.contains '-' || name.contains '/' then "Any".toList
  else name

/-! ### Lexing -/

/-- Characters that are separators by themselves. -/
def isSeparator (c : Char) : Bool :=
  "()[],*|".toList.contains c

/-- The tokens of what is left of the text `whole`. -/
def lexRest (whole : Text) : Nat → Text → Except Fault (List Token)
  | _, [] => .ok [Token.last]
  | 0, t => .error (.unreadableType t whole)
  | n + 1, c :: t =>
    if Text.isBlank c then
      lexRest whole n t
    else if isSeparator c then
      return .of .separator [c] :: (← lexRest whole n t)
    else if let some r := Text.after? "->".toList (c :: t) then
      return .of .separator "->".toList :: (← lexRest whole n r)
    else if let some r := Text.after? "...".toList (c :: t) then
      return .of .dottedName "...".toList :: (← lexRest whole n r)
    else
      match splitName (c :: t) with
      | ([], _) => .error (.unreadableType (c :: t) whole)
      | (name, r) => return .of .dottedName (meantName name) :: (← lexRest whole n r)

/-- The tokens of an inferred type, closed by the end token. -/
def lex (text : Text) : Except Fault (List Token) :=
  let known := text.filter (· ≠ '?')
  lexRest text known.length known

end HeaderHints.TypeExpr
