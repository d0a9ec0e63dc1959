import HeaderHints.Text.Alternatives
import HeaderHints.Token

/-!
# Faults

Why a type or a header could not be read or filled in. A fault is a cause; its wording is given
once, by `Fault.message?`. What a message quotes from the input is written by `Text.quoted` or
`Token.display`.
-/

namespace HeaderHints

/-- The causes of failure. -/
inductive Fault where
  /-- A failure that was described in words. -/
  | described (words : Text)
  /-- A failure without a description. -/
  | unexplained
  /-- A token was needed where none is left. -/
  | ranOut
  /-- A token has another text than the one required. -/
  | expectedText (wanted : Text) (got : Token)
  /-- A token is of none of the kinds required. -/
  | expectedKind (wanted : List Token.Kind) (got : Token)
  /-- An item of a list is followed by neither a comma nor a closing bracket. -/
  | expectedListEnd (got : Text)
  /-- A union without items. -/
  | emptyUnion
  /-- Tokens follow a complete type. -/
  | expectedTypeEnd (got : Token)
  /-- A literal does not start with a bracket. -/
  | expectedOpener (got : Text)
  /-- An item of a literal is followed by neither a comma nor the literal's own bracket. -/
  | expectedCloser (wanted got : Text)
  /-- An inferred type holds something that is neither a name nor a separator. -/
  | unreadableType (rest whole : Text)
  /-- The source holds something that is no token. -/
  | unrecognized (text : Text)
  /-- The source holds something that is no token, inside a lambda. -/
  | unrecognizedInLambda (text : Text)
  /-- A piece of a formatted string stands on its own. -/
  | strayFragment (text : Text)
  /-- A formatted string is not closed. -/
  | unterminatedFString (text : Text)
  /-- The word `def` occurs twice before the arguments. -/
  | secondDefinition
  /-- An operator stands where a header cannot have it. -/
  | unexpectedOperator (op : Text)
  /-- A dot follows nothing that it could continue. -/
  | unexpectedDot
  /-- The source ends before the header does. -/
  | headerCutShort
  /-- The header has no argument list. -/
  | noArgumentList
  /-- The tokens end while the arguments are counted. -/
  | argumentsCutShort
  /-- The argument list is not closed. -/
  | unclosedArguments
  /-- There are fewer inferred types than arguments that need one. -/
  | noTypeLeft (argument : Text)
  /-- An annotation or a default value has an open bracket at the end of the header. -/
  | unbalanced

namespace Fault

/-- The wording of a fault, if it has one. -/
def message? : Fault → Option Text
  | described words => some words
  | unexplained => none
  | ranOut => some "ran out of tokens".toList
  | expectedText wanted got => some <|
    "expected ".toList ++ Text.quoted wanted ++ ", got ".toList ++ got.display
  | expectedKind wanted got => some <|
    "expected ".toList ++ Text.alternatives (wanted.map fun k => ['\''] ++ k.title ++ ['\'']) ++
      ", got ".toList ++ got.display
  | expectedListEnd got => some <|
    "expected ',', ')', or ']', got ".toList ++ Text.quoted got
  | emptyUnion => some "No items in Union".toList
  | expectedTypeEnd got => some <| "expected end of type, got ".toList ++ got.display
  | expectedOpener got => some <|
    "expected '(', '[', or '\x7b', got ".toList ++ Text.quoted got
  | expectedCloser wanted got => some <|
    "expected ',' or ".toList ++ Text.quoted wanted ++ ", got ".toList ++ Text.quoted got
  | unreadableType rest whole => some <|
    "could not parse ".toList ++ Text.quoted rest ++ " from ".toList ++ Text.quoted whole
  | unrecognized text => some <| "unrecognized source text ".toList ++ Text.quoted text
  | unrecognizedInLambda text => some <|
    "unrecognized source text ".toList ++ Text.quoted text ++ " in lambda".toList
  | strayFragment text => some <| "unexpected f-string fragment ".toList ++ Text.quoted text
  | unterminatedFString text => some <| "unterminated f-string near ".toList ++ Text.quoted text
  | secondDefinition => some "did not expect second definition keyword".toList
  | unexpectedOperator op => some <|
    "unexpected operator ".toList ++ Text.quoted op ++ " in function definition".toList
  | unexpectedDot => some "unexpected \".\" in function definition".toList
  | headerCutShort => some "reached end of input, expected end of definition".toList
  | noArgumentList => some "expected argument list, got End".toList
  | argumentsCutShort => some "found End token while locating arguments".toList
  | unclosedArguments => some "expected ')' closing the argument list".toList
  | noTypeLeft argument => some <|
    "no inferred type left for argument ".toList ++ Text.quoted argument
  | unbalanced => some "unbalanced brackets, got End".toList

/-- What is shown of a fault. -/
def message (f : Fault) : Text :=
  f.message?.getD "parse error".toList

end Fault

end HeaderHints
