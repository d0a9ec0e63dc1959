import HeaderHints.Text.Quoted

/-!
# Tokens

One kind of token serves both the inferred types, which hold names and separators only, and the
function headers, where every token is tagged with its role. The kinds form a small hierarchy: a
default value is a dotted name, the colon before an annotation is a colon, and so on. Readers ask
`Kind.isA` and need not list the kinds below the one they want.
-/

namespace HeaderHints

namespace Token

/-- The role of a token. -/
inductive Kind where
  | name
  /-- A name such as `List` or `package.name`. -/
  | dottedName
  /-- Text of a default value. -/
  | argumentDefault
  | argumentName
  /-- The word `async`. -/
  | keyword
  /-- The word `def`. -/
  | definition
  | functionName
  | operator
  /-- Punctuation that is written with a space after it. -/
  | separator
  /-- Punctuation or layout that is written as it stands. -/
  | endSeparator
  | colon
  /-- The colon before an annotation. -/
  | typeDef
  /-- The colon that closes the header. -/
  | endDefinition
  /-- The equals sign before a default value. -/
  | defaultDef
  /-- The arrow before the return annotation. -/
  | returnTypeDef
  /-- What follows the word `lambda` in a default value. -/
  | lambdaBody
  /-- The end of the tokens. -/
  | stop
deriving DecidableEq

namespace Kind

/-- Every kind once. -/
def all : List Kind :=
  [name, dottedName, argumentDefault, argumentName, keyword, definition, functionName, operator,
    separator, endSeparator, colon, typeDef, endDefinition, defaultDef, returnTypeDef, lambdaBody,
    stop]

/-- How a kind is called in messages. -/
def title : Kind → Text
  | name => "Name".toList
  | dottedName => "DottedName".toList
  | argumentDefault => "ArgumentDefault".toList
  | argumentName => "ArgumentName".toList
  | keyword => "Keyword".toList
  | definition => "Definition".toList
  | functionName => "FunctionName".toList
  | operator => "Operator".toList
  | separator => "Separator".toList
  | endSeparator => "EndSeparator".toList
  | colon => "Colon".toList
  | typeDef => "TypeDef".toList
  | endDefinition => "EndDefinition".toList
  | defaultDef => "DefaultDef".toList
  | returnTypeDef => "ReturnTypeDef".toList
  | lambdaBody => "LambdaBody".toList
  | stop => "End".toList

/-- The kind directly above in the hierarchy. -/
def parent : Kind → Option Kind
  | dottedName | argumentName | keyword => some name
  | argumentDefault => some dottedName
  | definition => some keyword
  | separator => some operator
  | endSeparator | colon | defaultDef | returnTypeDef => some separator
  | typeDef | endDefinition => some colon
  | name | functionName | operator | lambdaBody | stop => none

/-- A kind and the next `n` kinds above it. -/
def lineage : Nat → Kind → List Kind
  | 0, k => [k]
  | n + 1, k => k :: (k.parent.map (lineage n)).getD []

/-- Whether `k` is `ancestor` or stands below it. No kind has more than three above it. -/
def isA (k ancestor : Kind) : Bool :=
  (lineage 3 k).contains ancestor

/-- Three steps reach the top of the hierarchy: a kind is below the kinds that its parent is
below. -/
theorem isA_eq (k ancestor : Kind) :
    k.isA ancestor = (k == ancestor || k.parent.any (isA · ancestor)) := by
  cases k <;> cases ancestor <;> rfl

end Kind

end Token

/-- A piece of a type or of a header: its role and its text. Only the end of the tokens has no
text. -/
structure Token where
  /-- The role. -/
  kind : Token.Kind
  /-- The text, if the token has one. -/
  text? : Option Text
deriving DecidableEq

namespace Token

/-- A token with a text. -/
def of (kind : Kind) (text : Text) : Token :=
  ⟨kind, some text⟩

/-- The token that closes every list of tokens. -/
def last : Token :=
  ⟨.stop, none⟩

/-- The text of a token, empty where there is none. -/
def text (t : Token) : Text :=
  t.text?.getD []

/-- Whether a token's kind is `ancestor` or stands below it. -/
def isA (t : Token) (ancestor : Kind) : Bool :=
  t.kind.isA ancestor

/-- Whether a text is an opening bracket. -/
def opensBracket (t : Text) : Bool :=
  t = ['('] || t = ['['] || t = ['{']

/-- Whether a text is a closing bracket. -/
def closesBracket (t : Text) : Bool :=
  t = [')'] || t = [']'] || t = ['}']

/-- An opening bracket of a header. -/
def isOpener (t : Token) : Bool :=
  t.kind = .endSeparator && opensBracket t.text

/-- A closing bracket of a header. -/
def isCloser (t : Token) : Bool :=
  t.kind = .endSeparator && closesBracket t.text

/-- A line break, indentation, comment or joined line end of a header. -/
def isLayout (t : Token) : Bool :=
  t.kind = .endSeparator && t.text.head?.all fun c => Text.isBlank c || c = '#' || c = '\\'

/-- A token as messages show it: its kind, and its text in quotes. -/
def display (t : Token) : Text :=
  match t.text? with
  | some text => t.kind.title ++ ['('] ++ Text.quoted text ++ [')']
  | none => t.kind.title

end Token

end HeaderHints
