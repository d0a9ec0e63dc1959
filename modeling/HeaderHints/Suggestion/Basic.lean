import HeaderHints.Header.Basic
import HeaderHints.Header.Fill
import HeaderHints.ModulePath
import HeaderHints.TypeExpr.Tokens

/-!
# Suggestions

A suggestion says which types were seen at a function: the types of its arguments, its return type,
and how many calls they were seen in. `Suggestion.fill` writes the header of the function with these
types filled in.
-/

namespace HeaderHints

/-- Inferred types of a function. The types of the arguments follow the order of the header and
leave out a leading `self` or `cls`. -/
structure Signature where
  /-- Types of the arguments. -/
  argTypes : List Text
  /-- Type of the result. -/
  returnType : Text
deriving DecidableEq

/-- A signature that was inferred for the function at a line. -/
structure Suggestion where
  /-- The name of the function. -/
  funcName : Option Text := none
  /-- The line where its header starts. -/
  line : Nat
  /-- The file that holds it. -/
  path : Option Text := none
  /-- How many calls the signature was inferred from. -/
  samples : Nat := 0
  /-- The signature. -/
  signature : Signature
deriving DecidableEq

/-- A header with types filled in, and how many rows it takes the place of. -/
structure Filled where
  /-- The text, without a line break at its end. -/
  text : Text
  /-- Number of rows of the header in the source. -/
  lineCount : Nat
deriving DecidableEq

namespace Suggestion

/-- The types of a suggestion, ready to be filled in. -/
def types (s : Suggestion) : Except Fault Header.Types := do
  let args ← s.signature.argTypes.mapM TypeExpr.lex
  let result ← TypeExpr.lex s.signature.returnType
  return ⟨args, result, ModulePath.redundant s.path⟩

/-- A header with the types of a suggestion filled in. -/
def fillHeader (s : Suggestion) (header : Header) : Except Fault Filled := do
  let types ← s.types
  return ⟨← Header.fill types header.tokens, header.lineCount⟩

/-- The header at the line of a suggestion, filled in. The second result lists the lines of the
source that were asked for. -/
def fill (s : Suggestion) (source : Source) : Except Fault Filled × List Nat :=
  match Header.read source s.line with
  | (.error failure, asked) => (.error failure.fault, asked)
  | (.ok header, asked) => (s.fillHeader header, asked)

end Suggestion

end HeaderHints
