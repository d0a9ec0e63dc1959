import HeaderHints.Json.Basic
import HeaderHints.Suggestion.Basic

/-!
# Suggestions as JSON

A list of suggestions is a JSON array of records. A record is an object with the fields
`func_name`, `line`, `path`, `samples` and `signature`, in any order and with any other fields
beside them; the names of the function and the file may be null or absent, and no samples means
none. A signature is an object with the fields `arg_types` and `return_type`. Both may also be
written as the array of all their fields in this order.
-/

namespace HeaderHints

namespace Json

/-- The text of a string. -/
def toText? : Json → Option Text
  | string text? => text?
  | _ => none

/-- The value of a natural. -/
def toNat? : Json → Option Nat
  | number natural? => natural?
  | _ => none

/-- The text of a string that may be null. -/
def toOptionalText? : Json → Option (Option Text)
  | null => some none
  | string text? => text?.map some
  | _ => none

/-- The texts of an array of strings. -/
def toTexts? : Json → Option (List Text)
  | array items => items.mapM toText?
  | _ => none

/-- The field `key`, if there is one. It is a failure to have it twice. -/
def field? (fields : List (Option Text × Json)) (key : Text) : Option (Option Json) :=
  match fields.filter (·.1 = some key) with
  | [] => some none
  | [(_, value)] => some (some value)
  | _ => none

/-- The field `key`, which has to be there. -/
def field (fields : List (Option Text × Json)) (key : Text) : Option Json :=
  (field? fields key).bind id

/-- A signature from its two parts. -/
def signatureOf (args result : Json) : Option Signature := do
  return ⟨← args.toTexts?, ← result.toText?⟩

/-- The signature that a value stands for. -/
def toSignature? : Json → Option Signature
  | array [args, result] => signatureOf args result
  | object fields =>
    if fields.all (·.1.isSome) then do
      signatureOf (← field fields "arg_types".toList) (← field fields "return_type".toList)
    else
      none
  | _ => none

/-- The suggestion that a value stands for. -/
def toSuggestion? : Json → Option Suggestion
  | array [funcName, line, path, samples, signature] => do
    return ⟨← funcName.toOptionalText?, ← line.toNat?, ← path.toOptionalText?, ← samples.toNat?,
      ← signature.toSignature?⟩
  | object fields =>
    if fields.all (·.1.isSome) then do
      let funcName ← ((← field? fields "func_name".toList).getD null).toOptionalText?
      let line ← (← field fields "line".toList).toNat?
      let path ← ((← field? fields "path".toList).getD null).toOptionalText?
      let samples ← ((← field? fields "samples".toList).getD (number (some 0))).toNat?
      let signature ← (← field fields "signature".toList).toSignature?
      return ⟨funcName, line, path, samples, signature⟩
    else
      none
  | _ => none

end Json

namespace Suggestion

/-- Read a list of suggestions. -/
def decode (t : Text) : Option (List Suggestion) :=
  match Json.read t with
  | some (.array items) => items.mapM Json.toSuggestion?
  | _ => none

/-- Write a suggestion. Names that are not known are left out. -/
def encodeOne (s : Suggestion) : Text :=
  Json.writeObject <|
    (s.funcName.map fun name => ("func_name".toList, Json.writeString name)).toList ++
      [("line".toList, Decimal.write s.line)] ++
      (s.path.map fun path => ("path".toList, Json.writeString path)).toList ++
      [("samples".toList, Decimal.write s.samples),
        ("signature".toList, Json.writeObject
          [("arg_types".toList, Json.writeArray (s.signature.argTypes.map Json.writeString)),
            ("return_type".toList, Json.writeString s.signature.returnType)])]

/-- Write a list of suggestions. -/
def encode (suggestions : List Suggestion) : Text :=
  Json.writeArray (suggestions.map encodeOne)

end Suggestion

end HeaderHints
