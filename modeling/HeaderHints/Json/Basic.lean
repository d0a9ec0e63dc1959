import HeaderHints.Decimal

/-!
# JSON values

A JSON value as far as the library looks into it. Of numbers only the naturals that fit in a machine
word are told apart. A string literal may name half of a surrogate pair by an escape; such a literal
is well formed, so it may be skipped over, but it stands for no text.
-/

namespace HeaderHints

/-- A JSON value. -/
inductive Json where
  | null
  | bool (value : Bool)
  /-- A number, with its value if it is written as a natural below `Decimal.wordSize`. -/
  | number (natural? : Option Nat)
  /-- A string, with its text if it stands for one. -/
  | string (text? : Option Text)
  | array (items : List Json)
  | object (fields : List (Option Text × Json))

namespace Json

/-! ### Strings -/

/-- Value of a hexadecimal digit. -/
def hexDigit? (c : Char) : Option Nat :=
  if c.isDigit then some (c.toNat - '0'.toNat)
  else if 'a' ≤ c && c ≤ 'f' then some (c.toNat - 'a'.toNat + 10)
  else if 'A' ≤ c && c ≤ 'F' then some (c.toNat - 'A'.toNat + 10)
  else none

/-- Value of four hexadecimal digits. -/
def unit? (a b c d : Char) : Option Nat := do
  return (((← hexDigit? a) * 16 + (← hexDigit? b)) * 16 + (← hexDigit? c)) * 16 + (← hexDigit? d)

/-- The character that a letter stands for after a backslash. -/
def shortEscape? (c : Char) : Option Char :=
  match c with
  | '"' => some '"'
  | '\\' => some '\\'
  | '/' => some '/'
  | 'b' => some '\x08'
  | 'f' => some '\x0c'
  | 'n' => some '\n'
  | 'r' => some '\r'
  | 't' => some '\t'
  | _ => none

/-- Whether a unit is the first half of a surrogate pair. -/
def isHigh (n : Nat) : Bool :=
  0xd800 ≤ n && n < 0xdc00

/-- Whether a unit is the second half of a surrogate pair. -/
def isLow (n : Nat) : Bool :=
  0xdc00 ≤ n && n < 0xe000

/-- The character of a surrogate pair. -/
def paired (high low : Nat) : Char :=
  Char.ofNat (0x10000 + (high - 0xd800) * 0x400 + (low - 0xdc00))

/-- A string literal with a character before it. -/
def startingWith (c : Char) (literal : Option (Option Text × Text)) : Option (Option Text × Text) :=
  literal.map fun (text?, rest) => (text?.map (c :: ·), rest)

/-- A string literal with half of a surrogate pair before it. -/
def unpaired (literal : Option (Option Text × Text)) : Option (Option Text × Text) :=
  literal.map fun (_, rest) => (none, rest)

/-- Read a string literal after its opening quote. -/
def readString : Text → Option (Option Text × Text)
  | [] => none
  | '"' :: r => some (some [], r)
  | '\\' :: 'u' :: a :: b :: c :: d :: r =>
    match unit? a b c d with
    | none => none
    | some n =>
      if isHigh n then
        match r with
        | '\\' :: 'u' :: a' :: b' :: c' :: d' :: r' =>
          match unit? a' b' c' d' with
          | none => none
          | some m =>
            if isLow m then startingWith (paired n m) (readString r')
            else unpaired (readString ('\\' :: 'u' :: a' :: b' :: c' :: d' :: r'))
        | r => unpaired (readString r)
      else if isLow n then
        unpaired (readString r)
      else
        startingWith (Char.ofNat n) (readString r)
  | '\\' :: e :: r =>
    match shortEscape? e with
    | some c => startingWith c (readString r)
    | none => none
  | c :: r => if c.toNat < 0x20 || c = '\\' then none else startingWith c (readString r)

/-- How a character is written in a string literal. -/
def escaped (c : Char) : Text :=
  if c = '"' then ['\\', '"']
  else if c = '\\' then ['\\', '\\']
  else if c = '\x08' then ['\\', 'b']
  else if c = '\x0c' then ['\\', 'f']
  else if c = '\n' then ['\\', 'n']
  else if c = '\r' then ['\\', 'r']
  else if c = '\t' then ['\\', 't']
  else if c.toNat < 0x20 then
    ['\\', 'u', '0', '0', Nat.digitChar (c.toNat / 16), Nat.digitChar (c.toNat % 16)]
  else [c]

/-- Write a string literal. -/
def writeString (t : Text) : Text :=
  ['"'] ++ t.flatMap escaped ++ ['"']

/-! ### Numbers -/

/-- The whole part of a number: a single zero, or digits that start with another. -/
def readWhole : Text → Option (Text × Text)
  | c :: t =>
    if c = '0' then
      if t.head?.any Char.isDigit then none else some (['0'], t)
    else if c.isDigit then
      some ((c :: t).span Char.isDigit)
    else
      none
  | [] => none

/-- One digit or more. -/
def readDigits (t : Text) : Option Text :=
  if t.head?.any Char.isDigit then some (t.dropWhile Char.isDigit) else none

/-- What follows a number's fraction, and whether it has one. -/
def readFraction : Text → Option (Bool × Text)
  | '.' :: t => (readDigits t).map (true, ·)
  | t => some (false, t)

/-- What follows a number's exponent, and whether it has one. -/
def readExponent : Text → Option (Bool × Text)
  | e :: t =>
    if e = 'e' || e = 'E' then
      let signed := t.head? = some '+' || t.head? = some '-'
      (readDigits (if signed then t.drop 1 else t)).map (true, ·)
    else
      some (false, e :: t)
  | [] => some (false, [])

/-- Read a number. -/
def readNumber (t : Text) : Option (Json × Text) := do
  let (negative, t) :=
    match t with
    | '-' :: r => (true, r)
    | _ => (false, t)
  let (digits, t) ← readWhole t
  let (fraction, t) ← readFraction t
  let (exponent, t) ← readExponent t
  let n := Decimal.value digits
  let natural := !negative && !fraction && !exponent && n < Decimal.wordSize
  return (number (if natural then some n else none), t)

/-! ### Values -/

/-- A text without the white space at its start. -/
def skipSpace (t : Text) : Text :=
  t.dropWhile fun c => c = ' ' || c = '\t' || c = '\n' || c = '\r'

/-- The words that are values. -/
def readWord (t : Text) : Option (Json × Text) :=
  (Text.after? "null".toList t).map (null, ·) <|>
    (Text.after? "true".toList t).map (bool true, ·) <|>
      (Text.after? "false".toList t).map (bool false, ·)

mutual

/-- Read a value. -/
def readValue : Nat → Text → Option (Json × Text)
  | 0, _ => none
  | n + 1, t =>
    match skipSpace t with
    | [] => none
    | '"' :: r => (readString r).map fun (text?, rest) => (string text?, rest)
    | '[' :: r =>
      match skipSpace r with
      | ']' :: rest => some (array [], rest)
      | _ => (readItems n r).map fun (items, rest) => (array items, rest)
    | '{' :: r =>
      match skipSpace r with
      | '}' :: rest => some (object [], rest)
      | _ => (readFields n r).map fun (fields, rest) => (object fields, rest)
    | c :: r => if c = '-' || c.isDigit then readNumber (c :: r) else readWord (c :: r)

/-- Read the values of an array through its closing bracket. -/
def readItems : Nat → Text → Option (List Json × Text)
  | 0, _ => none
  | n + 1, t => do
    let (item, t) ← readValue n t
    match skipSpace t with
    | ',' :: r => do
      let (items, rest) ← readItems n r
      return (item :: items, rest)
    | ']' :: rest => return ([item], rest)
    | _ => none

/-- Read the fields of an object through its closing brace. -/
def readFields : Nat → Text → Option (List (Option Text × Json) × Text)
  | 0, _ => none
  | n + 1, t =>
    match skipSpace t with
    | '"' :: r => do
      let (key, t) ← readString r
      match skipSpace t with
      | ':' :: t => do
        let (item, t) ← readValue n t
        match skipSpace t with
        | ',' :: r => do
          let (fields, rest) ← readFields n r
          return ((key, item) :: fields, rest)
        | '}' :: rest => return ([(key, item)], rest)
        | _ => none
      | _ => none
    | _ => none

end

/-- Read a text that holds one value and white space around it. -/
def read (t : Text) : Option Json := do
  let (value, rest) ← readValue (2 * t.length + 2) t
  if (skipSpace rest).isEmpty then return value else none

/-- Write an array of written values. -/
def writeArray (items : List Text) : Text :=
  ['['] ++ [','].intercalate items ++ [']']

/-- Write an object of written values. -/
def writeObject (fields : List (Text × Text)) : Text :=
  ['{'] ++ [','].intercalate (fields.map fun (key, value) => writeString key ++ [':'] ++ value) ++
    ['}']

end Json

end HeaderHints
