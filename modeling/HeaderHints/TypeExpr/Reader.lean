import HeaderHints.Fault

/-!
# Reading tokens

A reader takes tokens off the front of a list. When it fails it leaves behind the tokens that it had
not taken yet, so that reading can go on from there; `ExceptT` over the state keeps them. A `Cursor`
remembers the whole list as well, which gives every position a number and lets it be set back.
-/

namespace HeaderHints

/-- A computation that takes tokens off the front of a list and may fail. -/
abbrev Reader := ExceptT Fault (StateM (List Token))

namespace Reader

/-- The next token, which stays in place. -/
def peek : Reader Token := do
  match ← get with
  | [] => throw .ranOut
  | t :: _ => return t

/-- Take the next token. -/
def next : Reader Token := do
  match ← get with
  | [] => throw .ranOut
  | t :: ts =>
    set ts
    return t

/-- The text of the next token, which stays in place. -/
def peekText : Reader Text :=
  Token.text <$> peek

/-- Take the next token, which has to have the text `wanted`. -/
def expect (wanted : Text) : Reader Unit := do
  let t ← next
  if t.text = wanted then return else throw (.expectedText wanted t)

/-- Take the next token, which has to be of one of the kinds `wanted`. -/
def expectKind (wanted : List Token.Kind) : Reader Token := do
  let t ← next
  if wanted.any t.isA then return t else throw (.expectedKind wanted t)

/-- Whether the next token is the end token. -/
def atEnd : Reader Bool :=
  return (← get).head?.any (·.kind = .stop)

end Reader

/-- A place in a list of tokens. -/
structure Cursor where
  /-- The whole list. -/
  tokens : List Token
  /-- How many of its tokens have been taken. -/
  position : Nat := 0

namespace Cursor

/-- The tokens that have not been taken yet. -/
def rest (c : Cursor) : List Token :=
  c.tokens.drop c.position

/-- Run a reader at the cursor. The cursor moves over the tokens that were taken, also on failure.
-/
def run {α : Type} (c : Cursor) (reader : Reader α) : Except Fault α × Cursor :=
  let (result, rest) := reader.run.run c.rest
  (result, ⟨c.tokens, c.tokens.length - rest.length⟩)

/-- Step back over one token. -/
def back (c : Cursor) : Cursor :=
  ⟨c.tokens, c.position - 1⟩

/-- Go to a position. -/
def moveTo (c : Cursor) (position : Nat) : Cursor :=
  ⟨c.tokens, position⟩

end Cursor

end HeaderHints
