/-!
# Text

Everything the library reads or writes is a list of characters, so that a text can be taken apart
by recursion on it. Columns are counted in UTF-8 bytes; `bytes` is that measure, and `splitBytes?`
is the only place where a byte offset is turned back into a split of a text. An offset that falls
inside a character, or past the end, splits nothing.

A document is a text cut after each line feed (`rows`): the rows keep their line feeds, so joining
them gives the document back, and no row is empty.
-/

namespace HeaderHints

/-- A source text, the text of a token, or a message. -/
abbrev Text := List Char

namespace Text

/-- What holds of all characters of a text is decided on the text, and not on all characters. -/
instance (priority := high) decidableForallMem (p : Char → Prop) [DecidablePred p] (t : Text) :
    Decidable (∀ c ∈ t, p c) :=
  List.decidableBAll p t

/-! ### Byte offsets -/

/-- Number of bytes of a text in UTF-8. -/
def bytes : Text → Nat
  | [] => 0
  | c :: t => c.utf8Size + bytes t

@[simp] theorem bytes_nil : bytes [] = 0 := rfl

@[simp] theorem bytes_cons (c : Char) (t : Text) : bytes (c :: t) = c.utf8Size + bytes t := rfl

@[simp] theorem bytes_append (t u : Text) : bytes (t ++ u) = bytes t + bytes u := by
  induction t with
  | nil => simp
  | cons c t ih => simp [ih, Nat.add_assoc]

/-- Split a text after its first `n` bytes. -/
def splitBytes? : Nat → Text → Option (Text × Text)
  | 0, t => some ([], t)
  | _ + 1, [] => none
  | n + 1, c :: t =>
    if c.utf8Size ≤ n + 1 then
      (splitBytes? (n + 1 - c.utf8Size) t).map fun (front, back) => (c :: front, back)
    else
      none

/-- A split at a byte offset recovers the two halves. -/
theorem splitBytes?_bytes_append (t u : Text) : splitBytes? (bytes t) (t ++ u) = some (t, u) := by
  induction t with
  | nil => cases u <;> rfl
  | cons c t ih =>
    obtain ⟨n, hn⟩ := Nat.exists_eq_add_one.2 c.utf8Size_pos
    have h : bytes (c :: t) = (n + bytes t) + 1 := by simp [hn]; omega
    rw [h, List.cons_append, splitBytes?, if_pos (by omega),
      show n + bytes t + 1 - c.utf8Size = bytes t by omega, ih]
    rfl

/-- The part of a text from byte `a` on. -/
def fromByte (a : Nat) (t : Text) : Text :=
  ((splitBytes? a t).map Prod.snd).getD []

/-- The part of a text before byte `b`. -/
def toByte (b : Nat) (t : Text) : Text :=
  ((splitBytes? b t).map Prod.fst).getD []

/-- The part of a text from byte `a` to byte `b`. -/
def between (a b : Nat) (t : Text) : Text :=
  fromByte a (toByte b t)

/-! ### Cutting at a character -/

/-- What stands before and after the first `c`. -/
def cut? (c : Char) : Text → Option (Text × Text)
  | [] => none
  | d :: t => if d = c then some ([], t) else (cut? c t).map fun (front, back) => (d :: front, back)

/-- The parts of a text between occurrences of `c`; there is always at least one. -/
def splitAll (c : Char) : Text → List Text
  | [] => [[]]
  | d :: t =>
    if d = c then
      [] :: splitAll c t
    else
      match splitAll c t with
      | [] => [[d]]
      | part :: parts => (d :: part) :: parts

/-- The text after `lead`, if it starts so. -/
def after? (lead t : Text) : Option Text :=
  if lead.isPrefixOf t then some (t.drop lead.length) else none

/-- Whether `part` occurs in a text. -/
def holds (part : Text) : Text → Bool
  | [] => part.isEmpty
  | c :: t => part.isPrefixOf (c :: t) || holds part t

/-! ### Rows -/

/-- The rows of a text, each with its line feed. -/
def rows : Text → List Text
  | [] => []
  | c :: t =>
    if c = '\n' then
      [c] :: rows t
    else
      match rows t with
      | [] => [[c]]
      | row :: more => (c :: row) :: more

/-- A text is its rows in order. -/
theorem flatten_rows (t : Text) : (rows t).flatten = t := by
  induction t with
  | nil => rfl
  | cons c t ih =>
    rw [rows]
    split
    · simp [ih]
    · split <;> simp_all

/-- A text without the line break at its end: a line feed and a carriage return before it. -/
def withoutBreak (t : Text) : Text :=
  match t.reverse with
  | '\n' :: '\r' :: r => r.reverse
  | '\n' :: r => r.reverse
  | _ => t

/-- The rows of a text without their line breaks. -/
def lines (t : Text) : List Text :=
  (rows t).map withoutBreak

end Text

end HeaderHints
