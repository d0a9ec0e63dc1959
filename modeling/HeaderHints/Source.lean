import HeaderHints.Text.Basic

/-!
# Sources

A source hands out its lines one at a time, so that reading one header does not touch the rest of
the file. Line `i` is entry `i` of the source; an entry without a text, an empty text, or no entry
at all means that the source is exhausted. `Feed` keeps a record of the lines that were asked for.

A `Document` is a text held in memory as its rows.
-/

namespace HeaderHints

/-- The lines that can be asked for, by index. -/
abbrev Source := List (Option Text)

/-- A source that is being read. -/
structure Feed where
  /-- The lines that have not been asked for yet. -/
  upcoming : Source
  /-- The index of the first of them. -/
  index : Nat
  /-- The indices that have been asked for, in order. -/
  asked : List Nat

namespace Feed

/-- A source that is read from line `first` on. -/
def start (source : Source) (first : Nat) : Feed :=
  ⟨source.drop first, first, []⟩

/-- Ask for the next line. -/
def ask (f : Feed) : Option Text × Feed :=
  let asked := f.asked ++ [f.index]
  match f.upcoming with
  | some (c :: t) :: more => (some (c :: t), ⟨more, f.index + 1, asked⟩)
  | _ => (none, ⟨[], f.index + 1, asked⟩)

end Feed

/-- A text as its rows, which keep their line feeds. -/
abbrev Document := List Text

namespace Document

/-- The rows of a text. -/
def ofText (t : Text) : Document :=
  Text.rows t

/-- Up to `count` rows from row `start` on, joined. -/
def joined (d : Document) (start count : Nat) : Text :=
  ((d.drop start).take count).flatten

/-- The whole text. -/
def text (d : Document) : Text :=
  d.flatten

/-- The rows as a source. -/
def source (d : Document) : Source :=
  d.map some

end Document

end HeaderHints
