import HeaderHints.Header.Draft
import HeaderHints.Lexeme.Scan

/-!
# Headers

A function header as its tokens, from the line where reading starts to the colon that closes it and
the rest of that row. Rows are asked for as the scan gets to them, so the number of rows read is the
number of rows that the header spans.
-/

namespace HeaderHints

/-- The tokens of a header, and how many rows it spans. -/
structure Header where
  /-- The tokens, closed by the end token. -/
  tokens : List Token
  /-- Number of rows. -/
  lineCount : Nat

namespace Header

/-- Take lexemes of a scan into a draft until the header is complete. -/
def readWithin : Nat → Scan → Draft → Except Failure Header × Scan
  | 0, scan, _ => (.error .endOfInput, scan)
  | n + 1, scan, draft =>
    let (x, scan) := scan.next
    match draft.take scan.rows x with
    | .error failure => (.error failure, scan)
    | .ok draft =>
      if draft.isComplete then (.ok ⟨draft.tokens, scan.rows.length⟩, scan)
      else readWithin n scan draft

/-- Read the header that starts at line `first` of a source. The second result lists the lines that
were asked for. -/
def read (source : Source) (first : Nat) : Except Failure Header × List Nat :=
  let scan := Scan.start source first
  let (result, scan) := readWithin (scan.weight + 1) scan {}
  (result, scan.feed.asked)

end Header

end HeaderHints
