import HeaderHints.Decimal
import HeaderHints.Suggestion.Basic

/-!
# Batches of suggestions

A function may have several suggestions. Each is filled in by itself, and one that fails becomes a
comment that says why. The texts are ordered by the number of samples behind them, duplicates are
left out, and the rest is merged into one edit. An edit replaces the header only when that is
wished and there is a single text, which is no comment; otherwise its lines are put above the
header, turned off by `##` unless a comment is among them.
-/

namespace HeaderHints

/-- How suggestions are written into a document. -/
structure Style where
  /-- What the comment about a failure starts with. -/
  commentLead : Text := "# types: ".toList
  /-- Whether headers are replaced. -/
  replace : Bool := false

/-- A change to a document: a text that goes to a row. -/
structure Edit where
  /-- The row. -/
  startLine : Nat
  /-- Number of rows that the text takes the place of, if it replaces any. -/
  lineCount : Nat
  /-- The text. -/
  text : Text
  /-- Whether rows are replaced. -/
  replace : Bool
deriving DecidableEq

namespace Edit

/-! ### Applying edits -/

/-- The row of a document where the text after an edit goes on. Line numbers are machine words, so
their sum is taken in machine words. -/
def resume (e : Edit) (d : Document) : Nat :=
  if e.replace then min ((e.startLine + e.lineCount) % Decimal.wordSize) d.length
  else min e.startLine d.length

/-- A document with an edit applied. -/
def apply (e : Edit) (d : Document) : Text :=
  d.joined 0 (min e.startLine d.length) ++ e.text ++
    d.joined (e.resume d) (d.length - e.resume d)

/-- A document with several edits applied, the last row first. -/
def applyAll (edits : List Edit) (d : Document) : Text :=
  (edits.mergeSort fun e e' => e'.startLine ≤ e.startLine).foldl
    (fun text e => e.apply (.ofText text)) d.text

end Edit

namespace Suggestion

/-! ### Merging suggestions -/

/-- What the comment about a failure says before its cause. -/
def complaintMarker : Text :=
  "Error generating suggestion: ".toList

/-- The text of some rows of a document, without the line break at the end. -/
def currentText (d : Document) (start count : Nat) : Text :=
  Text.withoutBreak (d.joined start count)

/-- The comment about a failure, with the indentation of the row it is about. -/
def complaint (s : Suggestion) (d : Document) (style : Style) (fault : Fault) : Filled where
  text := (d.getD s.line []).takeWhile (· = ' ') ++ style.commentLead ++ complaintMarker ++
    fault.message
  lineCount := 1

/-- What a suggestion changes a header into, if it changes it, or the comment about its failure. -/
def proposal? (s : Suggestion) (d : Document) (style : Style) : Option Filled :=
  match (s.fill d.source).1 with
  | .ok filled => if filled.text = currentText d s.line filled.lineCount then none else some filled
  | .error fault => some (s.complaint d style fault)

/-- The edit that merges the suggestions for one function. -/
def merge? (suggestions : List Suggestion) (d : Document) (style : Style) : Option Edit := do
  let startLine := (← suggestions.head?).line
  let proposals := suggestions.filterMap fun s => (s.proposal? d style).map (s.samples, ·)
  let ordered := proposals.mergeSort fun p q => q.1 ≤ p.1
  let texts := (ordered.map (·.2.text)).eraseDups
  let lineCount := (proposals.map (·.2.lineCount)).foldl max 0
  let block := ['\n'].intercalate texts
  let failed := Text.holds complaintMarker block
  let replace := style.replace && texts.length = 1 && !failed
  if block.isEmpty || block = currentText d startLine lineCount then
    none
  else
    let block :=
      if replace || failed then block
      else ['\n'].intercalate ((Text.lines block).map ("##".toList ++ ·))
    some ⟨startLine, lineCount, block ++ ['\n'], replace⟩

/-- The edits for all functions that suggestions are about, in the order of their lines. -/
def edits (suggestions : List Suggestion) (d : Document) (style : Style) : List Edit :=
  let lines := ((suggestions.map (·.line)).mergeSort (· ≤ ·)).eraseDups
  lines.filterMap fun line => merge? (suggestions.filter (·.line = line)) d style

end Suggestion

end HeaderHints
