import HeaderHints.Text.Basic

/-!
# Blank characters

The characters with the Unicode property `White_Space`, and the texts they surround.
-/

namespace HeaderHints.Text

/-- Whether the code point of `c` lies in one of the ranges, both ends included. -/
def inRanges (ranges : List (Nat × Nat)) (c : Char) : Bool :=
  ranges.any fun (first, last) => first ≤ c.toNat && c.toNat ≤ last

/-- The blank characters beyond the ASCII range. -/
def blankRanges : List (Nat × Nat) :=
  [(0x85, 0x85), (0xa0, 0xa0), (0x1680, 0x1680), (0x2000, 0x200a), (0x2028, 0x2029),
   (0x202f, 0x202f), (0x205f, 0x205f), (0x3000, 0x3000)]

/-- Blanks: the space, the five controls from tab to carriage return, and the blanks beyond ASCII.
-/
def isBlank (c : Char) : Bool :=
  if c.toNat < 0x80 then
    c = ' ' || (0x09 ≤ c.toNat && c.toNat ≤ 0x0d)
  else
    inRanges blankRanges c

/-- A text without the blanks at its end. -/
def trimEnd (t : Text) : Text :=
  (t.reverse.dropWhile isBlank).reverse

/-- A text without the blanks at both ends. -/
def trim (t : Text) : Text :=
  trimEnd (t.dropWhile isBlank)

/-- Whether a text ends in a blank. -/
def endsBlank (t : Text) : Bool :=
  t.getLast?.any isBlank

end HeaderHints.Text
