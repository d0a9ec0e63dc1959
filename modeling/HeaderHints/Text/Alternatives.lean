import HeaderHints.Text.Basic

/-!
# Alternatives

How a message lists the things it expected.
-/

namespace HeaderHints.Text

/-- Choices joined for reading: two with "or" between them, more with commas and "or" before the
last. -/
def alternatives : List Text → Text
  | [] => []
  | [a] => a
  | [a, b] => a ++ " or ".toList ++ b
  | choices =>
    (choices.dropLast.flatMap fun choice => choice ++ ", ".toList) ++ "or ".toList ++
      choices.getLast?.getD []

end HeaderHints.Text
