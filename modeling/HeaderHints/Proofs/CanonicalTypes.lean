import HeaderHints.Proofs.LexedTypes

/-!
# Canonical types

A canonical type is one that is given as it is written: its names are made of word characters, dots and
colons, or are `...`, no name loses a module or stands for a built-in one, and neither `Optional` of one type
nor a union within a union occurs. The text of such a type is lexed and read back to the type itself
(`readWhole_render`).

The text goes through the tokens of the type: it is lexed into them (`Formed.lex_render`), they derive the
choices of the type (`Formed.grammatical`), and the choices of a canonical type are the type
(`choices_of_asWritten`).
-/

namespace HeaderHints.TypeExpr

open Text Reader

variable {modules : Modules} {t : TypeExpr} {name : Text}

/-- A type that is given as it is written, with names of word characters, dots and colons, or `...`. -/
def Canonical (modules : Modules) (t : TypeExpr) : Prop :=
  t.AsWritten (fun name ↦ Wordy name ∨ name = "...".toList) modules

/-- A name that starts with a word character is no mark. -/
theorem Wordy.nominal (h : Wordy name) : Nominal name := by
  have hmark : ∀ c ∈ "[]):".toList, isWord c = false := by decide
  obtain ⟨c, hc, hword⟩ := h.head
  refine ⟨?_, fun d hd ↦ ?_⟩
  · rintro rfl
    exact absurd hc (by simp)
  · rintro rfl
    obtain rfl : d = c := by simpa using hc
    rw [hmark d hd] at hword
    exact absurd hword (by simp)

/-- A name of a canonical type is a token by itself. -/
theorem lexes_of_canonical (h : Wordy name ∨ name = "...".toList) :
    Nominal name ∧ Lexes name Breaks [.of .dottedName name] := by
  rcases h with h | rfl
  · exact ⟨h.nominal, .wordy h⟩
  · exact ⟨nominal_ellipsis, Lexes.ellipsis.mono fun _ ↦ trivial⟩

/-- A type that is given as it is written reads as a type. -/
theorem AsWritten.formed {P : Text → Prop} (h : t.AsWritten P modules) : t.Formed P modules := by
  induction h with
  | @leaf name hname hshown hne =>
    refine .leaf (hshown.symm ▸ hname) ?_
    rw [hshown]
    by_cases hany : name = "Any".toList
    · exact .inl hany
    · refine .inr (notMem_ruledNames hshown ?_)
      simp only [List.mem_cons, List.not_mem_nil, or_false] at hne ⊢
      tauto
  | applied hname hshown hruled hne _ _ ih =>
    exact .applied (hshown.symm ▸ hname) (hshown.symm ▸ notMem_ruledNames hshown hruled) hne ih
  | list _ ih => exact .list rfl ih
  | @union args hlength _ _ ih =>
    refine .union rfl ?_ ih
    rintro rfl
    exact absurd hlength (by decide)

/-- **A canonical type is read back from its text.** -/
theorem readWhole_render (h : t.Canonical modules) :
    ∃ tokens, lex (render modules t) = .ok tokens ∧ readWhole.Takes tokens t [Token.last] := by
  have hformed := h.formed
  have hgrammatical : Grammatical modules t (toTokens .separator modules t) :=
    hformed.grammatical fun h ↦ (lexes_of_canonical h).1
  have hderives := hgrammatical.last (u := Token.last) [] (by decide) (by decide)
  have hread : read.Takes (toTokens .separator modules t ++ [Token.last]) t [Token.last] :=
    read_takes_iff.2 ⟨_, hderives, (choices_of_asWritten h).1.symm⟩
  exact ⟨_, hformed.lex_render lexes_of_canonical, readWhole_takes_iff.2 ⟨hread, _, _, rfl, rfl⟩⟩

/-- A list of parameters, a name that ends in separators, `...` and a union in brackets. -/
theorem readWhole_render_callable :
    ∃ tokens, lex "Callable[[a.b:, ...], int | None]".toList = .ok tokens ∧
      readWhole.Takes tokens (node "Callable".toList [node [] [leaf "a.b:".toList, leaf "...".toList],
        union [leaf "int".toList, leaf "None".toList]]) [Token.last] := by
  have hwordy : ∀ name ∈ ["Callable".toList, "a.b:".toList, "int".toList, "None".toList], Wordy name := by
    intro name hname
    simp only [List.mem_cons, List.not_mem_nil, or_false] at hname
    rcases hname with rfl | rfl | rfl | rfl <;>
      exact ⟨⟨_, rfl, by decide +kernel⟩, by decide +kernel, by decide⟩
  have hleaf : ∀ name ∈ ["a.b:".toList, "...".toList, "int".toList, "None".toList], (leaf name).Canonical [] := by
    intro name hname
    simp only [List.mem_cons, List.not_mem_nil, or_false] at hname
    rcases hname with rfl | rfl | rfl | rfl
    · exact .leaf (.inl (hwordy _ (by decide))) rfl (by decide)
    · exact .leaf (.inr rfl) rfl (by decide)
    · exact .leaf (.inl (hwordy _ (by decide))) rfl (by decide)
    · exact .leaf (.inl (hwordy _ (by decide))) rfl (by decide)
  have hlist : (node [] [leaf "a.b:".toList, leaf "...".toList]).Canonical [] :=
    .list (by simpa using ⟨hleaf _ (by decide), hleaf _ (by decide)⟩)
  have hunion : (union [leaf "int".toList, leaf "None".toList]).Canonical [] :=
    .union (by decide) (by decide) (by simpa using ⟨hleaf _ (by decide), hleaf _ (by decide)⟩)
  have hcallable : (node "Callable".toList [node [] [leaf "a.b:".toList, leaf "...".toList],
      union [leaf "int".toList, leaf "None".toList]]).Canonical [] :=
    .applied (.inl (hwordy _ (by decide))) rfl (by decide) (by simp) (by decide) (by simpa using ⟨hlist, hunion⟩)
  have hrender : render [] (node "Callable".toList [node [] [leaf "a.b:".toList, leaf "...".toList],
      union [leaf "int".toList, leaf "None".toList]]) = "Callable[[a.b:, ...], int | None]".toList := by
    rfl
  rw [← hrender]
  exact readWhole_render hcallable

end HeaderHints.TypeExpr
