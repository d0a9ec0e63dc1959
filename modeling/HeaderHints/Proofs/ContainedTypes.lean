import HeaderHints.Proofs.RenderedTypes

/-!
# What an inferred type can write

An inferred type comes from outside and may be any text. What is written of it into a header cannot leave its
place there: it is a non-empty text of word characters and the marks of types, and every square bracket in it
is closed after it is opened (`render_contained`). So it holds no line break, no quote and no comment, and it
neither closes a bracket of the header nor opens one that stays open.

The characters are those of the names (`allNames_of_readWhole`), whose modules may be left out, and those
that `applied` puts between the texts of the arguments. Brackets come from `applied` alone, and always in
pairs.
-/

namespace HeaderHints

namespace Text

/-- Every square bracket is closed after it is opened. -/
structure Balanced (t : Text) : Prop where
  /-- No front part closes more brackets than it opens. -/
  opened : ∀ {front : Text}, front <+: t → front.count ']' ≤ front.count '['
  /-- In the end as many brackets are closed as were opened. -/
  closed : t.count ']' = t.count '['

theorem balanced_of_notMem {t : Text} (hopen : '[' ∉ t) (hclose : ']' ∉ t) : Balanced t where
  opened := by
    intro front hfront
    rw [List.count_eq_zero_of_not_mem fun h ↦ hclose (hfront.subset h)]
    exact Nat.zero_le _
  closed := by
    rw [List.count_eq_zero_of_not_mem hopen, List.count_eq_zero_of_not_mem hclose]

theorem Balanced.append {t u : Text} (ht : Balanced t) (hu : Balanced u) : Balanced (t ++ u) where
  opened := by
    intro front hfront
    rcases List.prefix_or_prefix_of_prefix hfront (List.prefix_append t u) with h | ⟨back, rfl⟩
    · exact ht.opened h
    · have hback := hu.opened ((List.prefix_append_right_inj t).1 hfront)
      rw [List.count_append, List.count_append, ht.closed]
      omega
  closed := by
    rw [List.count_append, List.count_append, ht.closed, hu.closed]

theorem Balanced.bracketed {t : Text} (h : Balanced t) : Balanced (['['] ++ t ++ [']']) where
  opened := by
    intro front hfront
    rw [List.append_assoc, List.singleton_append, List.prefix_cons_iff] at hfront
    rcases hfront with rfl | ⟨front, rfl, hfront⟩
    · exact Nat.le_refl 0
    · have hopen : ('[' :: front).count '[' = front.count '[' + 1 := List.count_cons_self
      have hclose : ('[' :: front).count ']' = front.count ']' := List.count_cons_of_ne (by decide)
      rw [hopen, hclose]
      rcases List.prefix_concat_iff.1 hfront with rfl | hfront
      · rw [List.count_append, List.count_append, h.closed]
        exact Nat.le_refl _
      · exact Nat.le_succ_of_le (h.opened hfront)
  closed := by
    simp only [List.count_append, h.closed]
    exact Nat.add_right_comm _ _ _

/-- A text that stays in its place within a header. -/
structure Contained (t : Text) : Prop where
  /-- The text is there. -/
  ne_nil : t ≠ []
  /-- It is made of word characters and the marks of types. -/
  chars : ∀ c ∈ t, isWord c = true ∨ c ∈ ".:[],| ".toList
  /-- Its brackets are its own. -/
  balanced : Balanced t

theorem Contained.append {t u : Text} (ht : Contained t) (hu : Contained u) : Contained (t ++ u) where
  ne_nil := List.append_ne_nil_of_left_ne_nil ht.ne_nil u
  chars := fun c hc ↦ (List.mem_append.1 hc).elim (ht.chars c) (hu.chars c)
  balanced := ht.balanced.append hu.balanced

theorem Contained.bracketed {t : Text} (h : Contained t) : Contained (['['] ++ t ++ [']']) where
  ne_nil := by simp
  chars := by
    intro c hc
    simp only [List.mem_append, List.mem_singleton] at hc
    rcases hc with (rfl | hc) | rfl
    · exact .inr (by decide)
    · exact h.chars c hc
    · exact .inr (by decide)
  balanced := h.balanced.bracketed

theorem contained_intercalate {sep : Text} (hsep : Contained sep) {ts : List Text} (hne : ts ≠ [])
    (h : ∀ t ∈ ts, Contained t) : Contained (sep.intercalate ts) := by
  induction ts with
  | nil => exact absurd rfl hne
  | cons t ts ih =>
    cases ts with
    | nil => simpa using h t (by simp)
    | cons u ts =>
      have hrest := ih (by simp) fun v hv ↦ h v (by simp [hv])
      rw [List.intercalate_cons_cons]
      exact ((h t (by simp)).append hsep).append hrest

/-- A name of word characters, dots and colons. -/
theorem contained_name {name : Text} (hne : name ≠ [])
    (h : ∀ c ∈ name, isWord c = true ∨ c = '.' ∨ c = ':') : Contained name where
  ne_nil := hne
  chars := by
    intro c hc
    rcases h c hc with hc | rfl | rfl
    · exact .inl hc
    · exact .inr (by decide)
    · exact .inr (by decide)
  balanced := balanced_of_notMem (fun hmem ↦ absurd (h _ hmem) (by decide))
    fun hmem ↦ absurd (h _ hmem) (by decide)

end Text

namespace TypeExpr

open Text Reader

/-- A name with the texts of its arguments. -/
theorem contained_applied {name : Text} {args : List Text}
    (hname : ∀ c ∈ name, isWord c = true ∨ c = '.' ∨ c = ':') (hargs : ∀ t ∈ args, Contained t) :
    Contained (applied name args) := by
  have hsep : ∀ sep ∈ [" | ".toList, ": ".toList, ", ".toList], Contained sep := by
    intro sep hmem
    have hall : ∀ sep ∈ [" | ".toList, ": ".toList, ", ".toList], sep ≠ [] ∧ '[' ∉ sep ∧ ']' ∉ sep ∧
        ∀ c ∈ sep, c ∈ ".:[],| ".toList := by decide
    obtain ⟨hne, hopen, hclose, hchars⟩ := hall sep hmem
    exact ⟨hne, fun c hc ↦ .inr (hchars c hc), balanced_of_notMem hopen hclose⟩
  unfold applied
  split
  · split
    · have hmarks : ∀ c ∈ "[]".toList, c ∈ ".:[],| ".toList := by decide
      have hnil : Balanced [] := balanced_of_notMem (by simp) (by simp)
      exact ⟨by decide, fun c hc ↦ .inr (hmarks c hc), hnil.bracketed⟩
    · rename_i hne
      exact contained_name (by simpa using hne) hname
  rename_i hne
  have hne : args ≠ [] := by simpa using hne
  split
  · exact contained_intercalate (hsep _ (by decide)) hne hargs
  split
  · exact contained_intercalate (hsep _ (by decide)) hne hargs
  · have hitems := (contained_intercalate (hsep ", ".toList (by decide)) hne hargs).bracketed
    by_cases hempty : name = []
    · rw [hempty]
      exact hitems
    · rw [List.append_assoc, List.append_assoc, ← List.append_assoc ['[']]
      exact (contained_name hempty hname).append hitems

/-- **The text of a type whose names are names** stays in its place. -/
theorem AllNames.contained_render {t : TypeExpr} (modules : Modules)
    (h : t.AllNames fun name ↦ ∀ c ∈ name, isWord c = true ∨ c = '.' ∨ c = ':') :
    Contained (render modules t) := by
  induction h with
  | @node name args hname _ ih =>
    rw [render, renderAll_eq_map]
    refine contained_applied (forall_mem_displayName modules (by decide) hname) fun u hu ↦ ?_
    obtain ⟨t, ht, rfl⟩ := List.mem_map.1 hu
    exact ih t ht

/-- **What is written of an inferred type stays in its place**, whatever the text of the type is and whichever
modules are left out. -/
theorem render_contained {text : Text} {tokens rest : List Token} {t : TypeExpr} (modules : Modules)
    (hlex : lex text = .ok tokens) (hread : readWhole.Takes tokens t rest) :
    Contained (render modules t) ∧
      ∀ c ∈ "\n\r\x0b\x0c\u0085\u2028\u2029'\"#=()\\".toList, c ∉ render modules t := by
  have hcontained := (allNames_of_readWhole hlex hread).contained_render modules
  have hother : ∀ c ∈ "\n\r\x0b\x0c\u0085\u2028\u2029'\"#=()\\".toList,
      isWord c = false ∧ c ∉ ".:[],| ".toList := by decide +kernel
  refine ⟨hcontained, fun c hc hmem ↦ ?_⟩
  obtain ⟨hword, hmark⟩ := hother c hc
  rcases hcontained.chars c hmem with h | h
  · rw [hword] at h
    exact absurd h (by simp)
  · exact hmark h

theorem render_contained_external : ∃ (tokens rest : List Token) (t : TypeExpr),
    lex "typing.Dict[T\x601, Union[m.A, x-y, ...]?]".toList = .ok tokens ∧ readWhole.Takes tokens t rest ∧
      render ["m".toList] t = "dict[T, A | Any | ...]".toList ∧
      Contained "dict[T, A | Any | ...]".toList := by
  obtain ⟨tokens, hlex, hread⟩ : ∃ tokens,
      lex "typing.Dict[T\x601, Union[m.A, x-y, ...]?]".toList = .ok tokens ∧
        readWhole.Takes tokens (node "typing.Dict".toList
          [leaf ['T'], union [leaf "m.A".toList, leaf "Any".toList, leaf "...".toList]]) [Token.last] :=
    ⟨[.of .dottedName "typing.Dict".toList, .of .separator ['['], .of .dottedName ['T'],
      .of .separator [','], .of .dottedName "Union".toList, .of .separator ['['],
      .of .dottedName "m.A".toList, .of .separator [','], .of .dottedName "Any".toList,
      .of .separator [','], .of .dottedName "...".toList, .of .separator [']'], .of .separator [']'],
      Token.last], by rfl, by rfl⟩
  exact ⟨tokens, _, _, hlex, hread, rfl, (render_contained ["m".toList] hlex hread).1⟩

end TypeExpr

end HeaderHints
