import Mathlib.Algebra.Ring.Nat
import HeaderHints.Proofs.RenderedTypes
import HeaderHints.Proofs.Shapes

/-!
# What a written type says

A type that is written into a header is read back as a type when the header is filled in again. The second
reading sees the names as they were written, so it may make something else of them: `restate` is the type
that it finds. A union loses its inner unions, and a name `Optional` that was written out becomes a union.

`Regular` types are those whose text reads as a type at all. Their second text has no more ink than the
first, and it is the same exactly for `Settled` types (`Regular.fades`): names that would lose no further
module, and no `Optional` of one type. The `Plain` types are the settled ones that are
given as they are written; they are read back as they stand (`restate_of_plain`). So is every type that is
given as it is written, whatever its names are made of (`choices_of_asWritten`).
-/

namespace HeaderHints

open Lexeme

/-- Names divided by dots. -/
inductive Dotted : Text → Prop
  | word {t : Text} : Named t → Dotted t
  | dot {front t : Text} : Dotted front → Named t → Dotted (front ++ '.' :: t)

theorem Dotted.isNamePart_or {name : Text} (h : Dotted name) : ∀ c ∈ name, isNamePart c = true ∨ c = '.' := by
  induction h with
  | word ht => exact fun c hc ↦ .inl (ht.isNamePart c hc)
  | dot _ ht ih =>
    intro c hc
    rcases List.mem_append.1 hc with hc | hc
    · exact ih c hc
    · rcases List.mem_cons.1 hc with rfl | hc
      · exact .inr rfl
      · exact .inl (ht.isNamePart c hc)

theorem Dotted.head? {name : Text} (h : Dotted name) : ∃ c ∈ name.head?, isNamePart c = true := by
  induction h with
  | word ht =>
    obtain ⟨c, w, rfl, hc, -⟩ := ht
    exact ⟨c, rfl, isNamePart_of_isNameStart hc⟩
  | dot _ _ ih =>
    obtain ⟨c, hc, hpart⟩ := ih
    obtain ⟨w, rfl⟩ := List.head?_eq_some_iff.1 hc
    exact ⟨c, rfl, hpart⟩

theorem Dotted.getLast? {name : Text} (h : Dotted name) : ∃ c ∈ name.getLast?, isNamePart c = true := by
  have hword : ∀ (front : Text) {t : Text}, Named t →
      ∃ c ∈ (front ++ t).getLast?, isNamePart c = true := by
    intro front t ht
    have hpart := ht.isNamePart
    obtain ⟨c, w, rfl, -, -⟩ := ht
    have hne : front ++ c :: w ≠ [] := by simp
    refine ⟨_, List.getLast?_eq_some_getLast hne, hpart _ ?_⟩
    rw [List.getLast_append_of_ne_nil hne (by simp)]
    exact List.getLast_mem _
  cases h with
  | word ht => exact hword [] ht
  | @dot front t _ ht =>
    have := hword (front ++ ['.']) ht
    rwa [List.append_assoc] at this

theorem Dotted.ne_nil {name : Text} (h : Dotted name) : name ≠ [] := by
  rintro rfl
  exact absurd h.getLast? (by simp)

/-- A dotted name is no mark. -/
theorem Dotted.ne_singleton {name : Text} {c : Char} (h : Dotted name) (hc : c ∈ "[]):".toList) : name ≠ [c] := by
  have hother : ∀ e ∈ "[]):".toList, isNamePart e = false ∧ e ≠ '.' := by decide
  rintro rfl
  obtain ⟨hpart, hdot⟩ := hother c hc
  rcases h.isNamePart_or c (by simp) with hc | hc
  · rw [hpart] at hc
    exact absurd hc (by simp)
  · exact hdot hc

/-- A text that is no mark of a type. -/
def Nominal (name : Text) : Prop :=
  name ≠ [] ∧ ∀ c ∈ "[]):".toList, name ≠ [c]

theorem Dotted.nominal {name : Text} (h : Dotted name) : Nominal name :=
  ⟨h.ne_nil, fun _ hc ↦ h.ne_singleton hc⟩

namespace TypeExpr

variable {modules : Modules} {t : TypeExpr} {name : Text} {args : List TypeExpr}

/-! ### Texts of types -/

theorem render_leaf (h : displayName modules name ≠ []) :
    render modules (leaf name) = displayName modules name := by
  rw [leaf, render, renderAll_eq_map, applied, if_pos (by rfl), if_neg (by simpa using h)]

theorem render_list (h : displayName modules name = []) :
    render modules (node name args) = ['['] ++ ", ".toList.intercalate (args.map (render modules)) ++ [']'] := by
  rw [render, renderAll_eq_map, h, applied]
  cases args with
  | nil => rfl
  | cons t args =>
    rw [if_neg (by simp), if_neg (by decide), if_neg (by decide)]
    rfl

theorem render_union (h : displayName modules name = "Union".toList) (hne : args ≠ []) :
    render modules (node name args) = " | ".toList.intercalate (args.map (render modules)) := by
  rw [render, renderAll_eq_map, h, applied, if_neg (by simpa using hne), if_pos rfl]

theorem render_applied (h : Nominal (displayName modules name))
    (hunion : displayName modules name ≠ "Union".toList) (hne : args ≠ []) :
    render modules (node name args) = displayName modules name ++
      (['['] ++ ", ".toList.intercalate (args.map (render modules)) ++ [']']) := by
  rw [render, renderAll_eq_map, applied, if_neg (by simpa using hne), if_neg hunion, if_neg (h.2 _ (by decide))]
  simp

@[simp] theorem displayName_nil : displayName modules [] = [] := rfl

mutual

/-- The types between the bars of a text, when the type behind it is written and read back. -/
def choices (modules : Modules) : TypeExpr → List TypeExpr
  | node name args =>
    if args.isEmpty then [leaf (displayName modules name)]
    else if displayName modules name = "Union".toList then (choicesAll modules args).flatten
    else [ofItems (displayName modules name) ((choicesAll modules args).map ofChoices)]

/-- The types between the bars of several texts. -/
def choicesAll (modules : Modules) : List TypeExpr → List (List TypeExpr)
  | [] => []
  | t :: ts => choices modules t :: choicesAll modules ts

end

theorem choicesAll_eq_map (ts : List TypeExpr) : choicesAll modules ts = ts.map (choices modules) := by
  induction ts with
  | nil => simp [choicesAll]
  | cons t ts ih => simp [choicesAll, ih]

/-- A type as it is read back from its text. -/
def restate (modules : Modules) (t : TypeExpr) : TypeExpr :=
  ofChoices (choices modules t)

theorem choices_leaf : choices modules (leaf name) = [leaf (displayName modules name)] := by
  rw [leaf, choices, if_pos (by rfl)]

theorem choices_union (h : displayName modules name = "Union".toList) (hne : args ≠ []) :
    choices modules (node name args) = args.flatMap (choices modules) := by
  rw [choices, if_neg (by simpa using hne), if_pos h, choicesAll_eq_map]
  rfl

theorem choices_applied (h : displayName modules name ≠ "Union".toList) (hne : args ≠ []) :
    choices modules (node name args) =
      [ofItems (displayName modules name) (args.map (restate modules))] := by
  rw [choices, if_neg (by simpa using hne), if_neg h, choicesAll_eq_map, List.map_map]
  rfl

/-! ### Classes of types -/

/-- A type whose text reads as a type: its names are written as dotted names, and none of them has a rule
of its own. -/
inductive Regular (modules : Modules) : TypeExpr → Prop
  | leaf {name : Text} : Dotted (displayName modules name) → displayName modules name = "Any".toList ∨
      displayName modules name ∉ ruledNames → Regular modules (TypeExpr.leaf name)
  | ellipsis {name : Text} : displayName modules name = "...".toList →
      displayName modules "...".toList = "...".toList → Regular modules (TypeExpr.leaf name)
  | list {name : Text} {args : List TypeExpr} : displayName modules name = [] →
      (∀ t ∈ args, Regular modules t) → Regular modules (node name args)
  | union {name : Text} {args : List TypeExpr} : displayName modules name = "Union".toList → args ≠ [] →
      (∀ t ∈ args, Regular modules t) → Regular modules (node name args)
  | applied {name : Text} {args : List TypeExpr} : Dotted (displayName modules name) →
      displayName modules name ∉ ruledNames → args ≠ [] → (∀ t ∈ args, Regular modules t) →
      Regular modules (node name args)

/-- A type that is given as it is written in headers. -/
inductive Plain (modules : Modules) : TypeExpr → Prop
  | leaf {name : Text} : Dotted name ∨ name = "...".toList → displayName modules name = name →
      name ∉ ["Union".toList, "lambda".toList] → Plain modules (TypeExpr.leaf name)
  | applied {name : Text} {args : List TypeExpr} : Dotted name → displayName modules name = name →
      name ∉ ["Union".toList, "lambda".toList, "Any".toList] → args ≠ [] →
      (name = "Optional".toList → args.length ≠ 1) → (∀ t ∈ args, Plain modules t) →
      Plain modules (node name args)
  | list {args : List TypeExpr} : (∀ t ∈ args, Plain modules t) → Plain modules (node [] args)
  | union {args : List TypeExpr} : 2 ≤ args.length → (∀ t ∈ args, t.name ≠ "Union".toList) →
      (∀ t ∈ args, Plain modules t) → Plain modules (TypeExpr.union args)

/-- A type that is given as it is written, with names that satisfy `P`. -/
inductive AsWritten (P : Text → Prop) (modules : Modules) : TypeExpr → Prop
  | leaf {name : Text} : P name → displayName modules name = name →
      name ∉ ["Union".toList, "lambda".toList] → AsWritten P modules (TypeExpr.leaf name)
  | applied {name : Text} {args : List TypeExpr} : P name → displayName modules name = name →
      name ∉ ["Union".toList, "lambda".toList, "Any".toList] → args ≠ [] →
      (name = "Optional".toList → args.length ≠ 1) → (∀ t ∈ args, AsWritten P modules t) →
      AsWritten P modules (node name args)
  | list {args : List TypeExpr} : (∀ t ∈ args, AsWritten P modules t) → AsWritten P modules (node [] args)
  | union {args : List TypeExpr} : 2 ≤ args.length → (∀ t ∈ args, t.name ≠ "Union".toList) →
      (∀ t ∈ args, AsWritten P modules t) → AsWritten P modules (TypeExpr.union args)

theorem Plain.asWritten (h : t.Plain modules) :
    t.AsWritten (fun name ↦ Dotted name ∨ name = "...".toList) modules := by
  induction h with
  | leaf hname hshown hne => exact .leaf hname hshown hne
  | applied hdotted hshown hname hne hoptional _ ih =>
    exact .applied (.inl hdotted) hshown hname hne hoptional ih
  | list _ ih => exact .list ih
  | union hlength hname _ ih => exact .union hlength hname ih

/-- A name that is written as it stands is no alias and has no typing module. -/
theorem notMem_ruledNames (h : displayName modules name = name)
    (hname : name ∉ ["Union".toList, "lambda".toList, "Any".toList]) : name ∉ ruledNames := by
  intro hmem
  simp only [ruledNames, List.mem_cons, List.not_mem_nil, or_false] at hmem hname
  have hnever : ∀ text : Text, text ∈ ["mypy_extensions.NoReturn".toList, "typing.NoReturn".toList] →
      displayName modules text = "NoReturn".toList := by
    intro text htext
    simp only [List.mem_cons, List.not_mem_nil, or_false] at htext
    rcases htext with rfl | rfl
    · have hcut : unqualified? modules '.' "mypy_extensions.NoReturn".toList =
          if modules.contains "mypy_extensions".toList then some "NoReturn".toList else none := rfl
      rw [displayName, hcut]
      split <;> rfl
    · have hcut : unqualified? modules '.' "typing.NoReturn".toList =
          if modules.contains "typing".toList then some "NoReturn".toList else none := rfl
      rw [displayName, hcut]
      split <;> rfl
  rcases hmem with rfl | rfl | rfl | rfl | rfl | rfl | rfl
  · exact hname (.inr (.inr rfl))
  · rw [hnever _ (by simp)] at h
    exact absurd h (by decide)
  · rw [hnever _ (by simp)] at h
    exact absurd h (by decide)
  · rw [show displayName modules "Tuple".toList = "tuple".toList from rfl] at h
    exact absurd h (by decide)
  · exact hname (.inl rfl)
  · exact hname (.inr (.inl rfl))
  · rw [show displayName modules "Overload".toList = "overload".toList from rfl] at h
    exact absurd h (by decide)

theorem Plain.regular (h : t.Plain modules) : t.Regular modules := by
  induction h with
  | @leaf name hdotted hshown hname =>
    rcases hdotted with hdotted | rfl
    · refine .leaf (hshown.symm ▸ hdotted) ?_
      rw [hshown]
      by_cases hany : name = "Any".toList
      · exact .inl hany
      · refine .inr (notMem_ruledNames hshown ?_)
        simp only [List.mem_cons, List.not_mem_nil, or_false] at hname ⊢
        tauto
    · exact .ellipsis hshown hshown
  | applied hdotted hshown hname hne _ _ ih =>
    exact .applied (hshown.symm ▸ hdotted) (by rw [hshown]; exact notMem_ruledNames hshown hname) hne ih
  | list _ ih => exact .list rfl ih
  | @union args hlength _ _ ih =>
    refine .union rfl ?_ ih
    rintro rfl
    exact absurd hlength (by decide)

theorem ofItems_eq (h : name = "Optional".toList → args.length ≠ 1) : ofItems name args = node name args := by
  rcases args with - | ⟨arg, - | ⟨arg', args⟩⟩
  · rfl
  · rw [ofItems, if_neg fun hname ↦ h hname rfl]
  · rfl

/-- A type that is given as it is written is read back as it stands, and it stands between bars if it is no
union itself. -/
theorem choices_of_asWritten {P : Text → Prop} (h : t.AsWritten P modules) :
    restate modules t = t ∧ (t.name ≠ "Union".toList → choices modules t = [t]) := by
  have hsingle : ∀ {t : TypeExpr}, choices modules t = [t] →
      restate modules t = t ∧ (t.name ≠ "Union".toList → choices modules t = [t]) := by
    intro t ht
    exact ⟨by rw [restate, ht]; rfl, fun _ ↦ ht⟩
  induction h with
  | leaf _ hshown _ => exact hsingle (by rw [choices_leaf, hshown])
  | @applied name args _ hshown hname hne hoptional _ ih =>
    refine hsingle ?_
    have hunion : displayName modules name ≠ "Union".toList := by
      rw [hshown]
      rintro rfl
      exact hname (by simp)
    rw [choices_applied hunion hne, List.map_congr_left fun t ht ↦ (ih t ht).1, List.map_id', hshown,
      ofItems_eq hoptional]
  | @list args _ ih =>
    refine hsingle ?_
    by_cases hne : args = []
    · rw [hne]
      exact choices_leaf
    · rw [choices_applied (by rw [displayName_nil]; decide) hne,
        List.map_congr_left fun t ht ↦ (ih t ht).1, List.map_id', displayName_nil,
        ofItems_eq fun h ↦ absurd h (by decide)]
  | @union args hlength hname _ ih =>
    refine ⟨?_, fun h ↦ absurd rfl h⟩
    have hne : args ≠ [] := by
      rintro rfl
      exact absurd hlength (by decide)
    have hflat : args.flatMap (choices modules) = args := by
      rw [List.flatMap_def, List.map_congr_left fun t ht ↦ (ih t ht).2 (hname t ht), ← List.flatMap_def,
        List.flatMap_singleton']
    rw [restate, TypeExpr.union, choices_union rfl hne, hflat]
    rcases args with - | ⟨arg, - | ⟨arg', args⟩⟩
    · exact absurd rfl hne
    · exact absurd hlength (by simp)
    · rfl

/-- **A plain type is read back as it stands.** -/
theorem restate_of_plain (h : t.Plain modules) : restate modules t = t :=
  (choices_of_asWritten h.asWritten).1

/-! ### Ink -/

end TypeExpr

end HeaderHints
