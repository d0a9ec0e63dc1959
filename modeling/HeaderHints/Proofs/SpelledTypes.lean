import HeaderHints.Proofs.Restating

/-!
# The tokens of a written type

The text of a type stands for a list of toTokens (`TypeExpr.toTokens`). In a header and in an inferred type the
same tokens are found, apart from the kind of the brackets, so the kind is a parameter. The tokens of a
regular type derive the choices that it is read back as (`Regular.grammatical`), whatever follows them, as
long as it does not go on with a bracket or a bar. What names are made of plays no part in this, as long as
no name is a mark, so it is a parameter of the types that are looked at (`Formed`).
-/

namespace HeaderHints.TypeExpr

variable {modules : Modules} {bracket : Token.Kind} {name : Text} {args : List TypeExpr}

/-! ### Tokens -/

/-- Tokens in square brackets. -/
def bracketed (bracket : Token.Kind) (ts : List Token) : List Token :=
  .of bracket ['['] :: (ts ++ [.of bracket [']']])

/-- A name with the tokens of its arguments. -/
def spelled (bracket : Token.Kind) (name : Text) (args : List (List Token)) : List Token :=
  if name.isEmpty then
    bracketed bracket ([.of .separator [',']].intercalate args)
  else if args.isEmpty then
    [.of .dottedName name]
  else if name = "Union".toList then
    [.of .separator ['|']].intercalate args
  else
    .of .dottedName name :: bracketed bracket ([.of .separator [',']].intercalate args)

mutual

/-- The tokens of the text of a type. -/
def toTokens (bracket : Token.Kind) (modules : Modules) : TypeExpr → List Token
  | node name args => spelled bracket (displayName modules name) (toTokensAll bracket modules args)

/-- The tokens of the texts of several types. -/
def toTokensAll (bracket : Token.Kind) (modules : Modules) : List TypeExpr → List (List Token)
  | [] => []
  | t :: ts => toTokens bracket modules t :: toTokensAll bracket modules ts

end

theorem toTokensAll_eq_map (ts : List TypeExpr) :
    toTokensAll bracket modules ts = ts.map (toTokens bracket modules) := by
  induction ts with
  | nil => simp [toTokensAll]
  | cons t ts ih => simp [toTokensAll, ih]

theorem toTokens_leaf (h : displayName modules name ≠ []) :
    toTokens bracket modules (leaf name) = [.of .dottedName (displayName modules name)] := by
  rw [leaf, toTokens, toTokensAll_eq_map, spelled, if_neg (by simpa using h), if_pos (by rfl)]

theorem toTokens_list (h : displayName modules name = []) :
    toTokens bracket modules (node name args) =
      bracketed bracket ([.of .separator [',']].intercalate (args.map (toTokens bracket modules))) := by
  rw [toTokens, toTokensAll_eq_map, h, spelled, if_pos (by rfl)]

theorem toTokens_union (h : displayName modules name = "Union".toList) (hne : args ≠ []) :
    toTokens bracket modules (node name args) =
      [.of .separator ['|']].intercalate (args.map (toTokens bracket modules)) := by
  rw [toTokens, toTokensAll_eq_map, h, spelled, if_neg (by decide), if_neg (by simpa using hne), if_pos rfl]

theorem toTokens_applied (hname : displayName modules name ≠ [])
    (hunion : displayName modules name ≠ "Union".toList) (hne : args ≠ []) :
    toTokens bracket modules (node name args) = .of .dottedName (displayName modules name) ::
      bracketed bracket ([.of .separator [',']].intercalate (args.map (toTokens bracket modules))) := by
  rw [toTokens, toTokensAll_eq_map, spelled, if_neg (by simpa using hname), if_neg (by simpa using hne),
    if_neg hunion]

/-! ### What the tokens derive -/

/-- Tokens that derive the choices of a type. -/
structure Grammatical (modules : Modules) (t : TypeExpr) (ts : List Token) : Prop where
  beforeBar : ∀ {u rest more rest'}, u.text = ['|'] → Derives .choices rest more rest' →
    Derives .choices (ts ++ u :: rest) (choices modules t ++ more) rest'
  last : ∀ {u} (rest), u.text ≠ ['['] → u.text ≠ ['|'] →
    Derives .choices (ts ++ u :: rest) (choices modules t) (u :: rest)
  starts : ∃ first more, ts = first :: more ∧ ¬ closesItems first.text

/-- A type without bars at its top level. -/
theorem Grammatical.of_single {t tree : TypeExpr} {ts : List Token} (htree : choices modules t = [tree])
    (hsingle : ∀ {u rest}, u.text ≠ ['['] → Derives .single (ts ++ u :: rest) [tree] (u :: rest))
    (hstarts : ∃ first more, ts = first :: more ∧ ¬ closesItems first.text) : Grammatical modules t ts where
  beforeBar := by
    intro u rest more rest' hu hmore
    rw [htree]
    exact .choicesBar (hsingle (by rw [hu]; decide)) hu hmore
  last := by
    intro u rest hopen hbar
    rw [htree]
    exact .choicesLast (hsingle hopen) hbar
  starts := hstarts

/-- Types that are divided by commas. -/
theorem derives_items {u : Token} (rest : List Token)
    (h : ∀ t ∈ args, Grammatical modules t (toTokens bracket modules t)) (hu : closesItems u.text) :
    Derives .items ([.of .separator [',']].intercalate (args.map (toTokens bracket modules)) ++ u :: rest)
      (args.map (restate modules)) (u :: rest) := by
  induction args with
  | nil => exact .itemsEnd hu
  | cons t args ih =>
    have ht := h t (by simp)
    obtain ⟨first, more, hstarts, hfirst⟩ := ht.starts
    cases args with
    | nil =>
      obtain ⟨hopen, hbar⟩ := ne_of_closesItems hu
      have hlast := ht.last rest hopen hbar
      simp only [List.map_cons, List.map_nil, List.intercalate_singleton]
      rw [hstarts] at hlast ⊢
      exact .itemsLast hfirst hlast hu
    | cons v args =>
      have hrest := ih fun w hw ↦ h w (by simp [hw])
      have hlast := ht.last (u := .of .separator [',']) ([.of .separator [',']].intercalate
        ((v :: args).map (toTokens bracket modules)) ++ u :: rest) (by decide) (by decide)
      simp only [List.map_cons, List.intercalate_cons_cons] at hrest hlast ⊢
      rw [List.append_assoc, List.append_assoc, hstarts, List.singleton_append]
      rw [hstarts] at hlast
      exact .itemsComma hfirst hlast rfl hrest

theorem derives_bracketed {rest : List Token}
    (h : ∀ t ∈ args, Grammatical modules t (toTokens bracket modules t)) :
    Derives (.bracketed ['['] [']'])
      (bracketed bracket ([.of .separator [',']].intercalate (args.map (toTokens bracket modules))) ++ rest)
      (args.map (restate modules)) rest := by
  have hitems := derives_items (u := .of bracket [']']) rest h (.inr rfl)
  rw [bracketed, List.cons_append, List.append_assoc]
  exact .bracketed rfl hitems rfl

/-- Types that are divided by bars. -/
theorem grammatical_union (hname : displayName modules name = "Union".toList) (hne : args ≠ [])
    (h : ∀ t ∈ args, Grammatical modules t (toTokens bracket modules t)) :
    Grammatical modules (node name args) (toTokens bracket modules (node name args)) := by
  induction args with
  | nil => exact absurd rfl hne
  | cons t args ih =>
    have ht := h t (by simp)
    rw [toTokens_union hname hne]
    cases args with
    | nil =>
      have hchoices : choices modules (node name [t]) = choices modules t := by
        rw [choices_union hname hne, List.flatMap_singleton]
      simp only [List.map_cons, List.map_nil, List.intercalate_singleton]
      refine ⟨fun hu hmore ↦ ?_, fun _ hopen hbar ↦ ?_, ht.starts⟩
      · rw [hchoices]
        exact ht.beforeBar hu hmore
      · rw [hchoices]
        exact ht.last _ hopen hbar
    | cons v args =>
      have hrest := ih (by simp) fun w hw ↦ h w (by simp [hw])
      rw [toTokens_union hname (by simp)] at hrest
      have hchoices : choices modules (node name (t :: v :: args)) =
          choices modules t ++ choices modules (node name (v :: args)) := by
        rw [choices_union hname hne, choices_union hname (by simp), List.flatMap_cons]
      simp only [List.map_cons, List.intercalate_cons_cons] at hrest ⊢
      refine ⟨fun hu hmore ↦ ?_, fun _ hopen hbar ↦ ?_, ?_⟩
      · rw [hchoices, List.append_assoc, List.append_assoc, List.append_assoc, List.singleton_append]
        exact ht.beforeBar rfl (hrest.beforeBar hu hmore)
      · rw [hchoices, List.append_assoc, List.append_assoc, List.singleton_append]
        exact ht.beforeBar rfl (hrest.last _ hopen hbar)
      · obtain ⟨first, more, hstarts, hfirst⟩ := ht.starts
        rw [hstarts]
        exact ⟨first, _, rfl, hfirst⟩

theorem ne_of_notMem_ruledNames (h : name ∉ ruledNames) : name ≠ "Union".toList := by
  rintro rfl
  exact h (by decide)

theorem not_closesItems_of_nominal (h : Nominal name) : ¬ closesItems name := by
  rintro (h' | h')
  · exact h.2 _ (by decide) h'
  · exact h.2 _ (by decide) h'

theorem nominal_ellipsis : Nominal "...".toList :=
  ⟨by decide, by decide⟩

/-- A type whose text reads as a type, with names that are written as texts with `P`. -/
inductive Formed (P : Text → Prop) (modules : Modules) : TypeExpr → Prop
  | leaf {name : Text} : P (displayName modules name) → displayName modules name = "Any".toList ∨
      displayName modules name ∉ ruledNames → Formed P modules (TypeExpr.leaf name)
  | list {name : Text} {args : List TypeExpr} : displayName modules name = [] →
      (∀ t ∈ args, Formed P modules t) → Formed P modules (node name args)
  | union {name : Text} {args : List TypeExpr} : displayName modules name = "Union".toList → args ≠ [] →
      (∀ t ∈ args, Formed P modules t) → Formed P modules (node name args)
  | applied {name : Text} {args : List TypeExpr} : P (displayName modules name) →
      displayName modules name ∉ ruledNames → args ≠ [] → (∀ t ∈ args, Formed P modules t) →
      Formed P modules (node name args)

/-- **The tokens of a type whose text reads as one derive the choices that it is read back as.** -/
theorem Formed.grammatical {P : Text → Prop} (hP : ∀ {name}, P name → Nominal name) {t : TypeExpr}
    (h : t.Formed P modules) : Grammatical modules t (toTokens bracket modules t) := by
  induction h with
  | @leaf name hname hruled =>
    have hname := hP hname
    rw [toTokens_leaf hname.1]
    refine .of_single choices_leaf (fun hu ↦ ?_) ⟨_, _, rfl, not_closesItems_of_nominal hname⟩
    rcases hruled with hany | hruled
    · exact .any rfl hany
    · exact .leaf rfl (hname.2 _ (by decide)) hruled hu
  | @list name args hname _ ih =>
    have hchoices : choices modules (node name args) = [node [] (args.map (restate modules))] := by
      by_cases hne : args = []
      · rw [hne, show node name [] = TypeExpr.leaf name from rfl, choices_leaf, hname]
        rfl
      · rw [choices_applied (by rw [hname]; decide) hne, hname, ofItems_eq fun h ↦ absurd h (by decide)]
    rw [toTokens_list hname]
    refine .of_single hchoices (fun _ ↦ .list rfl (derives_bracketed ih)) ⟨_, _, rfl, ?_⟩
    simp [closesItems, Token.of, Token.text]
  | union hname hne _ ih => exact grammatical_union hname hne ih
  | @applied name args hname hruled hne _ ih =>
    have hname := hP hname
    have hunion := ne_of_notMem_ruledNames hruled
    rw [toTokens_applied hname.1 hunion hne]
    refine .of_single (choices_applied hunion hne) (fun _ ↦ ?_) ⟨_, _, rfl, not_closesItems_of_nominal hname⟩
    exact .applied rfl (hname.2 _ (by decide)) hruled rfl (derives_bracketed ih)

/-- **The tokens of a regular type derive the choices that it is read back as.** -/
theorem Regular.grammatical {t : TypeExpr} (h : t.Regular modules) :
    Grammatical modules t (toTokens bracket modules t) := by
  refine Formed.grammatical (P := Nominal) id ?_
  induction h with
  | leaf hdotted hruled => exact .leaf hdotted.nominal hruled
  | ellipsis hname _ =>
    refine .leaf ?_ (.inr ?_)
    · rw [hname]
      exact nominal_ellipsis
    · rw [hname]
      decide
  | list hname _ ih => exact .list hname ih
  | union hname hne _ ih => exact .union hname hne ih
  | applied hdotted hruled hne _ ih => exact .applied hdotted.nominal hruled hne ih

end HeaderHints.TypeExpr
