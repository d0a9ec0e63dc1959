import HeaderHints.Proofs.InsertOnly
import HeaderHints.Proofs.RowHeaders

/-!
# Filling in a header of one row

Filling in a header of one row gives a header of one row again (`fill_row`): the annotations that are there
are restated, the names without one get the types that are matched to them from the right, and the return
type goes to its place unless there is one.
-/

namespace HeaderHints

/-! ### Filled headers -/

/-- The type of name number `k` out of `n`, when types are matched to names from the right. -/
def aligned (types : List TypeExpr) (n k : Nat) : Option TypeExpr :=
  if n ≤ k + types.length then types[k + types.length - n]? else none

namespace Item

/-- Whether an item is a named argument. -/
def isNamed : Item → Bool
  | marker _ => false
  | named .. => true

/-- An item with an annotation, unless it has one. -/
def filled (type? : Option TypeExpr) : Item → Item
  | marker mark => marker mark
  | named stars name hint value => named stars name (hint <|> type?) value

/-- An item with another annotation in place of its own. -/
def mapHint (f : TypeExpr → TypeExpr) : Item → Item
  | marker mark => marker mark
  | named stars name hint value => named stars name (hint.map f) value

/-- The places that an item takes in an argument list. The star before a name takes one. -/
def places : Item → List Header.Place
  | marker _ => [.marker]
  | named stars .. => if stars = ['*'] then [.marker, .name] else [.name]

/-- Items with their types, where `k` out of `n` names stand before them. -/
def fillAll (types : List TypeExpr) (n : Nat) : Nat → List Item → List Item
  | _, [] => []
  | k, i :: items => i.filled (aligned types n k) :: fillAll types n (k + i.isNamed.toNat) items

theorem countP_mapHint (f : TypeExpr → TypeExpr) (items : List Item) :
    (items.map (mapHint f)).countP isNamed = items.countP isNamed := by
  rw [List.countP_map]
  congr 1
  funext i
  cases i <;> rfl

end Item

namespace RowHeader

/-- A header with types for its arguments and its result, where it has none. -/
def filled (types : List TypeExpr) (result : TypeExpr) (h : RowHeader) : RowHeader :=
  { h with
    items := Item.fillAll types (h.items.countP Item.isNamed) 0 h.items
    result := h.result <|> some result }

/-- A header with other annotations in place of its own. -/
def mapHints (f : TypeExpr → TypeExpr) (h : RowHeader) : RowHeader :=
  { h with items := h.items.map (Item.mapHint f), result := h.result.map f }

end RowHeader

/-! ### Default values -/

section PlainValue

open TypeExpr Lexeme

theorem Text.cut?_eq_none {c : Char} {t : Text} (h : c ∉ t) : cut? c t = none := by
  induction t with
  | nil => rfl
  | cons d t ih =>
    obtain ⟨hd, ht⟩ : c ≠ d ∧ c ∉ t := by simpa using h
    rw [Text.cut?, if_neg (Ne.symm hd), ih ht]
    rfl

theorem PlainValue.notMem {v : Text} (h : PlainValue v) {c : Char} (hc : isNamePart c = false) : c ∉ v := by
  intro hmem
  rcases h with ⟨-, hdigit⟩ | ⟨hnamed, -⟩
  · have := hdigit c hmem
    simp only [isNamePart, Char.isAlphanum, Bool.or_eq_false_iff] at hc
    rw [hc.1.1.2] at this
    exact absurd this (by simp)
  · rw [hnamed.isNamePart c hmem] at hc
    exact absurd hc (by simp)

theorem PlainValue.notMem_words {v : Text} (h : PlainValue v) :
    v ∉ ["lambda".toList, "Union".toList] ∧ v ∉ aliases := by
  rcases h with ⟨hne, hdigit⟩ | ⟨-, hwords⟩
  · have hword : ∀ word ∈ ["lambda".toList, "Union".toList] ++ aliases,
        word.head?.any (fun c ↦ !c.isDigit) = true := by decide
    have hother : v ∉ ["lambda".toList, "Union".toList] ++ aliases := by
      intro hmem
      obtain ⟨c, hc, hfalse⟩ := (Option.any_eq_true _ _).1 (hword v hmem)
      rw [hdigit c (List.mem_of_mem_head? hc)] at hfalse
      exact absurd hfalse (by simp)
    exact ⟨fun hmem ↦ hother (List.mem_append_left _ hmem), fun hmem ↦ hother (List.mem_append_right _ hmem)⟩
  · exact hwords

theorem PlainValue.displayName_eq {v : Text} (h : PlainValue v) : displayName [] v = v := by
  have hdot := Text.cut?_eq_none (h.notMem (c := '.') (by decide))
  have hcolon := Text.cut?_eq_none (h.notMem (c := ':') (by decide))
  simp [displayName, unqualified?, untyped, hdot, hcolon, h.notMem_words.2]

end PlainValue

namespace Header

open TypeExpr Lexeme Reader

variable {modules modules' : Modules} {types : Types} {f : Filling} {u : Token} {rest : List Token} {out : Text}

/-! ### Annotations and default values -/

/-- A token that ends an annotation or a default value and is no part of a type. -/
structure Stops (u : Token) : Prop where
  ends : endsItem u = true
  open_ne : u.text ≠ ['[']
  bar_ne : u.text ≠ ['|']
  kind_ne : u.kind ≠ .typeDef

/-- An annotation that the header has is restated. -/
theorem writeAnnotation_hint {t : TypeExpr} {next : Nat} (h : t.Regular modules) (hu : Stops u) :
    Filling.writeAnnotation modules' ⟨t.toTokens .endSeparator modules ++ u :: rest, out, next⟩ =
      .ok ⟨u :: rest, out ++ render modules' (restate modules t), next⟩ := by
  have hread : TypeExpr.read.Takes (t.toTokens .endSeparator modules ++ u :: rest) (restate modules t) (u :: rest) :=
    read_takes_iff.2 ⟨_, h.grammatical.last rest hu.open_ne hu.bar_ne, rfl⟩
  have hrender : (render modules' <$> TypeExpr.read).run.run (t.toTokens .endSeparator modules ++ u :: rest) =
      (.ok (render modules' (restate modules t)), u :: rest) := takes_map.2 ⟨_, hread, rfl⟩
  rw [Filling.writeAnnotation, Filling.renderOrCopy]
  dsimp only
  rw [hrender]
  dsimp only
  rw [if_pos hu.ends]

/-- A plain default value stays as it is. -/
theorem writeDefault_value {v : Text} {next : Nat} (hv : PlainValue v) (hu : Stops u) :
    Filling.writeDefault ⟨.of .argumentDefault v :: u :: rest, out, next⟩ =
      .ok ⟨u :: rest, out ++ v, next⟩ := by
  have hne : v ≠ [] := by
    rcases hv with ⟨hne, -⟩ | ⟨⟨c, t, rfl, -⟩, -⟩
    · exact hne
    · simp
  have hsingle : Derives .single (.of .argumentDefault v :: u :: rest) [leaf v] (u :: rest) := by
    by_cases hany : v = "Any".toList
    · exact .any rfl hany
    · have hruled : v ∉ ruledNames := by
        refine notMem_ruledNames hv.displayName_eq ?_
        have := hv.notMem_words.1
        simp only [List.mem_cons, List.not_mem_nil, or_false] at this ⊢
        tauto
      refine .leaf rfl ?_ hruled hu.open_ne
      rintro rfl
      exact hv.notMem (c := '[') (by decide) (by simp)
  have hread : TypeExpr.read.Takes (.of .argumentDefault v :: u :: rest) (leaf v) (u :: rest) :=
    read_takes_iff.2 ⟨_, .choicesLast hsingle hu.bar_ne, rfl⟩
  have hrender : (render [] <$> TypeExpr.read).run.run (.of .argumentDefault v :: u :: rest) =
      (.ok v, u :: rest) := by
    refine takes_map.2 ⟨_, hread, ?_⟩
    rw [render_leaf (by rw [hv.displayName_eq]; exact hne), hv.displayName_eq]
  rw [Filling.writeDefault]
  dsimp only
  rw [if_neg (by simp [Token.of, Token.isOpener]), Filling.renderOrCopy]
  dsimp only
  rw [hrender]
  dsimp only
  rw [if_pos hu.ends]

/-! ### Arguments -/

/-- A token that divides or closes an argument list. -/
def Delimits (u : Token) : Prop :=
  u = .of .separator [','] ∨ u = .of .endSeparator [')']

theorem Delimits.stops (h : Delimits u) : Stops u := by
  rcases h with rfl | rfl
  · exact ⟨rfl, by decide, by decide, by decide⟩
  · exact ⟨rfl, by decide, by decide, by decide⟩

theorem stops_equals : Stops (.of .defaultDef ['=']) :=
  ⟨rfl, by decide, by decide, by decide⟩

/-- What follows an annotation starts with a token that ends it. -/
theorem exists_stops (value : Option Text) (rest : List Token) (hu : Delimits u) :
    ∃ v more, valueTokens value ++ u :: rest = v :: more ∧ Stops v := by
  cases value with
  | none => exact ⟨u, rest, rfl, hu.stops⟩
  | some v => exact ⟨_, _, rfl, stops_equals⟩

theorem fillDefault_value {value : Option Text} {next : Nat} (hv : ∀ v ∈ value, PlainValue v) (hu : Delimits u) :
    Filling.fillDefault ⟨valueTokens value ++ u :: rest, out, next⟩ =
      .ok ⟨u :: rest, out ++ value.elim [] fun v ↦ " = ".toList ++ v, next⟩ := by
  cases value with
  | none =>
    have hkind : u.kind ≠ .defaultDef := by rcases hu with rfl | rfl <;> decide
    show (if u.kind = .defaultDef then _ else _) = _
    rw [if_neg hkind]
    simp [valueTokens]
  | some v =>
    show Filling.writeDefault ⟨.of .argumentDefault v :: u :: rest, out ++ " = ".toList, next⟩ = _
    rw [writeDefault_value (hv v rfl) hu.stops]
    simp

/-- What `inferred` makes of the tokens of a type. -/
def Means (modules : Modules) (tokens : List Token) (t : TypeExpr) : Prop :=
  Filling.inferred modules tokens = .ok (render modules t)

/-- **An argument without annotation** gets the next type, unless it is skipped. -/
theorem fillArgument_bare {name : Text} {value : Option Text} {skip : Bool} {next : Nat} {type? : Option TypeExpr}
    (hv : ∀ v ∈ value, PlainValue v) (hu : Delimits u)
    (htype : if skip then type? = none else ∃ t tokens, type? = some t ∧ types.args[next]? = some tokens ∧
      Means types.modules tokens t) :
    Filling.fillArgument types name skip ⟨valueTokens value ++ u :: rest, out, next⟩ =
      .ok ⟨u :: rest, out ++ (name ++ (type?.elim [] fun t ↦ ": ".toList ++ t.render types.modules) ++
        value.elim [] fun v ↦ " = ".toList ++ v), next + (!skip).toNat⟩ := by
  obtain ⟨v, more, hrest, hstops⟩ := exists_stops value rest hu
  have hfill : Filling.fillType types name skip ⟨valueTokens value ++ u :: rest, out ++ name, next⟩ =
      .ok ⟨valueTokens value ++ u :: rest, out ++ name ++
        (type?.elim [] fun t ↦ ": ".toList ++ t.render types.modules), next + (!skip).toNat⟩ := by
    rw [hrest, Filling.fillType]
    dsimp only
    rw [if_neg hstops.kind_ne]
    cases skip with
    | true =>
      obtain rfl : type? = none := by simpa using htype
      simp
    | false =>
      obtain ⟨t, tokens, rfl, hget, hmeans⟩ : ∃ t tokens, type? = some t ∧ types.args[next]? = some tokens ∧
        Means types.modules tokens t := by simpa using htype
      rw [if_neg (by simp), hget]
      dsimp only
      rw [hmeans]
      simp [bind, Except.bind, pure, Except.pure]
  rw [Filling.fillArgument, hfill]
  show Filling.fillDefault _ = _
  rw [fillDefault_value hv hu]
  simp

/-- **An argument with an annotation** keeps it, restated. -/
theorem fillArgument_hinted {name : Text} {t : TypeExpr} {value : Option Text} {skip : Bool} {next : Nat}
    (ht : t.Regular modules) (hv : ∀ v ∈ value, PlainValue v) (hu : Delimits u) :
    Filling.fillArgument types name skip
        ⟨hintTokens modules (some t) ++ valueTokens value ++ u :: rest, out, next⟩ =
      .ok ⟨u :: rest, out ++ (name ++ (": ".toList ++ render types.modules (restate modules t)) ++
        value.elim [] fun v ↦ " = ".toList ++ v), next + (!skip).toNat⟩ := by
  obtain ⟨v, more, hrest, hstops⟩ := exists_stops value rest hu
  have hfill : Filling.fillType types name skip
      ⟨hintTokens modules (some t) ++ valueTokens value ++ u :: rest, out ++ name, next⟩ =
      .ok ⟨valueTokens value ++ u :: rest, out ++ name ++
        (": ".toList ++ render types.modules (restate modules t)), next + (!skip).toNat⟩ := by
    rw [List.append_assoc, hrest, hintTokens, Filling.fillType]
    dsimp only [List.cons_append]
    rw [if_pos (by rfl), writeAnnotation_hint ht hstops]
    cases skip <;> simp [bind, Except.bind, pure, Except.pure]
  rw [Filling.fillArgument, hfill]
  show Filling.fillDefault _ = _
  rw [fillDefault_value hv hu]
  simp

/-! ### Argument lists -/

variable {trees : List TypeExpr} {ps : List Place}

theorem skipped_name (n k m : Nat) :
    skipped (n - (k + m)) (.name :: ps) = decide (k + m < n) :: skipped (n - (k + 1 + m)) ps := by
  by_cases hlt : k + m < n
  · obtain ⟨d, hd⟩ : ∃ d, n - (k + m) = d + 1 := ⟨n - (k + m) - 1, by omega⟩
    rw [hd, skipped, show n - (k + 1 + m) = d by omega, decide_eq_true hlt]
  · rw [show n - (k + m) = 0 by omega, skipped, show n - (k + 1 + m) = 0 by omega, decide_eq_false hlt]

theorem means_of_aligned {n k : Nat} (hargs : List.Forall₂ (Means types.modules) types.args trees) (hk : k < n) :
    if decide (k + trees.length < n) then aligned trees n k = none
    else ∃ t tokens, aligned trees n k = some t ∧ types.args[k + trees.length - n]? = some tokens ∧
      Means types.modules tokens t := by
  have hlength := hargs.length_eq
  by_cases hlt : k + trees.length < n
  · rw [if_pos (by simpa using hlt), aligned, if_neg (by omega)]
  · have hindex : k + trees.length - n < trees.length := by omega
    have hindex' : k + trees.length - n < types.args.length := by omega
    rw [if_neg (by simpa using hlt), aligned, if_pos (by omega)]
    refine ⟨trees[k + trees.length - n], types.args[k + trees.length - n], ?_, ?_, ?_⟩
    · exact List.getElem?_eq_getElem hindex
    · exact List.getElem?_eq_getElem hindex'
    · exact hargs.get hindex' hindex

theorem fillArguments_stars {stars : Text} {fuel d next : Nat} (h : stars ∈ [[], ['*'], ['*', '*']]) :
    Filling.fillArguments types (fuel + (starTokens stars).length)
        (skipped d ((if stars = ['*'] then [.marker, .name] else [.name]) ++ ps))
        ⟨starTokens stars ++ rest, out, next⟩ =
      Filling.fillArguments types fuel (skipped d (.name :: ps)) ⟨rest, out ++ stars, next⟩ := by
  simp only [List.mem_cons, List.not_mem_nil, or_false] at h
  rcases h with rfl | rfl | rfl
  · simp [starTokens]
  · cases d <;> rfl
  · rfl

theorem fillArguments_marker {mark : Char} {fuel d next : Nat} (h : mark = '*' ∨ mark = '/') :
    Filling.fillArguments types (fuel + 1) (skipped d (.marker :: ps))
        ⟨.of .endSeparator [mark] :: rest, out, next⟩ =
      Filling.fillArguments types fuel (skipped d ps) ⟨rest, out ++ [mark], next⟩ := by
  rcases h with rfl | rfl
  · cases d <;> rfl
  · cases d <;> rfl

/-- A named argument, once it is known what is written for it. -/
theorem fillArguments_named {stars name text : Text} {us : List Token} {n k m fuel : Nat}
    (hstars : stars ∈ [[], ['*'], ['*', '*']])
    (hfill : ∀ {out}, Filling.fillArgument types name (decide (k + m < n)) ⟨us ++ u :: rest, out, k + m - n⟩ =
      .ok ⟨u :: rest, out ++ text, k + m - n + (!decide (k + m < n)).toNat⟩) :
    Filling.fillArguments types (fuel + (1 + (starTokens stars).length))
        (skipped (n - (k + m)) ((if stars = ['*'] then [.marker, .name] else [.name]) ++ ps))
        ⟨starTokens stars ++ .of .argumentName name :: us ++ u :: rest, out, k + m - n⟩ =
      Filling.fillArguments types fuel (skipped (n - (k + 1 + m)) ps)
        ⟨u :: rest, out ++ (stars ++ text), k + 1 + m - n⟩ := by
  have hnext : k + m - n + (!decide (k + m < n)).toNat = k + 1 + m - n := by
    by_cases hlt : k + m < n
    · rw [decide_eq_true hlt]
      show k + m - n + 0 = _
      omega
    · rw [decide_eq_false hlt]
      show k + m - n + 1 = _
      omega
  rw [List.append_assoc, ← Nat.add_assoc, fillArguments_stars hstars, skipped_name]
  show (Filling.fillArgument types name _ ⟨us ++ u :: rest, out ++ stars, k + m - n⟩ >>=
    Filling.fillArguments types fuel _) = _
  rw [List.headD_cons, hfill, hnext]
  show Filling.fillArguments types fuel _ ⟨u :: rest, out ++ stars ++ text, _⟩ = _
  rw [List.append_assoc]
  rfl

/-- **An item is filled in**: its name, if it has one, gets the type that is matched to it. -/
theorem fillArguments_item {i : Item} (hi : i.Usual (Regular modules))
    (hargs : List.Forall₂ (Means types.modules) types.args trees) (hu : Delimits u) :
    ∃ steps ≤ (itemTokens modules i).length, ∀ {n k fuel ps out}, (i.isNamed = true → k < n) →
      Filling.fillArguments types (fuel + steps) (skipped (n - (k + trees.length)) (i.places ++ ps))
          ⟨itemTokens modules i ++ u :: rest, out, k + trees.length - n⟩ =
        Filling.fillArguments types fuel (skipped (n - (k + i.isNamed.toNat + trees.length)) ps)
          ⟨u :: rest, out ++ ((i.mapHint (restate modules)).filled (aligned trees n k)).text types.modules,
            k + i.isNamed.toNat + trees.length - n⟩ := by
  cases i with
  | marker mark => exact ⟨1, Nat.le_refl _, fun _ ↦ fillArguments_marker hi⟩
  | named stars name hint value =>
    obtain ⟨hstars, -, hhint, hvalue⟩ := hi
    refine ⟨1 + (starTokens stars).length, by simp [itemTokens]; omega, fun {n k fuel ps out} hk ↦ ?_⟩
    cases hint with
    | none =>
      have hfill : ∀ {out}, Filling.fillArgument types name (decide (k + trees.length < n))
          ⟨hintTokens modules none ++ valueTokens value ++ u :: rest, out, k + trees.length - n⟩ =
          .ok ⟨u :: rest, out ++ (name ++ ((aligned trees n k).elim [] fun t ↦ ": ".toList ++
            t.render types.modules) ++ value.elim [] fun v ↦ " = ".toList ++ v),
            k + trees.length - n + (!decide (k + trees.length < n)).toNat⟩ :=
        fillArgument_bare hvalue hu (means_of_aligned hargs (hk rfl))
      rw [Item.places, itemTokens, fillArguments_named hstars hfill]
      simp [Item.text, Item.filled, Item.mapHint, Item.isNamed]
    | some t =>
      have hfill : ∀ {out}, Filling.fillArgument types name (decide (k + trees.length < n))
          ⟨hintTokens modules (some t) ++ valueTokens value ++ u :: rest, out, k + trees.length - n⟩ =
          .ok ⟨u :: rest, out ++ (name ++ (": ".toList ++ render types.modules (restate modules t)) ++
            value.elim [] fun v ↦ " = ".toList ++ v),
            k + trees.length - n + (!decide (k + trees.length < n)).toNat⟩ :=
        fillArgument_hinted (hhint t rfl) hvalue hu
      rw [Item.places, itemTokens, fillArguments_named hstars hfill]
      simp [Item.text, Item.filled, Item.mapHint, Item.isNamed]

/-- The places that an item takes. -/
theorem places_item {i : Item} (hi : i.Usual (Regular modules)) (hrest : places 0 rest = .ok ps) :
    places 0 (itemTokens modules i ++ rest) = .ok (i.places ++ ps) := by
  cases i with
  | marker mark =>
    rcases hi with rfl | rfl
    · show (do return Place.marker :: (← places 0 rest)) = _
      rw [hrest]
      rfl
    · show (do return Place.marker :: (← places 0 rest)) = _
      rw [hrest]
      rfl
  | named stars name hint value =>
    have hvalue : places 0 (valueTokens value ++ rest) = .ok ps := by
      cases value with
      | none => exact hrest
      | some v =>
        show places 0 (.of .defaultDef ['='] :: .of .argumentDefault v :: rest) = _
        rw [places_cons (by decide), places_cons (by decide), hrest]
    have hhint : places 0 (hintTokens modules hint ++ (valueTokens value ++ rest)) = .ok ps := by
      cases hint with
      | none => exact hvalue
      | some t =>
        rw [hintTokens, List.cons_append, places_cons (by decide), places_tokens]
        exact hvalue
    have hname : places 0 (.of .argumentName name :: (hintTokens modules hint ++ (valueTokens value ++ rest))) =
        .ok (.name :: ps) := by
      show (do return Place.name :: (← places 0 (hintTokens modules hint ++ (valueTokens value ++ rest)))) = _
      rw [hhint]
      rfl
    have hstars := hi.1
    rw [itemTokens, List.append_assoc, List.cons_append, List.append_assoc]
    simp only [List.mem_cons, List.not_mem_nil, or_false] at hstars
    rcases hstars with rfl | rfl | rfl
    · exact hname
    · show (do return Place.marker :: (← places 0 (Token.of .argumentName name ::
        (hintTokens modules hint ++ (valueTokens value ++ rest))))) = _
      rw [hname]
      rfl
    · exact hname

theorem places_items {items : List Item} (hi : ∀ i ∈ items, i.Usual (Regular modules)) :
    places 0 (itemsTokens modules items ++ .of .endSeparator [')'] :: rest) =
      .ok (items.flatMap Item.places) := by
  induction items with
  | nil => rfl
  | cons i items ih =>
    cases items with
    | nil =>
      have hclose : places 0 (.of .endSeparator [')'] :: rest) = .ok [] := rfl
      simpa [itemsTokens] using places_item (hi i (by simp)) hclose
    | cons j items =>
      rw [itemsTokens, List.map_cons, List.map_cons, List.intercalate_cons_cons, List.append_assoc,
        List.append_assoc, List.flatMap_cons]
      refine places_item (hi i (by simp)) ?_
      rw [List.singleton_append, places_cons (by decide)]
      exact ih fun k hk ↦ hi k (by simp [hk])

/-- **The argument list is filled in.** -/
theorem fillArguments_items {items : List Item} {n : Nat} (hi : ∀ i ∈ items, i.Usual (Regular modules))
    (hargs : List.Forall₂ (Means types.modules) types.args trees) {k fuel : Nat} {out : Text}
    (hfuel : (itemsTokens modules items).length < fuel) (hk : k + items.countP Item.isNamed ≤ n) :
    ∃ next, Filling.fillArguments types fuel (skipped (n - (k + trees.length)) (items.flatMap Item.places))
        ⟨itemsTokens modules items ++ .of .endSeparator [')'] :: rest, out, k + trees.length - n⟩ =
      .ok ⟨rest, out ++ (", ".toList.intercalate ((Item.fillAll trees n k
        (items.map (Item.mapHint (restate modules)))).map (Item.text types.modules)) ++ [')']), next⟩ := by
  have hclose : ∀ {fuel skips out next}, Filling.fillArguments types (fuel + 1) skips
      ⟨.of .endSeparator [')'] :: rest, out, next⟩ = .ok ⟨rest, out ++ [')'], next⟩ := rfl
  induction items generalizing k fuel out with
  | nil =>
    obtain ⟨fuel, rfl⟩ := Nat.exists_eq_add_one.2 (Nat.lt_of_le_of_lt (Nat.zero_le _) hfuel)
    exact ⟨_, hclose⟩
  | cons i items ih =>
    have hcount : k + i.isNamed.toNat + items.countP Item.isNamed ≤ n := by
      rw [List.countP_cons] at hk
      cases h : i.isNamed with
      | false => simpa [h] using hk
      | true =>
        rw [h, if_pos rfl] at hk
        show k + 1 + _ ≤ n
        omega
    have hnamed : i.isNamed = true → k < n := by
      intro h
      rw [h] at hcount
      have : k + 1 ≤ n := Nat.le_trans (Nat.le_add_right _ _) hcount
      omega
    cases items with
    | nil =>
      rw [itemsTokens, List.map_singleton, List.intercalate_singleton] at hfuel ⊢
      obtain ⟨steps, hsteps, hitem⟩ := fillArguments_item (hi i (by simp)) hargs (.inr rfl)
      obtain ⟨fuel, rfl⟩ : ∃ fuel', fuel = fuel' + 1 + steps := ⟨fuel - 1 - steps, by omega⟩
      refine ⟨k + i.isNamed.toNat + trees.length - n, ?_⟩
      rw [List.flatMap_singleton, ← List.append_nil i.places, hitem hnamed, hclose]
      simp [Item.fillAll]
    | cons j items =>
      obtain ⟨steps, hsteps, hitem⟩ := fillArguments_item (hi i (by simp)) hargs (.inl rfl)
      have htokens : itemsTokens modules (i :: j :: items) =
          itemTokens modules i ++ .of .separator [','] :: itemsTokens modules (j :: items) := by
        simp [itemsTokens, List.intercalate_cons_cons]
      rw [htokens, List.length_append, List.length_cons] at hfuel
      obtain ⟨fuel, rfl⟩ : ∃ fuel', fuel = fuel' + 1 + steps := ⟨fuel - 1 - steps, by omega⟩
      have hcomma : ∀ {skips out next us}, Filling.fillArguments types (fuel + 1) skips
          ⟨.of .separator [','] :: us, out, next⟩ =
          Filling.fillArguments types fuel skips ⟨us, out ++ [','] ++ [' '], next⟩ := rfl
      obtain ⟨next, hrest⟩ := @ih (fun i' hi' ↦ hi i' (by simp [hi'])) (k + i.isNamed.toNat) fuel
        (out ++ ((i.mapHint (restate modules)).filled (aligned trees n k)).text types.modules ++ [','] ++ [' '])
        (by omega) hcount
      refine ⟨next, ?_⟩
      rw [htokens, List.append_assoc, List.cons_append, List.flatMap_cons, hitem hnamed, hcomma, hrest]
      have hname : (i.mapHint (restate modules)).isNamed = i.isNamed := by cases i <;> rfl
      simp [Item.fillAll, hname]

/-! ### Whole headers -/

theorem copyOpening_row {h : RowHeader} :
    Filling.copyOpening false [] (openingTokens h ++ rest) =
      .ok ⟨rest, List.replicate h.indent ' ' ++ ((if h.isAsync then "async ".toList else []) ++
        ("def ".toList ++ (h.name ++ ['(']))), 0⟩ := by
  have hdef : ∀ out, Filling.copyOpening false out
      ([.of .definition "def".toList, .of .functionName h.name, .of .endSeparator ['(']] ++ rest) =
      .ok ⟨rest, out ++ "def".toList ++ [' '] ++ h.name ++ ['('], 0⟩ := fun _ ↦ rfl
  have hasync : ∀ out, Filling.copyOpening false out ((if h.isAsync then [.of .keyword "async".toList] else []) ++
      ([.of .definition "def".toList, .of .functionName h.name, .of .endSeparator ['(']] ++ rest)) =
      .ok ⟨rest, out ++ (if h.isAsync then "async ".toList else []) ++ "def".toList ++ [' '] ++ h.name ++ ['('],
        0⟩ := by
    intro out
    cases h.isAsync with
    | false => simpa using hdef out
    | true =>
      refine (hdef (out ++ "async".toList ++ [' '])).trans ?_
      rw [if_pos rfl, show "async ".toList = "async".toList ++ [' '] from rfl, ← List.append_assoc out]
  have hmargin : ∀ us, Filling.copyOpening false [] (marginTokens (List.replicate h.indent ' ') ++ us) =
      Filling.copyOpening false (List.replicate h.indent ' ') us := by
    intro us
    cases h.indent with
    | zero => rfl
    | succ n =>
      show Filling.copyOpening false (write [] (.of .endSeparator (List.replicate (n + 1) ' '))) us = _
      simp [write, Token.of, Token.text]
  rw [openingTokens, List.append_assoc, List.append_assoc, hmargin, hasync,
    show "def ".toList = "def".toList ++ [' '] from rfl]
  simp only [List.append_assoc]

theorem finish_row {result? : Option TypeExpr} {result : TypeExpr} (h : ∀ t ∈ result?, t.Regular modules)
    (hresult : Means types.modules types.result result) :
    Filling.finish types (out ++ [')']) (resultTokens modules result? ++ [.of .endDefinition [':'], Token.last]) =
      .ok (out ++ ([')'] ++ (RowHeader.resultText types.modules (result?.map (restate modules) <|>
        some result) ++ [':']))) := by
  have harrow : writeArrow (out ++ [')']) = out ++ [')'] ++ " -> ".toList := by
    simp [writeArrow, Text.endsBlank, show Text.isBlank ')' = false from rfl]
  have hcolon : ∀ out, Filling.copyRest (write out (.of .endDefinition [':'])) [Token.last] =
      .ok (out ++ [':']) := fun _ ↦ rfl
  cases result? with
  | none =>
    show (Filling.inferred types.modules types.result >>= fun text ↦
      Filling.copyRest (write (writeArrow (out ++ [')']) ++ text) (.of .endDefinition [':'])) [Token.last]) = _
    rw [hresult, harrow]
    refine (hcolon _).trans ?_
    simp [RowHeader.resultText]
  | some t =>
    show (Filling.writeAnnotation types.modules ⟨t.toTokens .endSeparator modules ++
        [.of .endDefinition [':'], Token.last], writeArrow (out ++ [')']), 0⟩ >>= fun f ↦
      Filling.copyRest f.out f.rest) = _
    rw [writeAnnotation_hint (h t rfl) ⟨rfl, by decide, by decide, by decide⟩, harrow]
    refine (hcolon _).trans ?_
    simp [RowHeader.resultText]

theorem count_places_items (items : List Item) :
    (items.flatMap Item.places).count .name = items.countP Item.isNamed := by
  induction items with
  | nil => rfl
  | cons i items ih =>
    have hi : i.places.count .name = i.isNamed.toNat := by
      cases i with
      | marker mark => rfl
      | named stars name hint value =>
        rw [Item.places]
        split <;> rfl
    rw [List.flatMap_cons, List.count_append, ih, hi, List.countP_cons]
    cases i.isNamed <;> simp [Nat.add_comm]

/-- **Filling in a header of one row** gives a header of one row. -/
theorem fill_row {h : RowHeader} {result : TypeExpr} (hh : h.Usual (Regular modules))
    (hargs : List.Forall₂ (Means types.modules) types.args trees)
    (hresult : Means types.modules types.result result) :
    fill types (rowTokens modules h) =
      .ok (((h.mapHints (restate modules)).filled trees result).line types.modules) := by
  have hcount := Item.countP_mapHint (restate modules) h.items
  have hlength := hargs.length_eq
  have htokens : rowTokens modules h = openingTokens h ++ (itemsTokens modules h.items ++
      Token.of .endSeparator [')'] :: (resultTokens modules h.result ++
        [.of .endDefinition [':'], Token.last])) := by
    simp only [rowTokens, List.append_assoc, List.cons_append]
  -- the argument list, from the first name on
  have hfuel : (itemsTokens modules h.items).length < (itemsTokens modules h.items ++
      Token.of .endSeparator [')'] :: (resultTokens modules h.result ++
        [.of .endDefinition [':'], Token.last])).length + 1 := by
    rw [List.length_append]
    omega
  obtain ⟨next, hlist⟩ := fillArguments_items hh.items hargs hfuel
    (Nat.le_of_eq (Nat.zero_add (h.items.countP Item.isNamed)))
  rw [Nat.zero_add, ← hlength] at hlist
  rw [htokens, fill, copyOpening_row]
  simp only [bind, Except.bind]
  rw [places_items hh.items]
  dsimp only
  rw [count_places_items, hlist]
  dsimp only
  rw [← List.append_assoc, finish_row hh.result hresult]
  simp only [RowHeader.filled, RowHeader.mapHints, RowHeader.line, RowHeader.body, hcount, List.append_assoc]

end Header

end HeaderHints
