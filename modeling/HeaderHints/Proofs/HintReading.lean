import HeaderHints.Proofs.Nesting
import HeaderHints.Proofs.RowReading
import HeaderHints.Proofs.SpelledTypes

/-!
# Types in a row

The text of a regular type, inside the row of a header, is read as the tokens of the type
(`readsHint_of_regular`). Reading leaves the stage as it was, and the tokens take no place in the argument list
(`places_tokens`).
-/

namespace HeaderHints

namespace Header

open TypeExpr Scan Lexeme

variable {modules : Modules} {w : List Token} {g : Stage} {name : Text} {args : List TypeExpr}

/-! ### What may follow and precede a type -/

/-- What can follow a type, a name or a default value. -/
def Ends (r : Text) : Prop :=
  ∀ c ∈ r.head?, c ∈ ",]): ".toList

theorem Ends.apart {r : Text} (h : Ends r) : Apart r := by
  have hother : ∀ e ∈ ",]): ".toList, isNamePart e = false ∧ e ≠ '"' ∧ e ≠ '\'' := by decide
  exact fun c hc ↦ hother c (h c hc)

theorem Ends.calm {r : Text} (h : Ends r) : Calm r := by
  have hother : ∀ e ∈ ",]): ".toList, e ∉ ['=', '*', '/', '.'] ∧ e.isDigit = false := by decide
  exact fun c hc ↦ hother c (h c hc)

/-- A name goes on with no operator and no number. -/
theorem calm_of_named {text r : Text} (h : Named text) : Calm (text ++ r) := by
  obtain ⟨c, t, rfl, hc, -⟩ := h
  rintro e ⟨⟩
  have hother : ∀ e ∈ ['=', '*', '/', '.'], isNameStart e = false := by decide
  refine ⟨fun hmem ↦ ?_, (isSolid_of_isNameStart hc).2.1⟩
  rw [hother c hmem] at hc
  exact absurd hc (by simp)

/-- Inside an annotation. -/
structure Hinting (g : Stage) : Prop where
  inArguments : g.inArguments = true
  annotationDepth : 0 < g.annotationDepth
  valueDepth : g.valueDepth = 0

/-- The last token is no name, so that a name starts anew. -/
def Divided (w : List Token) : Prop :=
  ∀ t ∈ w.head?, t.isA .dottedName = false

theorem Hinting.opened (h : Hinting g) : Hinting (g.opened ['[']) := by
  refine ⟨by simp [Stage.opened, h.inArguments], ?_, by simp [Stage.opened, h.valueDepth]⟩
  simp [Stage.opened, h.annotationDepth]

theorem Hinting.closed_opened (h : Hinting g) : (g.opened ['[']).closed = g := by
  obtain ⟨sawDef, inArguments, openBrackets, annotationDepth, valueDepth⟩ := g
  obtain ⟨hargs, hhint, hvalue⟩ := h
  dsimp only at hargs hhint hvalue
  subst hargs hvalue
  simp [Stage.opened, Stage.closed, hhint]

theorem Hinting.divided_opened (h : Hinting g) : (g.opened ['[']).divided = g.opened ['['] := by
  have hhint := h.annotationDepth
  have hdepth : (g.opened ['[']).annotationDepth ≠ 1 := by
    simp only [Stage.opened, if_pos hhint]
    omega
  have hvalue := h.opened.valueDepth
  unfold Stage.divided
  rw [if_neg hdepth, if_neg (by omega)]

/-! ### Reading the text of a type -/

/-- A dotted name is read as one token. -/
theorem crosses_dotted (h : Dotted name) (hg : Hinting g) (hw : Divided w) :
    Crosses name Apart w (.of .dottedName name :: w) g g := by
  induction h with
  | word ht => exact .hintWord ht hg.inArguments hg.annotationDepth hw
  | @dot front t _ ht ih =>
    have hpart : Crosses t Apart (.of .dottedName (front ++ ['.']) :: w)
        (.of .dottedName (front ++ ['.'] ++ t) :: w) g g :=
      .hintPart ht hg.inArguments hg.annotationDepth List.getLast?_concat
    have hdotted := ih.append (Crosses.hintDot.append hpart fun _ ↦ calm_of_named ht) (by
      rintro r - c ⟨⟩
      decide)
    rw [List.append_assoc] at hdotted
    exact hdotted

/-- The text of a type is read as its tokens. -/
def ReadsHint (modules : Modules) (t : TypeExpr) : Prop :=
  ∀ {w g}, Hinting g → Divided w →
    Crosses (render modules t) Ends w ((toTokens .endSeparator modules t).reverse ++ w) g g

/-- Types divided by commas inside brackets. -/
theorem crosses_args (h : ∀ t ∈ args, ReadsHint modules t) (hg : Hinting g) (hw : Divided w) :
    Crosses (", ".toList.intercalate (args.map (render modules))) Ends w
      (([.of .separator [',']].intercalate (args.map (toTokens .endSeparator modules))).reverse ++ w)
      (g.opened ['[']) (g.opened ['[']) := by
  induction args generalizing w with
  | nil => exact .nil
  | cons t args ih =>
    have ht := h t (by simp) hg.opened hw
    cases args with
    | nil => simpa using ht
    | cons u args =>
      -- the type, the comma with its space, and the other types
      have hcomma : Crosses [','] Calm ((toTokens .endSeparator modules t).reverse ++ w)
          (.of .separator [','] :: ((toTokens .endSeparator modules t).reverse ++ w))
          (g.opened ['[']) (g.opened ['[']) := by
        have hcomma := @Crosses.comma ((toTokens .endSeparator modules t).reverse ++ w) (g.opened ['['])
        rwa [hg.divided_opened] at hcomma
      have hdivided : Divided (.of .separator [','] :: ((toTokens .endSeparator modules t).reverse ++ w)) := by
        rintro t ⟨⟩
        rfl
      have hrest := Crosses.space.append (ih (fun v hv ↦ h v (by simp [hv])) hdivided) fun _ ↦ trivial
      have hall := ht.append (hcomma.append hrest (by rintro r - c ⟨⟩; decide)) (by rintro r - c ⟨⟩; decide)
      simpa [List.intercalate_cons_cons] using hall

theorem crosses_bracketed (h : ∀ t ∈ args, ReadsHint modules t) (hg : Hinting g) :
    Crosses (['['] ++ ", ".toList.intercalate (args.map (render modules)) ++ [']']) Ends w
      ((bracketed .endSeparator
        ([.of .separator [',']].intercalate (args.map (toTokens .endSeparator modules)))).reverse ++ w) g g := by
  have hdivided : Divided (.of .endSeparator ['['] :: w) := by
    rintro t ⟨⟩
    rfl
  have hopen : Crosses ['['] (fun _ ↦ True) w (.of .endSeparator ['['] :: w) g (g.opened ['[']) :=
    .opener (.inr rfl)
  have hclose : ∀ {w}, Crosses [']'] Ends w (.of .endSeparator [']'] :: w) (g.opened ['[']) g := by
    intro w
    have hclose : Crosses [']'] Calm w (.of .endSeparator [']'] :: w) (g.opened ['[']) (g.opened ['[']).closed :=
      .closer (.inr rfl)
    rw [hg.closed_opened] at hclose
    exact hclose.mono Ends.calm
  have hall := (hopen.append (crosses_args h hg hdivided) fun _ ↦ trivial).append hclose
    (by rintro r - c ⟨⟩; decide)
  simpa [bracketed] using hall

/-- Types divided by bars. -/
theorem crosses_bars (h : ∀ t ∈ args, ReadsHint modules t) (hg : Hinting g) (hw : Divided w) :
    Crosses (" | ".toList.intercalate (args.map (render modules))) Ends w
      (([.of .separator ['|']].intercalate (args.map (toTokens .endSeparator modules))).reverse ++ w) g g := by
  induction args generalizing w with
  | nil => exact .nil
  | cons t args ih =>
    have ht := h t (by simp) hg hw
    cases args with
    | nil => simpa using ht
    | cons u args =>
      have hdivided : Divided (.of .separator ['|'] :: ((toTokens .endSeparator modules t).reverse ++ w)) := by
        rintro t ⟨⟩
        rfl
      have hbar : Crosses ['|'] Calm ((toTokens .endSeparator modules t).reverse ++ w)
          (.of .separator ['|'] :: ((toTokens .endSeparator modules t).reverse ++ w)) g g := .bar hg.valueDepth
      have hrest := hbar.append (Crosses.space.append (ih (fun v hv ↦ h v (by simp [hv])) hdivided) fun _ ↦
        trivial) (by rintro r - c ⟨⟩; decide)
      have hall := ht.append (Crosses.space.append hrest fun _ ↦ trivial) (by rintro r - c ⟨⟩; decide)
      simpa [List.intercalate_cons_cons] using hall

/-- **The text of a regular type is read as its tokens.** -/
theorem readsHint_of_regular {t : TypeExpr} (h : t.Regular modules) : ReadsHint modules t := by
  induction h with
  | leaf hdotted _ =>
    intro w g hg hw
    rw [render_leaf hdotted.ne_nil, toTokens_leaf hdotted.ne_nil]
    exact (crosses_dotted hdotted hg hw).mono Ends.apart
  | @ellipsis name hname _ =>
    intro w g hg hw
    rw [render_leaf (by rw [hname]; decide), toTokens_leaf (by rw [hname]; decide), hname]
    exact Crosses.ellipsis.mono Ends.calm
  | list hname _ ih =>
    intro w g hg hw
    rw [render_list hname, toTokens_list hname]
    exact crosses_bracketed ih hg
  | union hname hne _ ih =>
    intro w g hg hw
    rw [render_union hname hne, toTokens_union hname hne]
    exact crosses_bars ih hg hw
  | applied hdotted hruled hne _ ih =>
    intro w g hg hw
    have hunion := ne_of_notMem_ruledNames hruled
    rw [render_applied hdotted.nominal hunion hne, toTokens_applied hdotted.ne_nil hunion hne]
    have hall := (crosses_dotted hdotted hg hw).append (crosses_bracketed ih hg) (by rintro r - c ⟨⟩; decide)
    simpa using hall

/-! ### Places -/

theorem places_cons {d : Nat} {kind : Token.Kind} {text : Text} {rest : List Token}
    (hk : kind ∉ [.stop, .endSeparator, .argumentName]) :
    places d (.of kind text :: rest) = places d rest := by
  simp only [List.mem_cons, List.not_mem_nil, or_false, not_or] at hk
  rw [places]
  simp [Token.of, hk, Token.isOpener, Token.isCloser, isBareMark]

/-- Tokens that take no place in an argument list. -/
def TakesNoPlace (ts : List Token) : Prop :=
  ∀ d rest, places d (ts ++ rest) = places d rest

theorem takesNoPlace_intercalate {text : Text} {tss : List (List Token)} (h : ∀ ts ∈ tss, TakesNoPlace ts) :
    TakesNoPlace ([Token.of .separator text].intercalate tss) := by
  intro d rest
  induction tss with
  | nil => rfl
  | cons ts tss ih =>
    have hts := h ts (by simp)
    cases tss with
    | nil => simpa using hts d rest
    | cons us tss =>
      rw [List.intercalate_cons_cons, List.append_assoc, List.append_assoc, hts, List.singleton_append,
        places_cons (by decide), ih fun vs hvs ↦ h vs (by simp [hvs])]

theorem takesNoPlace_bracketed {ts : List Token} (h : TakesNoPlace ts) :
    TakesNoPlace (bracketed .endSeparator ts) := by
  intro d rest
  have hopen : ∀ us, places d (.of .endSeparator ['['] :: us) = places (d + 1) us := fun _ ↦ rfl
  have hclose : ∀ us, places (d + 1) (.of .endSeparator [']'] :: us) = places d us := fun _ ↦ rfl
  rw [bracketed, List.cons_append, hopen, List.append_assoc, h]
  exact hclose rest

/-- **The tokens of a type take no place in an argument list.** -/
theorem places_tokens : ∀ t : TypeExpr, TakesNoPlace (toTokens .endSeparator modules t)
  | node name args => by
    have hargs : ∀ ts ∈ args.map (toTokens .endSeparator modules), TakesNoPlace ts := by
      intro ts hts
      obtain ⟨t, ht, rfl⟩ := List.mem_map.1 hts
      exact places_tokens t
    rw [toTokens, toTokensAll_eq_map, TypeExpr.spelled]
    split
    · exact takesNoPlace_bracketed (takesNoPlace_intercalate hargs)
    split
    · exact fun d rest ↦ places_cons (by decide)
    split
    · exact takesNoPlace_intercalate hargs
    · intro d rest
      rw [List.cons_append, places_cons (by decide), takesNoPlace_bracketed (takesNoPlace_intercalate hargs)]

end Header

end HeaderHints
