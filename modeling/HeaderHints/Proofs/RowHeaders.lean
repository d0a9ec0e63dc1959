import HeaderHints.Proofs.HintReading

/-!
# Headers in one row

A `RowHeader` is a header that is written in one row in the usual way: one space after a comma, around an
equals sign and around the arrow, and default values that are a name or a decimal integer. Its text is
`RowHeader.line`. Such a row is read as the tokens that the parts of the header stand for (`read_line`),
whatever blanks follow the closing colon.
-/

namespace HeaderHints

open Lexeme

/-- An item of an argument list. -/
inductive Item where
  /-- A bare star or slash. -/
  | marker (mark : Char)
  /-- A named argument, with the stars before its name, its annotation and its default value. -/
  | named (stars name : Text) (hint : Option TypeExpr) (value : Option Text)

/-- A header that is written in one row. -/
structure RowHeader where
  /-- Number of spaces before it. -/
  indent : Nat
  /-- Whether the function is asynchronous. -/
  isAsync : Bool
  /-- The name of the function. -/
  name : Text
  /-- The argument list. -/
  items : List Item
  /-- The return annotation. -/
  result : Option TypeExpr

/-- A default value that is written as it stands: a decimal integer, or a name that is no alias and starts
no other expression. -/
def PlainValue (value : Text) : Prop :=
  (value ≠ [] ∧ ∀ c ∈ value, c.isDigit = true) ∨
    (Named value ∧ value ∉ ["lambda".toList, "Union".toList] ∧ value ∉ TypeExpr.aliases)

namespace Item

/-- The text of an item. -/
def text (modules : Modules) : Item → Text
  | marker mark => [mark]
  | named stars name hint value =>
    stars ++ name ++ (hint.elim [] fun t ↦ ": ".toList ++ t.render modules) ++
      value.elim [] fun v ↦ " = ".toList ++ v

/-- An item in the usual form, whose annotation satisfies `P`. -/
def Usual (P : TypeExpr → Prop) : Item → Prop
  | marker mark => mark = '*' ∨ mark = '/'
  | named stars name hint value =>
    stars ∈ [[], ['*'], ['*', '*']] ∧ Named name ∧ (∀ t ∈ hint, P t) ∧ ∀ v ∈ value, PlainValue v

end Item

namespace RowHeader

/-- The text of a return annotation. -/
def resultText (modules : Modules) (result : Option TypeExpr) : Text :=
  result.elim [] fun t ↦ " -> ".toList ++ t.render modules

/-- The text from the word `def` up to the closing colon. -/
def body (modules : Modules) (h : RowHeader) : Text :=
  "def ".toList ++ (h.name ++ (['('] ++ (", ".toList.intercalate (h.items.map (Item.text modules)) ++
    ([')'] ++ resultText modules h.result))))

/-- The row of a header, without what follows its closing colon. -/
def line (modules : Modules) (h : RowHeader) : Text :=
  List.replicate h.indent ' ' ++ ((if h.isAsync then "async ".toList else []) ++ (h.body modules ++ [':']))

/-- A header in the usual form, whose annotations satisfy `P`. -/
structure Usual (P : TypeExpr → Prop) (h : RowHeader) : Prop where
  named : Named h.name
  name_notMem : h.name ∉ ["def".toList, "async".toList]
  items : ∀ i ∈ h.items, i.Usual P
  result : ∀ t ∈ h.result, P t

end RowHeader

theorem Item.Usual.mono {P Q : TypeExpr → Prop} {i : Item} (h : i.Usual P) (hPQ : ∀ {t}, P t → Q t) :
    i.Usual Q := by
  cases i with
  | marker mark => exact h
  | named stars name hint value => exact ⟨h.1, h.2.1, fun t ht ↦ hPQ (h.2.2.1 t ht), h.2.2.2⟩

theorem RowHeader.Usual.mono {P Q : TypeExpr → Prop} {h : RowHeader} (hP : h.Usual P)
    (hPQ : ∀ {t}, P t → Q t) : h.Usual Q :=
  ⟨hP.named, hP.name_notMem, fun i hi ↦ (hP.items i hi).mono hPQ, fun t ht ↦ hPQ (hP.result t ht)⟩

namespace Header

open TypeExpr Scan

variable {modules : Modules} {w : List Token} {g : Stage}

/-! ### Tokens -/

/-- The stars before a name as tokens. -/
def starTokens (stars : Text) : List Token :=
  if stars.isEmpty then [] else [.of .endSeparator stars]

/-- A default value as tokens. -/
def valueTokens : Option Text → List Token
  | none => []
  | some v => [.of .defaultDef ['='], .of .argumentDefault v]

/-- An annotation as tokens, with the colon before it. -/
def hintTokens (modules : Modules) : Option TypeExpr → List Token
  | none => []
  | some t => .of .typeDef [':'] :: t.toTokens .endSeparator modules

/-- The tokens of an item. -/
def itemTokens (modules : Modules) : Item → List Token
  | .marker mark => [.of .endSeparator [mark]]
  | .named stars name hint value =>
    starTokens stars ++ .of .argumentName name :: (hintTokens modules hint ++ valueTokens value)

/-- The tokens of an argument list without its brackets. -/
def itemsTokens (modules : Modules) (items : List Item) : List Token :=
  [.of .separator [',']].intercalate (items.map (itemTokens modules))

/-- A return annotation as tokens, with the arrow before it. -/
def resultTokens (modules : Modules) : Option TypeExpr → List Token
  | none => []
  | some t => .of .returnTypeDef ['-', '>'] :: t.toTokens .endSeparator modules

/-- The tokens before the argument list. -/
def openingTokens (h : RowHeader) : List Token :=
  marginTokens (List.replicate h.indent ' ') ++ (if h.isAsync then [.of .keyword "async".toList] else []) ++
    [.of .definition "def".toList, .of .functionName h.name, .of .endSeparator ['(']]

/-- The tokens of a header in one row. -/
def rowTokens (modules : Modules) (h : RowHeader) : List Token :=
  openingTokens h ++ itemsTokens modules h.items ++ .of .endSeparator [')'] :: resultTokens modules h.result ++
    [.of .endDefinition [':'], Token.last]

/-! ### Reading items -/

/-- The stage between the items of an argument list. -/
def between : Stage :=
  ⟨true, true, 1, 0, 0⟩

/-- The stage after the argument list. -/
def behind : Stage :=
  ⟨true, true, 0, 0, 0⟩

/-- A stage at the end of an item. -/
def Resting (g : Stage) : Prop :=
  g.divided = between ∧ g.closed = behind

theorem resting_between : Resting between :=
  ⟨rfl, rfl⟩

theorem crosses_value {v : Text} (hv : PlainValue v) (hg : g.inArguments = true) (hvalue : g.valueDepth = 0) :
    Crosses (" = ".toList ++ v) Ends w ((valueTokens (some v)).reverse ++ w) g
      { g with annotationDepth := 0, valueDepth := 1 } := by
  have hoperand : Crosses v (fun r ↦ Apart r ∧ Calm r) (.of .defaultDef ['='] :: w)
      (.of .argumentDefault v :: .of .defaultDef ['='] :: w)
      { g with annotationDepth := 0, valueDepth := 1 } { g with annotationDepth := 0, valueDepth := 1 } := by
    rcases hv with ⟨hne, hdigit⟩ | ⟨hnamed, hword, -⟩
    · exact .valueDigits hne hdigit (by simp [Token.of])
    · have hlambda : v ≠ "lambda".toList := by
        rintro rfl
        exact hword (by simp)
      have hname : Crosses v Apart (.of .defaultDef ['='] :: w)
          (.of .argumentDefault v :: .of .defaultDef ['='] :: w)
          { g with annotationDepth := 0, valueDepth := 1 } { g with annotationDepth := 0, valueDepth := 1 } :=
        .valueWord hnamed hlambda hg rfl Nat.one_pos (by simp [Token.of])
      exact hname.mono And.left
  have hequals : Crosses ['='] Calm w (.of .defaultDef ['='] :: w) g
      { g with annotationDepth := 0, valueDepth := 1 } := .equals hvalue
  have hall := (Crosses.space.append hequals fun _ ↦ trivial).append
    (Crosses.space.append hoperand fun _ ↦ trivial) (by rintro r - c ⟨⟩; decide)
  exact hall.mono fun hr ↦ ⟨hr.apart, hr.calm⟩

/-- The default value of an argument, if there is one, leaves a stage at the end of an item. -/
theorem crosses_valued {text : Text} {ts : List Token} {value : Option Text} (hv : ∀ v ∈ value, PlainValue v)
    (h : Crosses text Ends w (ts.reverse ++ w) between g) (hg : g.inArguments = true)
    (hvalue : g.valueDepth = 0) (hrest : Resting g)
    (hrest' : Resting { g with annotationDepth := 0, valueDepth := 1 }) :
    ∃ g', Resting g' ∧ Crosses (text ++ value.elim [] fun v ↦ " = ".toList ++ v) Ends w
      ((ts ++ valueTokens value).reverse ++ w) between g' := by
  cases value with
  | none => exact ⟨g, hrest, by simpa [valueTokens] using h⟩
  | some v =>
    refine ⟨_, hrest', ?_⟩
    have hall := h.append (crosses_value (hv v rfl) hg hvalue) (by rintro r - c ⟨⟩; decide)
    simpa using hall

theorem crosses_stars {stars : Text} (h : stars ∈ [[], ['*'], ['*', '*']]) :
    Crosses stars Calm w ((starTokens stars).reverse ++ w) between between := by
  simp only [List.mem_cons, List.not_mem_nil, or_false] at h
  rcases h with rfl | rfl | rfl
  · exact .nil
  · exact .mark (by decide) rfl
  · exact .mark (by decide) rfl

/-- **An item is read**, and what follows it may divide or end the argument list. -/
theorem crosses_item {i : Item} (h : i.Usual (Regular modules)) (w : List Token) :
    ∃ g', Resting g' ∧ Crosses (i.text modules) Ends w ((itemTokens modules i).reverse ++ w) between g' := by
  cases i with
  | marker mark =>
    have hmark : [mark] ∈ [['*'], ['*', '*'], ['/']] := by
      rcases h with rfl | rfl <;> decide
    exact ⟨between, resting_between, (Crosses.mark hmark rfl).mono Ends.calm⟩
  | named stars name hint value =>
    obtain ⟨hstars, hname, hhint, hvalue⟩ := h
    have hfront : Crosses (stars ++ name) Apart w
        ((starTokens stars ++ [Token.of .argumentName name]).reverse ++ w) between between := by
      have hall := (crosses_stars (w := w) hstars).append (Crosses.argumentName hname rfl rfl rfl) fun _ ↦
        calm_of_named hname
      simpa using hall
    cases hint with
    | none =>
      have hvalued := crosses_valued hvalue (hfront.mono Ends.apart) rfl rfl resting_between ⟨rfl, rfl⟩
      simpa [Item.text, itemTokens, hintTokens] using hvalued
    | some t =>
      have hdivided : Divided (.of .typeDef [':'] ::
          ((starTokens stars ++ [Token.of .argumentName name]).reverse ++ w)) := by
        rintro t ⟨⟩
        rfl
      have hcolon := Crosses.hintColon (w := (starTokens stars ++ [Token.of .argumentName name]).reverse ++ w)
        (g := between) Nat.one_pos rfl
      have htype := hcolon.append (Crosses.space.append
        (readsHint_of_regular (hhint t rfl) ⟨rfl, Nat.one_pos, rfl⟩ hdivided) fun _ ↦ trivial)
        (by rintro r - c ⟨⟩; decide)
      have hhinted := hfront.append htype (by rintro r - c ⟨⟩; decide)
      have hreverse : (t.toTokens .endSeparator modules).reverse ++ .of .typeDef [':'] ::
          ((starTokens stars ++ [Token.of .argumentName name]).reverse ++ w) =
          (starTokens stars ++ Token.of .argumentName name :: hintTokens modules (some t)).reverse ++ w := by
        simp [hintTokens]
      rw [hreverse] at hhinted
      have hvalued := crosses_valued hvalue hhinted rfl rfl ⟨rfl, rfl⟩ ⟨rfl, rfl⟩
      simpa [Item.text, itemTokens] using hvalued

theorem crosses_items {items : List Item} (h : ∀ i ∈ items, i.Usual (Regular modules)) (w : List Token) :
    ∃ g', Resting g' ∧ Crosses (", ".toList.intercalate (items.map (Item.text modules))) Ends w
      ((itemsTokens modules items).reverse ++ w) between g' := by
  induction items generalizing w with
  | nil => exact ⟨between, resting_between, .nil⟩
  | cons i items ih =>
    obtain ⟨g, hg, hitem⟩ := crosses_item (h i (by simp)) w
    cases items with
    | nil => exact ⟨g, hg, by simpa [itemsTokens] using hitem⟩
    | cons j items =>
      obtain ⟨g', hrest, hitems⟩ := ih (fun k hk ↦ h k (by simp [hk]))
        (.of .separator [','] :: ((itemTokens modules i).reverse ++ w))
      have hcomma := Crosses.comma (w := (itemTokens modules i).reverse ++ w) (g := g)
      rw [hg.1] at hcomma
      have hall := hitem.append (hcomma.append (Crosses.space.append hitems fun _ ↦ trivial)
        (by rintro r - c ⟨⟩; decide)) (by rintro r - c ⟨⟩; decide)
      exact ⟨g', hrest, by simpa [itemsTokens, List.intercalate_cons_cons] using hall⟩

/-! ### Reading the row -/

theorem crosses_result {result : Option TypeExpr} (h : ∀ t ∈ result, t.Regular modules) (w : List Token) :
    ∃ g' : Stage, g'.inArguments = true ∧ g'.openBrackets = 0 ∧
      Crosses (RowHeader.resultText modules result) Ends w ((resultTokens modules result).reverse ++ w)
        behind g' := by
  cases result with
  | none => exact ⟨behind, rfl, rfl, .nil⟩
  | some t =>
    refine ⟨{ behind with annotationDepth := 1 }, rfl, rfl, ?_⟩
    have hdivided : Divided (.of .returnTypeDef ['-', '>'] :: w) := by
      rintro t ⟨⟩
      rfl
    have htype := Crosses.space.append (readsHint_of_regular (h t rfl) (g := { behind with annotationDepth := 1 })
      ⟨rfl, Nat.one_pos, rfl⟩ hdivided) fun _ ↦ trivial
    have harrow := Crosses.arrow.append htype (by rintro r - c ⟨⟩; decide)
    have hall := Crosses.space.append harrow fun _ ↦ trivial
    simpa [RowHeader.resultText, resultTokens] using hall

theorem crosses_body {h : RowHeader} (hh : h.Usual (Regular modules)) (w : List Token) :
    ∃ g' : Stage, g'.inArguments = true ∧ g'.openBrackets = 0 ∧
      Crosses (h.body modules) Ends w
        (([Token.of .definition "def".toList, .of .functionName h.name, .of .endSeparator ['(']] ++
          itemsTokens modules h.items ++
          Token.of .endSeparator [')'] :: resultTokens modules h.result).reverse ++ w) {} g' := by
  have hname := hh.name_notMem
  simp only [List.mem_cons, List.not_mem_nil, or_false, not_or] at hname
  -- the words before the argument list
  have hdef : Crosses "def".toList Apart w (.of .definition "def".toList :: w) {} { sawDef := true } :=
    .defWord rfl rfl
  have hfunction : Crosses h.name Apart (.of .definition "def".toList :: w)
      (.of .functionName h.name :: .of .definition "def".toList :: w) { sawDef := true } { sawDef := true } :=
    .functionName hh.named hname.2 hname.1 rfl
  have hopen : Crosses ['('] (fun _ ↦ True) (.of .functionName h.name :: .of .definition "def".toList :: w)
      (.of .endSeparator ['('] :: .of .functionName h.name :: .of .definition "def".toList :: w)
      { sawDef := true } between := .opener (.inl rfl)
  -- the argument list and the return annotation
  obtain ⟨g, ⟨-, hclosed⟩, hlist⟩ := crosses_items hh.items
    (.of .endSeparator ['('] :: .of .functionName h.name :: .of .definition "def".toList :: w)
  have hclose : Crosses [')'] Calm ((itemsTokens modules h.items).reverse ++
      .of .endSeparator ['('] :: .of .functionName h.name :: .of .definition "def".toList :: w) _ g g.closed :=
    .closer (.inl rfl)
  rw [hclosed] at hclose
  obtain ⟨g', hargs, hopened, hend⟩ := crosses_result hh.result (.of .endSeparator [')'] ::
    ((itemsTokens modules h.items).reverse ++
      .of .endSeparator ['('] :: .of .functionName h.name :: .of .definition "def".toList :: w))
  have hcalm : ∀ {r : Text}, Ends r → Calm (RowHeader.resultText modules h.result ++ r) := by
    intro r hr
    cases h.result with
    | none => exact hr.calm
    | some t => rintro c ⟨⟩; decide
  have hlisted := hlist.append (hclose.append hend hcalm) (by rintro r - c ⟨⟩; decide)
  have hwords := hdef.append (Crosses.space.append hfunction fun _ ↦ trivial) (by rintro r - c ⟨⟩; decide)
  have hall := (hwords.append hopen (by rintro r - c ⟨⟩; decide)).append hlisted fun _ ↦ trivial
  refine ⟨g', hargs, hopened, ?_⟩
  have htext : h.body modules = "def".toList ++ ([' '] ++ h.name) ++ ['('] ++
      (", ".toList.intercalate (h.items.map (Item.text modules)) ++
        ([')'] ++ RowHeader.resultText modules h.result)) := by
    rw [RowHeader.body, show "def ".toList = "def".toList ++ [' '] from rfl]
    simp only [List.append_assoc]
  rw [htext]
  simpa only [List.reverse_append, List.reverse_cons, List.reverse_nil, List.nil_append, List.append_assoc,
    List.cons_append] using hall

/-- **The row of a header is read as its tokens.** -/
theorem read_line {source : Source} {first : Nat} {h : RowHeader} {tail : Text}
    (hh : h.Usual (Regular modules)) (htail : ∀ c ∈ tail, Text.isBlank c = true)
    (hrow : source[first]? = some (some (h.line modules ++ tail))) :
    (read source first).1 = .ok ⟨rowTokens modules h, 1⟩ := by
  have hmargin : ∀ c ∈ List.replicate h.indent ' ', isGap c = true := by
    intro c hc
    rw [List.eq_of_mem_replicate hc]
    rfl
  have hends : Ends (':' :: tail) := by
    rintro c ⟨⟩
    decide
  have hspace : ∀ r : Text, Apart (' ' :: r) := by
    rintro r c ⟨⟩
    decide
  obtain ⟨rest, hrest⟩ : ∃ rest, h.body modules = "def".toList ++ ' ' :: rest :=
    ⟨_, rfl⟩
  have hmarginTokens : (marginTokens (List.replicate h.indent ' ')).reverse =
      marginTokens (List.replicate h.indent ' ') := by
    unfold marginTokens
    split <;> rfl
  cases hasync : h.isAsync with
  | false =>
    obtain ⟨g, hargs, hopen, hcross⟩ := crosses_body hh (marginTokens (List.replicate h.indent ' '))
    rw [RowHeader.line, hasync, hrest, if_neg (by simp), List.nil_append, List.append_assoc,
      List.append_assoc] at hrow
    rw [hrest] at hcross
    have hread := read_row hrow hmargin ⟨'d', "ef".toList, rfl, by decide, by decide⟩ (hspace _) htail hcross
      hends hargs hopen
    rw [hread]
    simp [rowTokens, openingTokens, hasync, hmarginTokens]
  | true =>
    obtain ⟨g, hargs, hopen, hcross⟩ :=
      crosses_body hh (.of .keyword "async".toList :: marginTokens (List.replicate h.indent ' '))
    have hline : h.line modules ++ tail = List.replicate h.indent ' ' ++
        ("async".toList ++ ([' '] ++ h.body modules) ++ ':' :: tail) := by
      rw [RowHeader.line, hasync, if_pos rfl, show "async ".toList = "async".toList ++ [' '] from rfl]
      simp only [List.append_assoc, List.cons_append, List.nil_append]
    rw [hline] at hrow
    have hword : Crosses "async".toList Apart (marginTokens (List.replicate h.indent ' '))
        (.of .keyword "async".toList :: marginTokens (List.replicate h.indent ' ')) {} {} := .asyncWord rfl
    have hall := hword.append (Crosses.space.append hcross fun _ ↦ trivial) (by rintro r - c ⟨⟩; decide)
    have hread := read_row hrow hmargin ⟨'a', "sync".toList, rfl, by decide, by decide⟩ (hspace _) htail
      hall hends hargs hopen
    rw [hread]
    simp [rowTokens, openingTokens, hasync, hmarginTokens]

end Header

end HeaderHints
