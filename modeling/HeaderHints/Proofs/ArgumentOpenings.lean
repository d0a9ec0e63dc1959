import HeaderHints.Proofs.Nesting

/-!
# Where the argument list opens

A draft opens the argument list at the first round bracket after `def` that stands outside all brackets
(`Draft.Opens`). The tokens that it writes before and after this moment are those on both sides of this bracket in
the header that is read, since a bracket stays as it is once it has been written (`exists_opening_of_read`).
-/

namespace HeaderHints.Header

variable {Q : Text → Prop} {a b : Stage × List Token} {g : Stage} {t u bracket : Token} {ts opening rest : List Token}

/-! ### Tokens before the argument list -/

/-- The number of brackets that are open after the tokens `ts`, newest first. -/
def nested (ts : List Token) : Nat :=
  ts.foldr (fun t d ↦ nest d t) 0

theorem foldl_nest_reverse (ts : List Token) : ts.reverse.foldl nest 0 = nested ts :=
  List.foldl_reverse ..

/-- None of the tokens, newest first, is a round bracket after `def` outside brackets. -/
def Shut : List Token → Prop
  | [] => True
  | t :: ts => (isRoundOpener t = true → nested ts = 0 → ∀ u ∈ ts, u.kind ≠ .definition) ∧ Shut ts

/-- What is known while the argument list has not been opened. -/
structure Unopened (a : Stage × List Token) : Prop where
  depth : a.1.openBrackets = nested a.2
  definition : a.2.countP (·.kind = .definition) = if a.1.sawDef then 1 else 0
  nameless : ∀ t ∈ a.2, t.kind ≠ .argumentName
  shut : Shut a.2

/-- A token that takes the place of `t`, and nests, divides and names nothing else. -/
structure Replaces (t u : Token) : Prop where
  nest_eq : ∀ d, nest d u = nest d t
  plain : t.isOpener = false ∧ u.isOpener = false
  kind_iff : ∀ {k : Token.Kind}, k ≠ .separator → k ≠ .endSeparator → (u.kind = k ↔ t.kind = k)

theorem replaces_grown {text : Text} (hk : Growing t.kind) : Replaces t (.of t.kind text) := by
  have hend : t.kind ≠ .endSeparator := by rcases hk with hk | hk | hk <;> simp [hk]
  exact ⟨fun d ↦ by rw [nest_of_kind hend, nest_of_kind (t := .of t.kind text) hend],
    ⟨by simp [Token.isOpener, hend], by simp [Token.isOpener, Token.of, hend]⟩, fun _ _ ↦ Iff.rfl⟩

theorem replaces_tightened (hk : t.kind = .separator) (ht : Proper t) :
    Replaces t { t with kind := .endSeparator } := by
  have htext := ht.separator_text hk
  have hnest : ∀ d, nest d { t with kind := .endSeparator } = d := fun d ↦ by
    rcases htext with htext | htext <;> simp only [Token.text] at htext <;>
      simp [nest, Token.isOpener, Token.isCloser, Token.opensBracket, Token.closesBracket, Token.text, htext]
  refine ⟨fun d ↦ by rw [hnest, nest_of_kind (by simp [hk])], ⟨by simp [Token.isOpener, hk], ?_⟩, ?_⟩
  · rcases htext with htext | htext <;> simp only [Token.text] at htext <;>
      simp [Token.isOpener, Token.opensBracket, Token.text, htext]
  · intro k hsep hend
    simp [hk, Ne.symm hsep, Ne.symm hend]

theorem Unopened.replace (h : Unopened (g, t :: ts)) (ht : Replaces t u) : Unopened (g, u :: ts) := by
  have hdef : decide (u.kind = .definition) = decide (t.kind = .definition) :=
    decide_eq_decide.2 (ht.kind_iff (by simp) (by simp))
  refine ⟨h.depth.trans (ht.nest_eq _).symm, ?_, ?_, fun hround ↦ ?_, h.shut.2⟩
  · show (u :: ts).countP (·.kind = .definition) = if g.sawDef then 1 else 0
    rw [← h.definition, List.countP_cons, List.countP_cons, hdef]
  · obtain ⟨hname, hrest⟩ := List.forall_mem_cons.1 h.nameless
    exact List.forall_mem_cons.2 ⟨fun hk ↦ hname ((ht.kind_iff (by simp) (by simp)).1 hk), hrest⟩
  · rw [isRoundOpener, ht.plain.2] at hround
    exact absurd hround (by simp)

/-- **While the argument list is not opened**, each step keeps what is known. -/
theorem Unopened.step (h : Unopened a) (hproper : ∀ t ∈ a.2, Proper t) (hstep : Writes Q a b)
    (hb : b.1.inArguments = false) : Unopened b := by
  cases hstep with
  | @token g ts t ht =>
    have hargs : g.inArguments = false ∧ (isRoundOpener t && g.sawDef && decide (g.openBrackets = 0)) = false :=
      Bool.or_eq_false_iff.1 (inArguments_after_eq.symm.trans hb)
    refine ⟨?_, ?_, List.forall_mem_cons.2 ⟨fun hk ↦ ?_, h.nameless⟩, fun hround hnested v hv hk ↦ ?_, h.shut⟩
    · rw [openBrackets_after, h.depth]
      rfl
    · have hearly := ht.early
      have hcount := h.definition
      show (t :: ts).countP (·.kind = .definition) = if (g.after t).sawDef then 1 else 0
      rw [List.countP_cons, sawDef_after, show ts.countP (·.kind = .definition) = _ from hcount]
      by_cases hk : t.kind = .definition
      · simp only [Early, hk] at hearly
        simp [hk, hearly.1]
      · simp [hk]
    · have hlegal := ht.legal
      simp only [Legal, hk, hargs.1] at hlegal
      exact absurd hlegal.1 (by simp)
    · -- the bracket would open the argument list
      have hsaw : g.sawDef = true := by
        have hpos : 0 < ts.countP (·.kind = .definition) :=
          List.countP_pos_iff.2 ⟨v, hv, by simpa using hk⟩
        have hcount : ts.countP (·.kind = .definition) = if g.sawDef then 1 else 0 := h.definition
        by_contra hsaw
        rw [hcount, if_neg hsaw] at hpos
        exact absurd hpos (Nat.lt_irrefl 0)
      have hopen : g.openBrackets = 0 := h.depth.trans hnested
      simp [hround, hsaw, hopen] at hargs
  | @layout g ts text _ _ hloose =>
    obtain ⟨hopen, hclose⟩ := not_bracket_of_loose (hloose hb)
    refine ⟨?_, ?_, List.forall_mem_cons.2 ⟨by simp [Token.of], h.nameless⟩, fun hround ↦ ?_, h.shut⟩
    · have hnest : nest (nested ts) (.of .endSeparator text) = nested ts := by
        rw [nest, if_neg (by simp [hopen]), if_neg (by simp [hclose])]
      exact h.depth.trans hnest.symm
    · show (Token.of .endSeparator text :: ts).countP (·.kind = .definition) = if g.sawDef then 1 else 0
      rw [List.countP_cons_of_neg (by simp [Token.of])]
      exact h.definition
    · rw [isRoundOpener, hopen] at hround
      exact absurd hround (by simp)
  | grow hk _ => exact h.replace (replaces_grown hk)
  | tighten hk => exact h.replace (replaces_tightened hk (hproper _ List.mem_cons_self))

theorem unopened_start : Unopened ({}, []) :=
  ⟨rfl, rfl, by simp, trivial⟩

theorem Written.unopened (h : Written Q ({}, []) a) (ha : a.1.inArguments = false) : Unopened a := by
  refine h.induct (I := fun a ↦ a.1.inArguments = false → Unopened a) (fun _ ↦ unopened_start) ?_ ha
  intro a b hproper hunopened hstep hb
  have hargs : a.1.inArguments = false := by
    by_contra hargs
    rw [hstep.inArguments (by simpa using hargs)] at hb
    exact absurd hb (by simp)
  exact (hunopened hargs).step hproper hstep hb

/-! ### Tokens in the argument list and behind it -/

/-- A word that stands in the opening of a header. -/
def OpeningWord (t : Token) : Prop :=
  t.kind = .definition ∨ t.kind = .functionName ∨ t.kind = .keyword

theorem not_openingWord_of_early (ht : Early g t) (hargs : g.inArguments = true) : ¬ OpeningWord t := by
  rintro (hk | hk | hk) <;> simp [Early, hk, hargs] at ht

/-- The tokens end, newest first, in `bracket :: ts`, and none behind these is a word of the opening. -/
def Behind (bracket : Token) (ts us : List Token) : Prop :=
  ∃ more, us = more ++ bracket :: ts ∧ ∀ t ∈ more, ¬ OpeningWord t

theorem Behind.cons {us : List Token} (h : Behind bracket ts us) (ht : ¬ OpeningWord t) :
    Behind bracket ts (t :: us) := by
  obtain ⟨more, rfl, hwords⟩ := h
  exact ⟨t :: more, rfl, List.forall_mem_cons.2 ⟨ht, hwords⟩⟩

/-- The last token may change, unless it is the bracket. -/
theorem Behind.change {us : List Token} (h : Behind bracket ts (t :: us)) (hne : t ≠ bracket)
    (hu : ¬ OpeningWord t → ¬ OpeningWord u) : Behind bracket ts (u :: us) := by
  obtain ⟨more, hmore, hwords⟩ := h
  cases more with
  | nil => exact absurd (List.cons_eq_cons.1 hmore).1 hne
  | cons v more =>
    obtain ⟨rfl, rfl⟩ := List.cons_eq_cons.1 hmore
    obtain ⟨hlast, hrest⟩ := List.forall_mem_cons.1 hwords
    exact Behind.cons ⟨more, rfl, hrest⟩ (hu hlast)

theorem Writes.behind (hstep : Writes Q a b) (hbracket : bracket.isOpener = true)
    (ha : a.1.inArguments = true ∧ Behind bracket ts a.2) :
    b.1.inArguments = true ∧ Behind bracket ts b.2 := by
  obtain ⟨hargs, hbehind⟩ := ha
  refine ⟨hstep.inArguments hargs, ?_⟩
  cases hstep with
  | token ht => exact hbehind.cons (not_openingWord_of_early ht.early hargs)
  | layout _ _ _ => exact hbehind.cons (by simp [OpeningWord, Token.of])
  | @grow g us t text hk _ =>
    have hreplaces : Replaces t (.of t.kind text) := replaces_grown hk
    refine hbehind.change ?_ id
    rintro rfl
    exact absurd (hbracket.symm.trans hreplaces.plain.1) (by simp)
  | @tighten g us t hk =>
    refine hbehind.change ?_ fun _ ↦ by simp [OpeningWord]
    rintro rfl
    simp [Token.isOpener, hk] at hbracket

/-- **In the argument list**, the tokens up to its bracket stay as they are, and no word of the opening is written
any more. -/
theorem Written.behind (h : Written Q a b) (ha : a.1.inArguments = true) (hts : a.2 = bracket :: ts)
    (hbracket : bracket.isOpener = true) : Behind bracket ts b.2 :=
  (h.invariant (fun ha hstep ↦ hstep.behind hbracket ha) ⟨ha, [], hts, by simp⟩).2

/-! ### The moment of opening -/

variable {source : Source} {first : Nat} {header : Header}

/-- When the header at line `first` is read, the argument list is opened right behind the tokens `opening`. -/
def OpensBehind (source : Source) (first : Nat) (opening : List Token) : Prop :=
  ∃ (s s' : Scan) (d d' : Draft) (x : Lexeme), Reading source first s d ∧ s.step = (some x, s') ∧
    d.take s'.rows x = .ok d' ∧ d.inArguments = false ∧ d'.inArguments = true ∧
    d'.written = .of .endSeparator ['('] :: opening.reverse

/-- The tokens of a header divide at the bracket that opens its argument list. -/
structure DividesAt (source : Source) (first : Nat) (header : Header) (opening rest : List Token) : Prop where
  tokens : header.tokens = opening ++ .of .endSeparator ['('] :: rest
  /-- The bracket in between is the one that opened the argument list. -/
  moment : OpensBehind source first opening
  /-- The word `def` comes before it. -/
  definition : opening.countP (·.kind = .definition) = 1
  /-- It stands outside brackets. -/
  outside : opening.foldl nest 0 = 0
  /-- It is the first such bracket. -/
  least : ∀ front t back, opening = front ++ t :: back → isRoundOpener t = true → front.foldl nest 0 = 0 →
    ∀ u ∈ front, u.kind ≠ .definition
  /-- No argument is named before it. -/
  nameless : ∀ t ∈ opening, t.kind ≠ .argumentName
  endless : ∀ t ∈ opening, t.kind ≠ .stop
  /-- The function is not named after it. -/
  wordless : ∀ t ∈ rest, ¬ OpeningWord t

theorem DividesAt.exists_definition (h : DividesAt source first header opening rest) :
    ∃ t ∈ opening, t.kind = .definition := by
  have hpos : 0 < opening.countP (·.kind = .definition) := by
    rw [h.definition]
    exact Nat.one_pos
  simpa using List.countP_pos_iff.1 hpos

/-- Whatever the source is, nothing is asked of its layout. -/
theorem residual_true : Residual (fun _ ↦ True) source :=
  ⟨⟨fun _ ↦ trivial, fun _ _ ↦ .inl trivial⟩, fun _ _ _ ↦ trivial⟩

theorem Shut.append (h : Shut (ts ++ t :: rest)) (hround : isRoundOpener t = true) (hnested : nested rest = 0) :
    ∀ u ∈ rest, u.kind ≠ .definition := by
  induction ts with
  | nil => exact h.1 hround hnested
  | cons u ts ih => exact ih h.2

theorem dividesAt_of_opens {dm d₁ : Draft} (h : Draft.Opens dm d₁) (hwrote : Draft.Wrote Q {} dm)
    (hmoment : OpensBehind source first dm.written.reverse)
    (htokens : header.tokens = dm.written.reverse ++ .of .endSeparator ['('] :: rest)
    (hrest : ∀ t ∈ rest, ¬ OpeningWord t) :
    DividesAt source first header dm.written.reverse rest := by
  obtain ⟨hdepth, hcount, hnames, hshut⟩ := Written.unopened hwrote h.closed
  refine ⟨htokens, hmoment, ?_, ?_, ?_, ?_, ?_, hrest⟩
  · rw [List.countP_reverse]
    exact hcount.trans (if_pos h.sawDef)
  · rw [foldl_nest_reverse]
    exact hdepth.symm.trans h.outside
  · intro front t back hsplit hround hopen u hu
    have hwritten : dm.written = back.reverse ++ t :: front.reverse := by
      rw [← List.reverse_reverse dm.written, hsplit]
      simp
    have hshut' : Shut (back.reverse ++ t :: front.reverse) := hwritten ▸ hshut
    refine hshut'.append hround ?_ u (List.mem_reverse.2 hu)
    rw [← foldl_nest_reverse, List.reverse_reverse, hopen]
  · exact fun t ht ↦ hnames t (List.mem_reverse.1 ht)
  · exact fun t ht ↦ (Written.proper hwrote t (List.mem_reverse.1 ht)).kind_ne_stop

/-- Behind the closing colon there is at most some layout. -/
theorem layout_of_mem {tail : List Token}
    (htail : tail = [] ∨ ∃ text, text ≠ [] ∧ tail = [.of .endSeparator text]) (ht : t ∈ tail) :
    t.kind = .endSeparator ∧ Worded t := by
  rcases htail with rfl | ⟨text, hne, rfl⟩
  · exact absurd ht (by simp)
  · obtain rfl := List.mem_singleton.1 ht
    exact ⟨rfl, Draft.worded_of_ne_nil hne⟩

/-- **A header that is read divides at the bracket that opens its argument list.** -/
theorem exists_dividesAt_of_read (h : (read source first).1 = .ok header) :
    ∃ opening rest, DividesAt source first header opening rest := by
  obtain ⟨s, d, hr, hcomplete, rfl⟩ := exists_reading_of_read h
  have hopened := hr.turns (Q := fun _ ↦ True) (fun _ ↦ trivial) residual_true
    (P := fun d ↦ (d.inArguments = false ∧ d.isComplete = false ∧ Draft.Wrote (fun _ ↦ True) {} d) ∨
      ∃ dm d₁, OpensBehind source first dm.written.reverse ∧ Draft.Opens dm d₁ ∧
        Draft.Wrote (fun _ ↦ True) {} dm ∧ Draft.Arrives (fun _ ↦ True) d₁ d)
    (.inl ⟨rfl, rfl, .refl⟩) ?_
  · obtain ⟨dm, d₁, hmoment, hopens, hwrote, harrives⟩ :=
      hopened.resolve_left fun h ↦ absurd (hcomplete.symm.trans h.2.1) (by simp)
    obtain ⟨-, d₂, tail, hwrote', -, -, htail, hwritten⟩ :=
      harrives.resolve_left fun h ↦ absurd (hcomplete.symm.trans h.1) (by simp)
    obtain ⟨more, hmore, hwords⟩ := Written.behind hwrote' hopens.inArguments hopens.written (by decide)
    have hmore : d₂.written = more ++ .of .endSeparator ['('] :: dm.written := hmore
    refine ⟨_, more.reverse ++ .of .endDefinition [':'] :: (tail.reverse ++ [Token.last]),
      dividesAt_of_opens hopens hwrote hmoment ?_ ?_⟩
    · rw [Draft.tokens, hwritten, hmore]
      simp
    · intro t ht
      simp only [List.mem_append, List.mem_reverse, List.mem_cons, List.not_mem_nil, or_false] at ht
      rcases ht with ht | rfl | ht | rfl
      · exact hwords t ht
      · simp [OpeningWord, Token.of]
      · simp [OpeningWord, (layout_of_mem htail ht).1]
      · simp [OpeningWord, Token.last]
  · intro s s' d d' x hr hd hstep htake hbefore hturn
    rcases hbefore with ⟨hargs, -, hwrote⟩ | ⟨dm, d₁, hmoment, hopens, hwrote, harrives⟩
    · cases hturn with
      | on hwrote' hargs' hmode _ => exact .inl ⟨hargs'.trans hargs, hmode, hwrote.trans hwrote'⟩
      | @opens dm hwrote' hopens hmode _ =>
        refine .inr ⟨dm, d', ⟨s, s', d, d', x, hr, hstep, htake, hargs, hopens.inArguments, ?_⟩, hopens,
          hwrote.trans hwrote', .inl ⟨hmode, .refl⟩⟩
        rw [List.reverse_reverse]
        exact hopens.written
      | close hin _ => exact absurd (hargs.symm.trans hin) (by simp)
    · exact .inr ⟨dm, d₁, hmoment, hopens, hwrote, harrives.trans hd hturn.arrives⟩

/-! ### Where the opening is copied to -/

variable {seenDef : Bool} {out : Text}

/-- Copying gets through to any round bracket behind `def`. -/
theorem exists_copyOpening_eq (hstop : ∀ t ∈ opening, t.kind ≠ .stop)
    (hdef : seenDef = true ∨ ∃ t ∈ opening, t.kind = .definition) (hbracket : isRoundOpener bracket = true) :
    ∃ f, Filling.copyOpening seenDef out (opening ++ bracket :: rest) = .ok f ∧ rest <:+ f.rest := by
  have hopener : bracket.isOpener = true ∧ bracket.text = ['('] := by
    simpa [isRoundOpener] using hbracket
  have hkind : bracket.kind = .endSeparator := by
    simpa using (Bool.and_eq_true_iff.1 hopener.1).1
  induction opening generalizing seenDef out with
  | nil =>
    obtain rfl := hdef.resolve_right (by simp)
    refine ⟨⟨rest, write out bracket, 0⟩, ?_, List.suffix_rfl⟩
    simp [Filling.copyOpening, hkind, hopener]
  | cons t opening ih =>
    obtain ⟨ht, hmore⟩ := List.forall_mem_cons.1 hstop
    rw [List.cons_append, Filling.copyOpening, if_neg ht]
    by_cases hk : t.kind = .definition
    · rw [if_pos hk]
      exact ih hmore (.inl rfl)
    rw [if_neg hk]
    by_cases hround : (seenDef && t.isOpener && t.text = ['(']) = true
    · rw [if_pos hround]
      exact ⟨_, rfl, (List.suffix_cons bracket rest).trans (List.suffix_append opening _)⟩
    · rw [if_neg hround]
      refine ih hmore (hdef.imp_right ?_)
      rintro ⟨u, hu, hku⟩
      rcases List.mem_cons.1 hu with rfl | hu
      · exact absurd hku hk
      · exact ⟨u, hu, hku⟩

/-- Copying stops at the given bracket if it is the first round one behind `def`, and before it otherwise. -/
theorem argumentTokens_append_iff (hdef : ∃ t ∈ opening, t.kind = .definition)
    (hbracket : isRoundOpener bracket = true) :
    argumentTokens (opening ++ bracket :: rest) = rest ↔
      ∀ t ∈ opening.dropWhile (·.kind ≠ .definition), isRoundOpener t = false := by
  obtain ⟨u, hu, hku⟩ := hdef
  have hne : opening.dropWhile (·.kind ≠ .definition) ≠ [] := fun hnil ↦ by
    have := List.dropWhile_eq_nil_iff.1 hnil u hu
    simp [hku] at this
  rw [argumentTokens, List.dropWhile_append, if_neg (by simpa using hne)]
  generalize opening.dropWhile (·.kind ≠ .definition) = back
  rw [List.dropWhile_append]
  by_cases hall : back.dropWhile (!isRoundOpener ·) = []
  · rw [if_pos (by simp [hall]), List.dropWhile_cons_of_neg (by simp [hbracket]), List.tail_cons]
    simpa using List.dropWhile_eq_nil_iff.1 hall
  · rw [if_neg (by simpa using hall)]
    obtain ⟨t, more, hmore⟩ := List.exists_cons_of_ne_nil hall
    have hround : isRoundOpener t = true := by
      have := List.head?_dropWhile_not (!isRoundOpener ·) back
      simpa [hmore] using this
    have hmem : t ∈ back := (List.dropWhile_suffix _).subset (hmore ▸ List.mem_cons_self)
    rw [hmore, List.cons_append, List.tail_cons]
    constructor
    · intro heq
      have hlength := congrArg List.length heq
      simp only [List.length_append, List.length_cons] at hlength
      omega
    · intro hnone
      exact absurd (hround.symm.trans (hnone t hmem)) (by simp)

/-! ### The words on both sides -/

/-- A name is written by the side of the bracket that it is on. -/
structure NamedBySide (d : Draft) (x : Lexeme) (d' : Draft) : Prop where
  /-- Before the argument list it names the function, or goes on with a piece that ends in a dot. -/
  early : d.inArguments = false → x.text ≠ "async".toList → x.text ≠ "def".toList →
    ∃ t, d'.written.head? = some t ∧ (t.kind = .functionName ∧ x.text <:+ t.text ∨
      ∃ piece, piece.getLast? = some '.' ∧ t.text = piece ++ x.text)
  /-- In the argument list it names an argument, unless an annotation or a default value is read. -/
  argument : d.inArguments = true → d.annotationDepth = 0 → d.valueDepth = 0 →
    d'.written.head? = some (.of .argumentName x.text)

theorem head_dotted {d : Draft} {kind : Token.Kind} {text : Text} :
    ∃ t, (d.dotted kind text).written.head? = some t ∧ (t.kind = kind ∧ text <:+ t.text ∨
      ∃ piece, piece.getLast? = some '.' ∧ t.text = piece ++ text) := by
  unfold Draft.dotted
  dsimp only
  split
  · rename_i hcont
    obtain ⟨t, hhead, hlast⟩ := (Option.any_eq_true _ _).1 hcont
    obtain ⟨ts, hts⟩ := List.head?_eq_some_iff.1 hhead
    simp only [Bool.and_eq_true, decide_eq_true_eq] at hlast
    refine ⟨{ t with text? := some (t.text ++ text) }, by simp [Draft.amend, hts], .inr ⟨t.text, hlast.2, rfl⟩⟩
  · exact ⟨.of kind text, rfl, .inl ⟨rfl, List.suffix_rfl⟩⟩

theorem namedBySide {rows : List Text} {d d' : Draft} {x : Lexeme} (hm : d.mode = .plain) (htag : x.tag = .name)
    (htake : d.take rows x = .ok d') : NamedBySide d x d' := by
  have hstage : (d.layout rows x.start).stage = d.stage := Draft.layout_stage ..
  have hargs : (d.layout rows x.start).inArguments = d.inArguments := congrArg Stage.inArguments hstage
  have hann : (d.layout rows x.start).annotationDepth = d.annotationDepth := congrArg Stage.annotationDepth hstage
  have hval : (d.layout rows x.start).valueDepth = d.valueDepth := congrArg Stage.valueDepth hstage
  have hname : (d.layout rows x.start).name x = .ok d' := by simpa [Draft.take, hm, Draft.plain, htag] using htake
  rw [Draft.name, hargs, hann, hval] at hname
  constructor
  · intro hearly hasync hdef
    rw [if_pos (by simp [hearly]), if_neg hasync, if_neg hdef] at hname
    obtain rfl := Except.ok.inj hname
    exact head_dotted
  · intro hin ha hv
    rw [if_neg (by simp [hin]), if_neg (by omega), if_neg (by omega)] at hname
    obtain rfl := Except.ok.inj hname
    rfl

/-! ### Where the header is filled in from -/

/-- **Copying the opening and reading the header agree on where the argument list starts**, unless a round bracket
stands between `def` and the argument list, in the brackets behind the name of the function: there copying stops
at that bracket. On both sides of the bracket that opened the list, a name has been read for what it is there. -/
theorem copyOpening_of_read (h : (read source first).1 = .ok header) :
    ∃ opening rest, DividesAt source first header opening rest ∧
      (∀ out, ∃ f, Filling.copyOpening false out header.tokens = .ok f ∧ rest <:+ f.rest ∧
        (f.rest = rest ↔ ∀ t ∈ opening.dropWhile (·.kind ≠ .definition), isRoundOpener t = false)) ∧
      ∀ {s s' : Scan} {d d' : Draft} {x : Lexeme}, Reading source first s d → s.step = (some x, s') →
        d.take s'.rows x = .ok d' → d.mode = .plain → x.tag = .name → NamedBySide d x d' := by
  obtain ⟨opening, rest, hat⟩ := exists_dividesAt_of_read h
  refine ⟨opening, rest, hat, fun out ↦ ?_, fun _ _ htake hm htag ↦ namedBySide hm htag htake⟩
  obtain ⟨f, hcopy, hsuffix⟩ : ∃ f, Filling.copyOpening false out (opening ++ .of .endSeparator ['('] :: rest) = .ok f ∧
      rest <:+ f.rest := exists_copyOpening_eq hat.endless (.inr hat.exists_definition) (by decide)
  rw [← hat.tokens] at hcopy
  obtain ⟨-, -, -, -, -, -, hrest⟩ := Filling.copyOpening_ok hcopy
  refine ⟨f, hcopy, hsuffix, ?_⟩
  rw [hrest, hat.tokens]
  exact argumentTokens_append_iff hat.exists_definition (by decide)

/-- The round bracket of a decorator opens nothing, and brackets behind the name that are not round do no harm. -/
theorem copyOpening_of_read_decorated :
    ∃ header opening rest, (read (Document.ofText "@d(1)\nasync def f[T](a): pass\n".toList).source 0).1 = .ok header ∧
      DividesAt (Document.ofText "@d(1)\nasync def f[T](a): pass\n".toList).source 0 header opening rest ∧
      ∃ f, Filling.copyOpening false [] header.tokens = .ok f ∧ f.rest = rest ∧
        rest.head? = some (.of .argumentName ['a']) := by
  have hread : (read (Document.ofText "@d(1)\nasync def f[T](a): pass\n".toList).source 0).1 =
      .ok ⟨[.of .endSeparator ['@'], .of .functionName ['d'], .of .endSeparator ['('],
        .of .argumentDefault ['1'], .of .endSeparator [')'], .of .endSeparator ['\n'], .of .keyword "async".toList,
        .of .definition "def".toList, .of .functionName ['f'], .of .endSeparator ['['], .of .functionName ['T'],
        .of .endSeparator [']'], .of .endSeparator ['('], .of .argumentName ['a'], .of .endSeparator [')'],
        .of .endDefinition [':'], .of .endSeparator " pass".toList, Token.last], 2⟩ := by rfl
  obtain ⟨opening, rest, hat, hcopies, -⟩ := copyOpening_of_read hread
  obtain ⟨f, hcopy, hsuffix, -⟩ := hcopies []
  refine ⟨_, opening, rest, hread, hat, f, hcopy, ?_⟩
  obtain rfl := Except.ok.inj (hcopy.symm.trans rfl)
  -- no round bracket is left where copying stops
  obtain rfl : rest = _ := hsuffix.eq_of_length_le <| not_lt.1 fun hlt ↦ by
    have hbracket := List.suffix_of_suffix_length_le ⟨opening, hat.tokens.symm⟩
      (List.drop_suffix 13 _) (Nat.succ_le_of_lt hlt)
    exact absurd (hbracket.subset List.mem_cons_self) (by decide)
  exact ⟨rfl, rfl⟩

/-- A bound in the brackets behind the name of a function is taken for its argument list. -/
theorem copyOpening_stops_early :
    ∃ header opening rest f,
      (read (Document.ofText "def f[T: (int, str)](x): pass\n".toList).source 0).1 = .ok header ∧
      DividesAt (Document.ofText "def f[T: (int, str)](x): pass\n".toList).source 0 header opening rest ∧
      Filling.copyOpening false [] header.tokens = .ok f ∧ f.rest ≠ rest ∧
      f.rest.head? = some (.of .functionName "int".toList) := by
  have hread : (read (Document.ofText "def f[T: (int, str)](x): pass\n".toList).source 0).1 =
      .ok ⟨[.of .definition "def".toList, .of .functionName ['f'], .of .endSeparator ['['], .of .functionName ['T'],
        .of .typeDef [':'], .of .endSeparator ['('], .of .functionName "int".toList, .of .separator [','],
        .of .functionName "str".toList, .of .endSeparator [')'], .of .endSeparator [']'],
        .of .endSeparator ['('], .of .argumentName ['x'], .of .endSeparator [')'],
        .of .endDefinition [':'], .of .endSeparator " pass".toList, Token.last], 1⟩ := by rfl
  obtain ⟨opening, rest, hat⟩ := exists_dividesAt_of_read hread
  refine ⟨_, opening, rest, _, hread, hat, rfl, fun heq ↦ ?_, rfl⟩
  exact hat.wordless (.of .functionName "int".toList) (heq ▸ List.mem_cons_self) (.inr (.inl rfl))

end HeaderHints.Header
