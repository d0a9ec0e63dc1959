import HeaderHints.Proofs.ArgumentOpenings

/-!
# The shape of the tokens of a header

Whatever a source hands out, the tokens of a header that is read have one shape (`Shaped`): one word `def`, one
closing colon with at most the rest of its row behind it, and the end token, which is the only one without a
text; and arguments are named only behind the bracket that opens their list. Each of these is a fact about the
steps of writing, or about the bracket of the argument list.

The brackets before the closing colon are balanced only if layout is no bracket (`shaped_of_read`). What
follows a line break within a line is dropped, but not behind the body of a lambda, where the draft takes a
break of the line for a joined line end. So an opening bracket there becomes a token that nothing closes
(`read_leaves_bracket`), unless the line is the last one (`Source.Tidy`).
-/

namespace HeaderHints

/-- No line that another one follows ends in an opening bracket right behind a line break. -/
def Source.Tidy (source : Source) : Prop :=
  ∀ {pre post : Source} {t : Text} {b c : Char}, source = pre ++ some (t ++ [b, c]) :: post →
    Lexeme.isBreak b = true → Token.opensBracket [c] = true → post.Dry

/-- Whole lines are tidy. -/
theorem Source.Lined.tidy {source : Source} (hs : source.Lined) : source.Tidy := by
  intro pre post t b c hsource hbreak hopens
  obtain ⟨hfeed, hnext⟩ := hs hsource
  have hc : c ≠ '\n' := by
    rintro rfl
    exact absurd hopens (by decide)
  intro e u more hpost
  have hlast := hnext hpost
  rw [show t ++ [b, c] = t ++ [b] ++ [c] by simp, List.getLast?_concat] at hlast
  exact hc (Option.some.inj hlast)

namespace Header

open Lexeme

variable {Q : Text → Prop} {a b : Stage × List Token} {t u : Token} {ts opening rest : List Token}
  {source : Source} {first : Nat} {header : Header}

/-! ### Texts -/

theorem worded_grown {text : Text} (hk : Growing t.kind) (htext : Wordy t.text → Wordy text) (ht : Proper t) :
    Worded (.of t.kind text) := by
  refine Draft.worded_of_wordy (htext ?_)
  rcases hk with hk | hk | hk <;> simpa [Proper, hk] using ht

theorem Writes.worded (h : Writes Q a b) (hproper : ∀ t ∈ a.2, Proper t) (ha : ∀ t ∈ a.2, Worded t) :
    ∀ t ∈ b.2, Worded t := by
  cases h with
  | token ht => exact List.forall_mem_cons.2 ⟨ht.worded, ha⟩
  | layout hne _ _ => exact List.forall_mem_cons.2 ⟨Draft.worded_of_ne_nil hne, ha⟩
  | grow hk htext =>
    have hlast := hproper _ List.mem_cons_self
    exact List.forall_mem_cons.2 ⟨worded_grown hk htext hlast, (List.forall_mem_cons.1 ha).2⟩
  | tighten hk =>
    obtain ⟨⟨hsome, hne⟩, hrest⟩ := List.forall_mem_cons.1 ha
    exact List.forall_mem_cons.2 ⟨⟨hsome, fun _ ↦ hne (by simp [hk])⟩, hrest⟩

/-- **Every token that is written has a text.** -/
theorem Written.worded (h : Written Q ({}, []) a) : ∀ t ∈ a.2, Worded t :=
  h.induct (I := fun a ↦ ∀ t ∈ a.2, Worded t) (by simp) fun hproper ha hstep ↦ hstep.worded hproper ha

/-! ### Depth -/

theorem nest_mono {d e : Nat} (h : d ≤ e) : nest d t ≤ nest e t := by
  unfold nest
  split
  · omega
  split <;> omega

/-- Where layout does not open brackets, no more brackets are open among the tokens than the draft knows of. -/
theorem Writes.nested_le (hQ : ∀ {t}, Q t → Token.opensBracket t = false) (h : Writes Q a b)
    (hproper : ∀ t ∈ a.2, Proper t) (ha : nested a.2 ≤ a.1.openBrackets) : nested b.2 ≤ b.1.openBrackets := by
  cases h with
  | @token g ts t _ =>
    show nest (nested ts) t ≤ (g.after t).openBrackets
    rw [openBrackets_after]
    exact nest_mono ha
  | @layout g ts text _ htext _ =>
    have hopener : (Token.of .endSeparator text).isOpener = false := by
      simpa [Token.isOpener, Token.of, Token.text] using hQ htext
    refine le_trans ?_ ha
    show nest (nested ts) (.of .endSeparator text) ≤ nested ts
    rw [nest, if_neg (by simp [hopener])]
    split <;> omega
  | @grow g ts t text hk _ =>
    exact ((replaces_grown hk).nest_eq (nested ts)).trans_le ha
  | @tighten g ts t hk =>
    exact ((replaces_tightened hk (hproper t List.mem_cons_self)).nest_eq (nested ts)).trans_le ha

theorem Written.nested_le (hQ : ∀ {t}, Q t → Token.opensBracket t = false) (h : Written Q ({}, []) a) :
    nested a.2 ≤ a.1.openBrackets :=
  h.induct (I := fun a ↦ nested a.2 ≤ a.1.openBrackets) le_rfl fun hproper ha hstep ↦ hstep.nested_le hQ hproper ha

theorem opensBracket_of_loose {text : Text} (h : Loose text) : Token.opensBracket text = false := by
  simp only [Loose, List.mem_cons, List.not_mem_nil, or_false, not_or] at h
  simp [Token.opensBracket, h]

/-- What a scan leaves behind does not open brackets, if the source is tidy. -/
theorem residual_tidy : Residual (fun t ↦ source.Tidy → Token.opensBracket t = false) source where
  gap := fun hgap _ ↦ opensBracket_of_loose (loose_of_isGap hgap)
  joined := fun _ _ _ _ ↦ opensBracket_of_loose (loose_of_mem (c := '\\') (by simp) (by decide))
  dropped := by
    intro pre post b text drop hsource hcut
    by_cases hdry : post.Dry
    · exact .inr hdry
    refine .inl fun htidy ↦ ?_
    by_contra hopens
    rw [Bool.not_eq_false] at hopens
    obtain ⟨c, rfl⟩ : ∃ c, drop = [c] := by
      simp only [Token.opensBracket, Bool.or_eq_true, decide_eq_true_eq] at hopens
      rcases hopens with (rfl | rfl) | rfl <;> exact ⟨_, rfl⟩
    obtain ⟨e, u, hbreak, rfl⟩ : ∃ e u, isBreak e = true ∧ text = u ++ [e] := by
      rcases hcut with hnil | hlast | ⟨hlast, -⟩
      · exact absurd hnil (by simp)
      · obtain ⟨u, rfl⟩ := List.getLast?_eq_some_iff.1 hlast
        exact ⟨_, u, by decide, rfl⟩
      · obtain ⟨u, rfl⟩ := List.getLast?_eq_some_iff.1 hlast
        exact ⟨_, u, by decide, rfl⟩
    exact hdry (htidy (t := b ++ u) (by simpa using hsource) hbreak hopens)

/-! ### Whole headers -/

/-- The tokens of a header as they stand: those before the closing colon, the colon, at most the rest of its
row, and the end token. -/
structure Shaped (header : Header) (before tail : List Token) : Prop where
  tokens : header.tokens = before ++ .of .endDefinition [':'] :: (tail ++ [Token.last])
  /-- There is one word `def`. -/
  definition : header.tokens.countP (·.kind = .definition) = 1
  /-- There is one closing colon. -/
  endDefinition : header.tokens.countP (·.kind = .endDefinition) = 1
  /-- There is one end token. -/
  stop : header.tokens.countP (·.kind = .stop) = 1
  /-- All tokens but the last one have a text, which only the body of a lambda may leave empty. -/
  worded : ∀ t ∈ before ++ .of .endDefinition [':'] :: tail, Worded t
  /-- An argument is named behind a round bracket after `def` outside brackets. -/
  named : ∀ front t back, header.tokens = front ++ t :: back → t.kind = .argumentName →
    ∃ pre u post, front = pre ++ u :: post ∧ isRoundOpener u = true ∧ pre.foldl nest 0 = 0 ∧
      ∃ v ∈ pre, v.kind = .definition
  /-- Behind the closing colon there is at most the rest of its row. -/
  closing : tail = [] ∨ ∃ text, tail = [.of .endSeparator text]

/-- Arguments are named behind the bracket that opens their list. -/
theorem DividesAt.named (h : DividesAt source first header opening rest) {front back : List Token}
    (htokens : header.tokens = front ++ t :: back) (hk : t.kind = .argumentName) :
    ∃ pre u post, front = pre ++ u :: post ∧ isRoundOpener u = true ∧ pre.foldl nest 0 = 0 ∧
      ∃ v ∈ pre, v.kind = .definition := by
  have hbehind : ∃ post, front = opening ++ .of .endSeparator ['('] :: post := by
    have hsplit : (opening ++ [.of .endSeparator ['(']]) ++ rest = front ++ t :: back := by
      rw [← htokens, h.tokens]
      simp
    rcases List.append_eq_append_iff.1 hsplit with ⟨post, rfl, -⟩ | ⟨more, hmore, hback⟩
    · exact ⟨post, by simp⟩
    · cases more with
      | nil => exact ⟨[], by simpa using hmore.symm⟩
      | cons u more =>
        -- the name would stand before the bracket, or in its place
        obtain ⟨rfl, -⟩ := List.cons_eq_cons.1 hback
        have hmem : t ∈ opening ++ [.of .endSeparator ['(']] := by simp [hmore]
        rcases List.mem_append.1 hmem with ht | ht
        · exact absurd hk (h.nameless t ht)
        · simp [List.mem_singleton.1 ht, Token.of] at hk
  obtain ⟨post, rfl⟩ := hbehind
  exact ⟨opening, _, post, rfl, by decide, h.outside, h.exists_definition⟩

/-- A token that is the only one of its kind. -/
theorem countP_kind_eq_one {k : Token.Kind} (ht : t.kind = k) (hts : ∀ u ∈ ts, u.kind ≠ k)
    (hrest : ∀ u ∈ rest, u.kind ≠ k) : (ts ++ t :: rest).countP (·.kind = k) = 1 := by
  have hnone : ∀ {us : List Token}, (∀ u ∈ us, u.kind ≠ k) → us.countP (·.kind = k) = 0 := fun hus ↦
    List.countP_eq_zero.2 fun u hu ↦ by simpa using hus u hu
  rw [List.countP_append, List.countP_cons_of_pos (by simpa using ht), hnone hts, hnone hrest]

theorem DividesAt.countP_definition (h : DividesAt source first header opening rest) :
    header.tokens.countP (·.kind = .definition) = 1 := by
  have hrest : rest.countP (·.kind = .definition) = 0 :=
    List.countP_eq_zero.2 fun t ht ↦ by simpa using fun hk ↦ h.wordless t ht (.inl hk)
  rw [h.tokens, List.countP_append, h.definition, List.countP_cons_of_neg (by simp [Token.of]), hrest]

/-- **The tokens of a header that is read have their shape**, and in a tidy source the brackets before its closing
colon are balanced. -/
theorem shaped_of_read (h : (read source first).1 = .ok header) :
    ∃ before tail, Shaped header before tail ∧ (source.Tidy → before.foldl nest 0 = 0) := by
  obtain ⟨opening, rest, hat⟩ := exists_dividesAt_of_read h
  obtain ⟨g, before, tail, hwritten, -, hopen, htail, htokens⟩ :=
    exists_written_of_read (fun hloose _ ↦ opensBracket_of_loose hloose) residual_tidy h
  have hproper : ∀ t ∈ before.reverse, Proper t := fun t ht ↦ hwritten.proper t (List.mem_reverse.1 ht)
  refine ⟨before.reverse, tail, ⟨htokens, hat.countP_definition, ?_, ?_, ?_, fun _ _ _ ↦ hat.named,
    htail.imp_right fun ⟨text, _, htext⟩ ↦ ⟨text, htext⟩⟩, fun htidy ↦ ?_⟩
  · rw [htokens]
    refine countP_kind_eq_one rfl (fun t ht ↦ (hproper t ht).kind_ne_endDefinition) ?_
    exact List.forall_mem_append.2 ⟨fun t ht ↦ by simp [(layout_of_mem htail ht).1], by simp [Token.last]⟩
  · rw [htokens, ← List.cons_append, ← List.append_assoc]
    refine countP_kind_eq_one rfl ?_ (by simp)
    exact List.forall_mem_append.2 ⟨fun t ht ↦ (hproper t ht).kind_ne_stop,
      List.forall_mem_cons.2 ⟨by simp [Token.of], fun t ht ↦ by simp [(layout_of_mem htail ht).1]⟩⟩
  · exact List.forall_mem_append.2 ⟨fun t ht ↦ hwritten.worded t (List.mem_reverse.1 ht),
      List.forall_mem_cons.2 ⟨Draft.worded_of_ne_nil (by simp), fun t ht ↦ (layout_of_mem htail ht).2⟩⟩
  · rw [foldl_nest_reverse]
    exact Nat.le_zero.1 ((hwritten.nested_le fun htext ↦ htext htidy).trans_eq hopen)

/-- A header with a lambda and nested brackets. -/
theorem shaped_of_read_lambda :
    ∃ header before tail,
      (read (Document.ofText "def f(a=[lambda: (0)], *, b: int): pass\n".toList).source 0).1 = .ok header ∧
      Shaped header before tail ∧ before.foldl nest 0 = 0 := by
  have hread : (read (Document.ofText "def f(a=[lambda: (0)], *, b: int): pass\n".toList).source 0).1 =
      .ok ⟨[.of .definition "def".toList, .of .functionName ['f'], .of .endSeparator ['('], .of .argumentName ['a'],
        .of .defaultDef ['='], .of .endSeparator ['['], .of .argumentDefault "lambda".toList,
        .of .lambdaBody ": (0)".toList, .of .endSeparator [']'], .of .separator [','], .of .endSeparator ['*'],
        .of .separator [','], .of .argumentName ['b'], .of .typeDef [':'], .of .dottedName "int".toList,
        .of .endSeparator [')'], .of .endDefinition [':'], .of .endSeparator " pass".toList, Token.last], 1⟩ := by
    rfl
  obtain ⟨before, tail, hshaped, hdepth⟩ := shaped_of_read hread
  exact ⟨_, before, tail, hread, hshaped, hdepth (Source.Lined.tidy (Document.source_lined _))⟩

/-- Behind the body of a lambda, what follows a line break within its line stays as a token of its own. -/
theorem read_leaves_bracket :
    ∃ header, (read [some "def f(x=lambda\r(".toList, some "): pass\n".toList] 0).1 = .ok header ∧
      (header.tokens.takeWhile (·.kind ≠ .endDefinition)).foldl nest 0 = 1 ∧
      header.tokens.countP (·.isOpener) = header.tokens.countP (·.isCloser) + 1 :=
  ⟨⟨[.of .definition "def".toList, .of .functionName ['f'], .of .endSeparator ['('], .of .argumentName ['x'],
    .of .defaultDef ['='], .of .argumentDefault "lambda".toList, .of .lambdaBody [], .of .endSeparator ['('],
    .of .endSeparator [')'], .of .endDefinition [':'], .of .endSeparator " pass".toList, Token.last], 2⟩,
    by rfl, by decide, by decide⟩

end Header

end HeaderHints
