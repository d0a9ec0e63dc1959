import HeaderHints.Proofs.FillSteps

/-!
# Brackets among tokens

How brackets nest in the tokens of a header. `Within d ts` says that the tokens `ts` close no bracket but
the `d` that are open before them and those that they open, so that they can be followed at any greater
depth. An annotation or a default value is a `Span`: it closes what it opens, and outside its brackets no
token ends it.

`Runs` follows the tokens of a complete header forward, with the stage before each of them. From inside
brackets the closing colon is out of reach, so every token of a span stands where its kind may stand; in
particular a default value holds neither names of arguments nor bare marks.
-/

namespace HeaderHints.Header

variable {d e : Nat} {t : Token} {ts us region rest : List Token}

/-! ### Depth -/

/-- The number of open brackets after a token. -/
def nest (d : Nat) (t : Token) : Nat :=
  if t.isOpener then d + 1 else if t.isCloser then d - 1 else d

/-- No token closes a bracket that is not open. -/
def Within : Nat → List Token → Prop
  | _, [] => True
  | d, t :: ts => (d = 0 → t.isCloser = false) ∧ Within (nest d t) ts

/-- The tokens before the bracket that closes them. -/
def enclosed : Nat → List Token → List Token
  | _, [] => []
  | d, t :: ts => if d = 0 ∧ t.isCloser = true then [] else t :: enclosed (nest d t) ts

/-- The tokens outside brackets. -/
def outer : Nat → List Token → List Token
  | _, [] => []
  | d, t :: ts => if d = 0 then t :: outer (nest d t) ts else outer (nest d t) ts

/-- The tokens before the one outside brackets that ends an item. -/
def item : Nat → List Token → List Token
  | _, [] => []
  | d, t :: ts => if d = 0 ∧ endsItem t = true then [] else t :: item (nest d t) ts

theorem isCloser_of_isOpener (h : t.isOpener = true) : t.isCloser = false := by
  simp only [Token.isOpener, Token.opensBracket, Bool.and_eq_true, Bool.or_eq_true,
    decide_eq_true_eq] at h
  simp only [Token.isCloser, Token.closesBracket]
  rcases h.2 with (h | h) | h <;> rw [h] <;> simp

theorem nest_opener (h : t.isOpener = true) : nest d t = d + 1 := by
  rw [nest, if_pos h]

theorem nest_closer (h : t.isCloser = true) : nest d t = d - 1 := by
  have : t.isOpener = false := by
    cases hopen : t.isOpener with
    | false => rfl
    | true => rw [isCloser_of_isOpener hopen] at h; exact absurd h (by simp)
  rw [nest, if_neg (by simp [this]), if_pos h]

theorem nest_of_kind (h : t.kind ≠ .endSeparator) : nest d t = d := by
  simp [nest, Token.isOpener, Token.isCloser, h]

theorem nest_add (h : d = 0 → t.isCloser = false) (c : Nat) : nest (d + c) t = nest d t + c := by
  unfold nest
  split
  · omega
  split
  · rename_i hcloser
    have : d ≠ 0 := fun hd ↦ by rw [h hd] at hcloser; exact absurd hcloser (by simp)
    omega
  · rfl

/-- Tokens can be followed at any greater depth. -/
theorem Within.add (h : Within d ts) (c : Nat) :
    Within (d + c) ts ∧ ts.foldl nest (d + c) = ts.foldl nest d + c := by
  induction ts generalizing d with
  | nil => exact ⟨trivial, rfl⟩
  | cons t ts ih =>
    obtain ⟨hcloser, hrest⟩ := h
    have hnest := nest_add hcloser c
    obtain ⟨hwithin, hfold⟩ := ih hrest
    refine ⟨⟨fun hd ↦ hcloser (by omega), by rw [hnest]; exact hwithin⟩, ?_⟩
    rw [List.foldl_cons, List.foldl_cons, hnest, hfold]

theorem within_append (h : Within d ts) (h' : Within (ts.foldl nest d) us) :
    Within d (ts ++ us) := by
  induction ts generalizing d with
  | nil => exact h'
  | cons t ts ih => exact ⟨h.1, ih h.2 h'⟩

theorem enclosed_append (h : Within d ts) :
    enclosed d (ts ++ rest) = ts ++ enclosed (ts.foldl nest d) rest := by
  induction ts generalizing d with
  | nil => rfl
  | cons t ts ih =>
    rw [List.cons_append, enclosed, if_neg, ih h.2]
    · rfl
    · rintro ⟨hd, hcloser⟩
      rw [h.1 hd] at hcloser
      exact absurd hcloser (by simp)

theorem enclosed_closer (h : t.isCloser = true) : enclosed 0 (t :: rest) = [] := by
  rw [enclosed, if_pos ⟨rfl, h⟩]

theorem outer_append : outer d (ts ++ us) = outer d ts ++ outer (ts.foldl nest d) us := by
  induction ts generalizing d with
  | nil => rfl
  | cons t ts ih =>
    simp only [List.cons_append, outer, ih, List.foldl_cons]
    split <;> rfl

theorem mem_of_mem_outer (h : t ∈ outer d ts) : t ∈ ts := by
  induction ts generalizing d with
  | nil => exact h
  | cons u ts ih =>
    rw [outer] at h
    split at h
    · rcases List.mem_cons.1 h with rfl | h
      · exact List.mem_cons_self
      · exact List.mem_cons_of_mem _ (ih h)
    · exact List.mem_cons_of_mem _ (ih h)

/-! ### Items -/

/-- Tokens that lead from depth `d` to depth `e` and hold nothing outside brackets that ends an
item. -/
def Span : Nat → List Token → Nat → Prop
  | d, [], e => d = e
  | d, t :: ts, e => (d = 0 → endsItem t = false) ∧ t.kind ≠ .stop ∧ Span (nest d t) ts e

theorem isCloser_of_endsItem (h : endsItem t = false) : t.isCloser = false := by
  cases hcloser : t.isCloser with
  | false => rfl
  | true =>
    have hk : t.kind = .endSeparator := by
      simp only [Token.isCloser, Bool.and_eq_true, decide_eq_true_eq] at hcloser
      exact hcloser.1
    simp [endsItem, hk, hcloser] at h

theorem isLayout_of_endsItem (h : endsItem t = false) : t.isLayout = false := by
  cases hlayout : t.isLayout with
  | false => rfl
  | true =>
    have hk : t.kind = .endSeparator := by
      simp only [Token.isLayout, Bool.and_eq_true, decide_eq_true_eq] at hlayout
      exact hlayout.1
    simp [endsItem, hk, hlayout] at h

theorem Span.within (h : Span d ts e) : Within d ts ∧ ts.foldl nest d = e := by
  induction ts generalizing d with
  | nil => exact ⟨trivial, h⟩
  | cons t ts ih =>
    obtain ⟨hends, -, hrest⟩ := h
    obtain ⟨hwithin, hfold⟩ := ih hrest
    exact ⟨⟨fun hd ↦ isCloser_of_endsItem (hends hd), hwithin⟩, hfold⟩

theorem Span.kind_ne_stop (h : Span d ts e) : ∀ t ∈ ts, t.kind ≠ .stop := by
  induction ts generalizing d with
  | nil => simp
  | cons t ts ih => exact List.forall_mem_cons.2 ⟨h.2.1, ih h.2.2⟩

theorem Span.append {c : Nat} (h : Span d ts e) (h' : Span e us c) : Span d (ts ++ us) c := by
  induction ts generalizing d with
  | nil =>
    obtain rfl : d = e := h
    exact h'
  | cons t ts ih => exact ⟨h.1, h.2.1, ih h.2.2⟩

/-- Where an item ends, it is all that is taken. -/
theorem item_append (h : Span d region 0) (hrest : ∀ t ∈ rest.head?, endsItem t = true) :
    item d (region ++ rest) = region := by
  induction region generalizing d with
  | nil =>
    obtain rfl : d = 0 := h
    cases rest with
    | nil => rfl
    | cons t rest => rw [List.nil_append, item, if_pos ⟨rfl, hrest t rfl⟩]
  | cons t region ih =>
    rw [List.cons_append, item, if_neg, ih h.2.2]
    rintro ⟨hd, hends⟩
    rw [h.1 hd] at hends
    exact absurd hends (by simp)

/-! ### Places -/

/-- A token that takes no place in an argument list. -/
def Placeless (t : Token) : Prop :=
  t.kind ≠ .argumentName ∧ isBareMark t = false

instance (t : Token) : Decidable (Placeless t) :=
  inferInstanceAs (Decidable (_ ∧ _))

/-- The place that a token outside brackets takes in an argument list. -/
def place? (t : Token) : Option Place :=
  if t.kind = .argumentName then some .name else if isBareMark t then some .marker else none

theorem place?_of_placeless (h : Placeless t) : place? t = none := by
  rw [place?, if_neg h.1, if_neg (by simp [h.2])]

theorem place?_of_isBracket (h : t.isOpener = true ∨ t.isCloser = true) : place? t = none := by
  simp only [Token.isOpener, Token.isCloser, Token.opensBracket, Token.closesBracket, Bool.and_eq_true,
    Bool.or_eq_true, decide_eq_true_eq] at h
  have hkind : t.kind = .endSeparator := h.elim And.left And.left
  have htext : t.text ≠ ['*'] ∧ t.text ≠ ['/'] := by
    rcases h with ⟨-, (h | h) | h⟩ | ⟨-, (h | h) | h⟩ <;> simp [h]
  simp [place?, isBareMark, hkind, htext]

/-- **The places** of an argument list are those of the tokens outside its brackets. -/
theorem places_eq {ps : List Place} (h : places d ts = .ok ps) :
    ps = (outer d (enclosed d ts)).filterMap place? := by
  induction ts generalizing d ps with
  | nil =>
    obtain rfl := Except.ok.inj h
    rfl
  | cons t ts ih =>
    rw [places] at h
    split at h
    · exact absurd h (by simp)
    -- a token that does not close the list adds its own place outside brackets
    have hstep : ∀ {more : List Place}, (d = 0 → t.isCloser = false) →
        places (nest d t) ts = .ok more → (outer d (enclosed d (t :: ts))).filterMap place? =
          (if d = 0 then (place? t).toList else []) ++ more := by
      intro more hcloser hmore
      rw [ih hmore, enclosed, if_neg fun hc ↦ by simp [hcloser hc.1] at hc, outer]
      split
      · cases hplace : place? t <;> simp [hplace]
      · rfl
    split at h
    · rename_i hopen
      rw [hstep (fun _ ↦ isCloser_of_isOpener hopen) (by rwa [nest_opener hopen]),
        place?_of_isBracket (.inl hopen)]
      simp
    rename_i hopen
    split at h
    · rename_i hcloser
      split at h
      · rename_i hd
        obtain rfl := Except.ok.inj h
        rw [hd, enclosed_closer hcloser]
        rfl
      · rename_i hd
        rw [hstep (fun hd' ↦ absurd hd' hd) (by rwa [nest_closer hcloser]), if_neg hd]
        rfl
    rename_i hcloser
    have hnest : nest d t = d := by rw [nest, if_neg hopen, if_neg hcloser]
    have hclosed : d = 0 → t.isCloser = false := fun _ ↦ by simpa using hcloser
    split at h
    · rename_i hname
      rw [Bool.and_eq_true, decide_eq_true_eq, decide_eq_true_eq] at hname
      obtain ⟨more, hmore, heq⟩ := bind_eq_ok.1 h
      obtain rfl := Except.ok.inj heq
      rw [hstep hclosed (by rwa [hnest]), if_pos hname.1, place?, if_pos hname.2]
      rfl
    rename_i hname
    rw [Bool.and_eq_true, decide_eq_true_eq, decide_eq_true_eq] at hname
    split at h
    · rename_i hmark
      rw [Bool.and_eq_true, decide_eq_true_eq] at hmark
      obtain ⟨more, hmore, heq⟩ := bind_eq_ok.1 h
      obtain rfl := Except.ok.inj heq
      rw [hstep hclosed (by rwa [hnest]), if_pos hmark.1, place?, if_neg fun hk ↦ hname ⟨hmark.1, hk⟩,
        if_pos hmark.2]
      rfl
    · rename_i hmark
      rw [Bool.and_eq_true, decide_eq_true_eq] at hmark
      rw [hstep hclosed (by rwa [hnest])]
      split
      · rename_i hd
        rw [place?, if_neg fun hk ↦ hname ⟨hd, hk⟩, if_neg fun hm ↦ hmark ⟨hd, hm⟩]
        rfl
      · rfl

/-- **The named places** of an argument list are the names outside its brackets. -/
theorem count_places {ps : List Place} (h : places d ts = .ok ps) :
    ps.count .name = ((outer d (enclosed d ts)).filter (·.kind = .argumentName)).length := by
  rw [places_eq h, List.count_filterMap, ← List.countP_eq_length_filter]
  refine List.countP_congr fun t _ ↦ ?_
  by_cases hname : t.kind = .argumentName
  · simp [place?, hname]
  · by_cases hmark : isBareMark t = true <;> simp [place?, hname, hmark]

/-! ### Following the tokens of a header -/

variable {g : Stage} {before : Option Token}

/-- The tokens of a header from the stage `g` on: up to the closing colon, each stands where its kind may
stand, and the colon stands outside brackets after the argument list. -/
def Runs : Stage → Option Token → List Token → Prop
  | _, _, [] => True
  | g, before, t :: ts =>
    if t.kind = .endDefinition then g.openBrackets = 0 ∧ g.inArguments = true
    else (Proper t ∧ Legal g t ∧ (t.kind = .lambdaBody → before = some lambdaWord)) ∧
      Runs (g.after t) (some t) ts

theorem formed_of_append (h : Formed (ts ++ us)) : Formed us := by
  induction ts with
  | nil => exact h
  | cons t ts ih =>
    rw [List.cons_append, Formed] at h
    exact ih h.2

theorem runs_of_formed (h : Formed (ts.reverse ++ us))
    (hclose : (Stage.of (ts.reverse ++ us)).openBrackets = 0 ∧
      (Stage.of (ts.reverse ++ us)).inArguments = true) (ht : t.kind = .endDefinition) :
    Runs (Stage.of us) us.head? (ts ++ t :: rest) := by
  induction ts generalizing us with
  | nil =>
    rw [List.nil_append, Runs, if_pos ht]
    exact hclose
  | cons u ts ih =>
    rw [List.reverse_cons, List.append_assoc] at h hclose
    have hfirst := formed_of_append h
    rw [List.singleton_append, Formed] at hfirst
    rw [List.cons_append, Runs, if_neg]
    · exact ⟨hfirst.1, ih h hclose⟩
    · intro hk
      simp [Proper, hk] at hfirst

/-- **The tokens of a complete header run** from its start. -/
theorem runs_of_finished {written : List Token} (h : Finished written) :
    Runs {} none (written.reverse ++ [Token.last]) := by
  obtain ⟨tail, front, rfl, -, hformed, harguments, hopen⟩ := h
  have : (tail ++ .of .endDefinition [':'] :: front).reverse ++ [Token.last] =
      front.reverse ++ .of .endDefinition [':'] :: (tail.reverse ++ [Token.last]) := by simp
  rw [this]
  have hnil : front.reverse.reverse ++ [] = front := by simp
  rw [← hnil] at hformed harguments hopen
  exact runs_of_formed hformed ⟨hopen, harguments⟩ rfl

theorem openBrackets_after : (g.after t).openBrackets = nest g.openBrackets t := by
  unfold Stage.after nest
  split
  · rfl
  split
  · rfl
  split <;> try rfl
  all_goals split <;> rfl

theorem inArguments_after_eq : (g.after t).inArguments =
    (g.inArguments || (isRoundOpener t && g.sawDef && decide (g.openBrackets = 0))) := by
  unfold Stage.after
  split
  · rename_i hopen
    rw [isRoundOpener, hopen, Bool.true_and]
    rfl
  rename_i hopen
  have hround : isRoundOpener t = false := by simp [isRoundOpener, hopen]
  rw [hround, Bool.false_and, Bool.false_and, Bool.or_false]
  split
  · rfl
  split <;> try rfl
  all_goals split <;> rfl

/-- A token that is no bracket of the argument list leaves it to come. -/
theorem inArguments_after (hin : g.inArguments = false)
    (h : (g.sawDef && isRoundOpener t) = false) : (g.after t).inArguments = false := by
  rw [inArguments_after_eq, hin, Bool.false_or, Bool.and_comm (isRoundOpener t), h, Bool.false_and]

theorem sawDef_after : (g.after t).sawDef = (g.sawDef || decide (t.kind = .definition)) := by
  unfold Stage.after
  split
  · rename_i hopen
    simp only [Token.isOpener, Bool.and_eq_true, decide_eq_true_eq] at hopen
    simp [Stage.opened, hopen.1]
  split
  · rename_i hcloser
    simp only [Token.isCloser, Bool.and_eq_true, decide_eq_true_eq] at hcloser
    simp [Stage.closed, hcloser.1]
  split <;> rename_i hk
  · simp [hk]
  · simp [hk]
  · simp [hk]
  · simp [hk]
  · split <;> simp [hk, Stage.divided]
  · split <;> simp [hk, Stage.divided]
  · have : t.kind ≠ .definition := by assumption
    simp [this]

/-- The opening of a header ends before its closing colon. -/
theorem Runs.arguments {seenDef : Bool} {out : Text} {f : Filling} (h : Runs g before ts)
    (hcopy : Filling.copyOpening seenDef out ts = .ok f) (hdef : g.sawDef = seenDef)
    (hin : g.inArguments = false) :
    ∃ (g' : Stage) (before' : Option Token), Runs g' before' f.rest ∧ 0 < g'.openBrackets := by
  induction ts generalizing seenDef out g before with
  | nil => exact absurd hcopy (by simp [Filling.copyOpening])
  | cons t ts ih =>
    have hkind : t.kind ≠ .endDefinition := by
      intro hk
      rw [Runs, if_pos hk, hin] at h
      exact absurd h.2 (by simp)
    rw [Runs, if_neg hkind] at h
    rw [Filling.copyOpening] at hcopy
    split at hcopy
    · exact absurd hcopy (by simp)
    split at hcopy
    · rename_i hk
      refine ih h.2 hcopy (by simp [sawDef_after, hk]) (inArguments_after hin ?_)
      simp [isRoundOpener, Token.isOpener, hk]
    rename_i hk
    split at hcopy
    · rename_i hbracket
      obtain rfl := Except.ok.inj hcopy
      refine ⟨_, _, h.2, ?_⟩
      rw [Bool.and_eq_true, Bool.and_eq_true] at hbracket
      rw [openBrackets_after, nest_opener hbracket.1.2]
      omega
    · rename_i hbracket
      refine ih h.2 hcopy (by simp [sawDef_after, hk, hdef]) (inArguments_after hin ?_)
      rw [hdef, isRoundOpener, ← Bool.and_assoc]
      simpa using hbracket

theorem lt_openBrackets_after (h : d = 0 → t.isCloser = false) (hg : d < g.openBrackets) :
    nest d t < (g.after t).openBrackets := by
  obtain ⟨c, hc⟩ : ∃ c, g.openBrackets = d + (c + 1) := ⟨g.openBrackets - d - 1, by omega⟩
  rw [openBrackets_after, hc, nest_add h]
  omega

/-- Inside brackets, the next token is not the closing colon. -/
theorem Runs.next (h : Runs g before (t :: ts)) (hg : 0 < g.openBrackets) :
    (Proper t ∧ Legal g t ∧ (t.kind = .lambdaBody → before = some lambdaWord)) ∧
      Runs (g.after t) (some t) ts := by
  rw [Runs] at h
  split at h
  · omega
  · exact h

/-- **Tokens that stay inside brackets** end before the closing colon. -/
theorem Runs.drop (h : Runs g before (ts ++ rest)) (hw : Within d ts) (hg : d < g.openBrackets) :
    (∀ t ∈ ts, Proper t) ∧ ∃ (g' : Stage) (before' : Option Token),
      Runs g' before' rest ∧ g'.openBrackets = ts.foldl nest g.openBrackets := by
  induction ts generalizing d g before with
  | nil => exact ⟨by simp, g, before, h, rfl⟩
  | cons t ts ih =>
    obtain ⟨⟨hproper, -⟩, hmore⟩ := h.next (by omega)
    obtain ⟨hall, g', before', hruns, hopen⟩ := ih hmore hw.2 (lt_openBrackets_after hw.1 hg)
    refine ⟨by simpa using ⟨hproper, hall⟩, g', before', hruns, ?_⟩
    rw [hopen, openBrackets_after]
    rfl

/-- Inside a default value, its depth goes along with the brackets. -/
theorem valueDepth_after (hl : Legal g t) (hends : d = 0 → endsItem t = false)
    (hv : g.valueDepth = d + 1) : (g.after t).valueDepth = nest d t + 1 := by
  have hcomma : t.text = [','] → t.kind = .separator ∨ t.kind = .endSeparator → d ≠ 0 := by
    rintro htext hk rfl
    rcases hk with hk | hk <;> simp [endsItem, hk, htext] at hends
  unfold Stage.after nest
  split
  · simp [Stage.opened, hv]
  split
  · rename_i hcloser
    have hd : d ≠ 0 := fun hd ↦ by
      rw [isCloser_of_endsItem (hends hd)] at hcloser
      exact absurd hcloser (by simp)
    show g.valueDepth - 1 = d - 1 + 1
    omega
  have hsplit : t.text = [','] → d ≠ 0 → g.divided.valueDepth = d + 1 := by
    intro _ hd
    show (if g.valueDepth = 1 then 0 else g.valueDepth) = d + 1
    rw [if_neg (by omega), hv]
  split
  · exact hv
  · rename_i hk
    simp only [Legal, hk] at hl
    omega
  · exact hv
  · -- a second equals sign would end the value
    rename_i hk
    simp only [Legal, hk] at hl
    have hd : d = 0 := by omega
    have := hends hd
    simp [endsItem, hk] at this
  · rename_i hk
    split
    · rename_i htext
      exact hsplit htext (hcomma htext (.inl hk))
    · exact hv
  · rename_i hk
    split
    · rename_i htext
      exact hsplit htext (hcomma htext (.inr hk))
    · exact hv
  · exact hv

/-- **A default value holds no names of arguments and no bare marks.** -/
theorem placeless_of_value (h : Runs g before (region ++ rest)) (hspan : Span d region e)
    (hg : d < g.openBrackets) (hv : g.valueDepth = d + 1) : ∀ t ∈ region, Placeless t := by
  induction region generalizing d g before with
  | nil => simp
  | cons t region ih =>
    obtain ⟨⟨hproper, hlegal, -⟩, hmore⟩ := h.next (by omega)
    obtain ⟨hends, -, hrest⟩ := hspan
    have hclosed : d = 0 → t.isCloser = false := fun hd ↦ isCloser_of_endsItem (hends hd)
    have hnest := lt_openBrackets_after hclosed hg
    have hself : Placeless t := by
      refine ⟨fun hk ↦ ?_, ?_⟩
      · simp only [Legal, hk] at hlegal
        omega
      · cases hmark : isBareMark t with
        | false => rfl
        | true =>
          simp only [isBareMark, Bool.and_eq_true, Bool.or_eq_true, decide_eq_true_eq] at hmark
          simp only [Legal, hmark.1] at hlegal
          have := hlegal hmark.2
          omega
    have hall := ih hmore hrest hnest (valueDepth_after hlegal hends hv)
    intro u hu
    rcases List.mem_cons.1 hu with rfl | hu
    · exact hself
    · exact hall u hu

end HeaderHints.Header
