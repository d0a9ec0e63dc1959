import HeaderHints.Proofs.Nesting
import HeaderHints.Proofs.TypeGrammar
import HeaderHints.TypeExpr.Collection

/-!
# What is taken from a header as an item

An annotation or a default value is read as a type or as a collection display, or else copied. Either way
the tokens that are taken form a `Span`. For the readers this is because the texts that they ask for are
punctuation: a token of a header with such a text is no name, and no body of a lambda, which is taken
together with the word before it. `Known` is what this needs of the tokens to come, up to the bracket that
closes what is around them.
-/

namespace HeaderHints.Header

open TypeExpr

variable {d : Nat} {t : Token} {ts rest : List Token} {g : Stage} {before : Option Token}

/-! ### Punctuation -/

/-- What a token of a complete header looks like. -/
def Spelt (t : Token) : Prop :=
  Proper t ∨ t = .of .endDefinition [':'] ∨ t = Token.last

theorem Spelt.kind_ne_stop (h : Spelt t) (ht : t.text ≠ []) : t.kind ≠ .stop := by
  rcases h with h | rfl | rfl
  · exact h.kind_ne_stop
  · simp [Token.of]
  · exact absurd rfl ht

/-- A token with a text other than that of the closing colon stands before it. -/
theorem Spelt.proper (h : Spelt t) (ht : t.text ≠ []) (hcolon : t.text ≠ [':']) : Proper t := by
  rcases h with h | rfl | rfl
  · exact h
  · exact absurd rfl hcolon
  · exact absurd rfl ht

/-- The kinds of tokens that are punctuation by their text. -/
theorem kind_of_reserved {c : Char} (hp : Proper t) (hk : t.kind ≠ .lambdaBody)
    (ht : t.text = [c]) (hc : c ∈ reserved) :
    t.kind = .endSeparator ∨ t.kind = .separator ∨ t.kind = .colon ∨ t.kind = .typeDef := by
  have hwordy : ¬ Wordy t.text := by
    rintro ⟨a, r, ha, hmem⟩
    rw [ht] at ha
    obtain ⟨rfl, -⟩ := List.cons_eq_cons.1 ha
    exact hmem hc
  unfold Proper at hp
  cases hkind : t.kind <;> rw [hkind] at hp hk <;> simp only at hp
  case dottedName | argumentDefault | functionName | keyword | definition =>
    exact absurd hp hwordy
  case argumentName =>
    obtain ⟨a, r, ha, hstart, -⟩ := hp
    exact absurd (ha ▸ Draft.wordy_of_isNameStart hstart) hwordy
  case defaultDef =>
    rw [ht] at hp
    obtain ⟨rfl, -⟩ := List.cons_eq_cons.1 hp
    exact absurd hc (by decide)
  case returnTypeDef =>
    rw [ht] at hp
    exact absurd (congrArg List.length hp) (by simp)
  case lambdaBody => exact absurd rfl hk
  all_goals simp

theorem isOpener_of_text (hs : Spelt t) (hk : t.kind ≠ .lambdaBody)
    (h : t.text = ['('] ∨ t.text = ['['] ∨ t.text = ['{']) : t.isOpener = true := by
  obtain ⟨c, hc, hmem, hne⟩ : ∃ c, t.text = [c] ∧ c ∈ reserved ∧ c ∉ [',', '|', ':'] := by
    rcases h with h | h | h <;> exact ⟨_, h, by decide, by decide⟩
  simp only [List.mem_cons, List.not_mem_nil, or_false, not_or] at hne
  have hp : Proper t := hs.proper (by simp [hc]) (by simp [hc, hne])
  have hend : t.kind = .endSeparator := by
    rcases kind_of_reserved hp hk hc hmem with h | h | h | h
    · exact h
    all_goals simp [Proper, h, hc, hne] at hp
  simp only [Token.isOpener, Token.opensBracket, hend, decide_true, Bool.true_and, Bool.or_eq_true,
    decide_eq_true_eq]
  tauto

theorem isCloser_of_text (hs : Spelt t) (hk : t.kind ≠ .lambdaBody)
    (h : t.text = [')'] ∨ t.text = [']'] ∨ t.text = ['}']) : t.isCloser = true := by
  obtain ⟨c, hc, hmem, hne⟩ : ∃ c, t.text = [c] ∧ c ∈ reserved ∧ c ∉ [',', '|', ':'] := by
    rcases h with h | h | h <;> exact ⟨_, h, by decide, by decide⟩
  simp only [List.mem_cons, List.not_mem_nil, or_false, not_or] at hne
  have hp : Proper t := hs.proper (by simp [hc]) (by simp [hc, hne])
  have hend : t.kind = .endSeparator := by
    rcases kind_of_reserved hp hk hc hmem with h | h | h | h
    · exact h
    all_goals simp [Proper, h, hc, hne] at hp
  simp only [Token.isCloser, Token.closesBracket, hend, decide_true, Bool.true_and, Bool.or_eq_true,
    decide_eq_true_eq]
  tauto

theorem nest_of_text {c : Char} (ht : t.text = [c]) (hc : c ∈ [',', '|', ':']) : nest d t = d := by
  have hopen : t.isOpener = false := by
    simp only [List.mem_cons, List.not_mem_nil, or_false] at hc
    rcases hc with rfl | rfl | rfl <;> simp [Token.isOpener, Token.opensBracket, ht]
  have hclose : t.isCloser = false := by
    simp only [List.mem_cons, List.not_mem_nil, or_false] at hc
    rcases hc with rfl | rfl | rfl <;> simp [Token.isCloser, Token.closesBracket, ht]
  rw [nest, if_neg (by simp [hopen]), if_neg (by simp [hclose])]

theorem endsItem_bar (hs : Spelt t) (ht : t.text = ['|']) : endsItem t = false := by
  have hp : Proper t := hs.proper (by simp [ht]) (by simp [ht])
  unfold Proper at hp
  unfold endsItem
  cases hkind : t.kind <;> rw [hkind] at hp <;> simp only at hp ⊢
  case separator => simp [ht]
  case endSeparator =>
    have hblank : Text.isBlank '|' = false := by decide
    simp [ht, Token.isCloser, Token.closesBracket, Token.isLayout, hblank]
  case defaultDef => simp [ht] at hp

theorem ne_lambdaWord (h : t.text ≠ "lambda".toList) : some t ≠ some lambdaWord := by
  intro heq
  obtain rfl := Option.some.inj heq
  exact h rfl

/-! ### Passing over tokens -/

/-- What is known of the tokens to come, up to the bracket that closes one around them, where `d` brackets have
been opened among them. -/
def Known : Nat → Option Token → List Token → Prop
  | _, _, [] => True
  | d, before, t :: ts =>
    (Spelt t ∧ (t.kind = .lambdaBody → before = some lambdaWord)) ∧
      ((d = 0 → t.isCloser = false) → Known (nest d t) (some t) ts)

/-- Inside brackets, the tokens of a header are known. -/
theorem Runs.known (h : Runs g before ts) (hg : d < g.openBrackets) : Known d before ts := by
  induction ts generalizing d g before with
  | nil => trivial
  | cons t ts ih =>
    obtain ⟨⟨hproper, -, hlambda⟩, hmore⟩ := h.next (by omega)
    exact ⟨⟨.inl hproper, hlambda⟩, fun hcloser ↦ ih hmore (lt_openBrackets_after hcloser hg)⟩

/-- Tokens are passed over up to `rest`: at any depth from `floor` on they form a span, and what follows
is no body of a lambda. -/
def Passes (floor d : Nat) (ts rest : List Token) : Prop :=
  ∃ (region : List Token) (before : Option Token), ts = region ++ rest ∧ Known d before rest ∧
    before ≠ some lambdaWord ∧ ∀ e, floor ≤ e → Span e region e

namespace Passes

variable {floor : Nat}

theorem refl (h : Known d before ts) (hb : before ≠ some lambdaWord) : Passes floor d ts ts :=
  ⟨[], before, rfl, h, hb, fun _ _ ↦ rfl⟩

theorem mono {floor' : Nat} (h : Passes floor d ts rest) (hle : floor ≤ floor') : Passes floor' d ts rest := by
  obtain ⟨region, before, hsplit, hknown, hb, hspan⟩ := h
  exact ⟨region, before, hsplit, hknown, hb, fun e he ↦ hspan e (hle.trans he)⟩

/-- What is passed over in two steps. -/
theorem trans {mid : List Token} (h : Passes floor d ts mid)
    (h' : ∀ {before}, Known d before mid → before ≠ some lambdaWord → Passes floor d mid rest) :
    Passes floor d ts rest := by
  obtain ⟨region, before, rfl, hknown, hb, hspan⟩ := h
  obtain ⟨region', before', rfl, hknown', hb', hspan'⟩ := h' hknown hb
  exact ⟨region ++ region', before', by simp, hknown', hb', fun e he ↦ (hspan e he).append (hspan' e he)⟩

/-- A single token that leaves the depth as it is. -/
theorem single (h : Known d before (t :: rest)) (hnest : ∀ d, nest d t = d) (htext : t.text ≠ [])
    (hword : some t ≠ some lambdaWord) (hends : floor = 0 → endsItem t = false) :
    Passes floor d (t :: rest) rest := by
  obtain ⟨⟨hspelt, -⟩, hmore⟩ := h
  have hcloser : t.isCloser = false := by
    by_contra hcloser
    exact absurd ((nest_closer (d := 1) (by simpa using hcloser)).symm.trans (hnest 1)) (by simp)
  have hknown : Known (nest d t) (some t) rest := hmore fun _ ↦ hcloser
  rw [hnest] at hknown
  refine ⟨[t], some t, rfl, hknown, hword, fun e he ↦ ⟨?_, hspelt.kind_ne_stop htext, hnest e⟩⟩
  rintro rfl
  exact hends (by omega)

/-- Brackets around what is passed over inside them. -/
theorem brackets {u : Token} (h : Known d before (t :: ts)) (hopen : t.isOpener = true)
    (hin : Known (d + 1) (some t) ts → Passes 1 (d + 1) ts (u :: rest))
    (hclose : u.text = [')'] ∨ u.text = [']'] ∨ u.text = ['}']) : Passes floor d (t :: ts) rest := by
  have hknown : Known (nest d t) (some t) ts := h.2 fun _ ↦ isCloser_of_isOpener hopen
  rw [nest_opener hopen] at hknown
  have hk : t.kind = .endSeparator := by
    simp only [Token.isOpener, Bool.and_eq_true, decide_eq_true_eq] at hopen
    exact hopen.1
  obtain ⟨region, before', rfl, ⟨⟨hspelt, hlambda⟩, hmore⟩, hb, hspan⟩ := hin hknown
  have hcloser := isCloser_of_text hspelt (fun hk ↦ hb (hlambda hk)) hclose
  have hk' : u.kind = .endSeparator := by
    simp only [Token.isCloser, Bool.and_eq_true, decide_eq_true_eq] at hcloser
    exact hcloser.1
  have hrest : Known (nest (d + 1) u) (some u) rest := hmore fun hd ↦ absurd hd (Nat.succ_ne_zero d)
  rw [nest_closer hcloser] at hrest
  refine ⟨t :: (region ++ [u]), some u, by simp, hrest, ?_, fun e he ↦ ⟨?_, ?_, ?_⟩⟩
  · intro heq
    rw [Option.some.inj heq] at hk'
    exact absurd hk' (by decide)
  · intro _
    simp only [Token.isOpener, Token.opensBracket, Bool.and_eq_true, Bool.or_eq_true,
      decide_eq_true_eq] at hopen
    rcases hopen.2 with (h | h) | h <;>
      simp [endsItem, hk, h, Token.isCloser, Token.closesBracket, Token.isLayout] <;> decide
  · simp [hk]
  · rw [nest_opener hopen]
    refine (hspan (e + 1) (by omega)).append ⟨by simp, by simp [hk'], ?_⟩
    show nest (e + 1) u = e
    rw [nest_closer hcloser]
    omega

end Passes

/-! ### Types -/

/-- The depth that a part of a type needs: commas divide items inside brackets. -/
def floor : Part → Nat
  | .items => 1
  | _ => 0

/-- The brackets that the readers of types ask for. -/
def Bracketing : Part → Prop
  | .bracketed opening closing =>
    (opening = ['('] ∨ opening = ['[']) ∧ (closing = [')'] ∨ closing = [']'])
  | _ => True

theorem kind_of_isA (h : t.isA .dottedName = true) :
    (∀ d, nest d t = d) ∧ endsItem t = false ∧ t.isCloser = false ∧ t.kind ≠ .stop := by
  rcases (Draft.isA_dottedName_iff t).1 h with hk | hk <;>
    exact ⟨fun d ↦ nest_of_kind (by simp [hk]), by simp [endsItem, hk], by simp [Token.isCloser, hk], by simp [hk]⟩

/-- A name, and what is passed over after it. -/
theorem passes_name (h : Known d before (t :: ts)) (hk : t.isA .dottedName = true)
    (hword : t.text ≠ "lambda".toList)
    (hmore : ∀ {before}, Known d before ts → before ≠ some lambdaWord → Passes 0 d ts rest) :
    Passes 0 d (t :: ts) rest := by
  obtain ⟨hnest, hends, hcloser, hstop⟩ := kind_of_isA hk
  have hknown : Known (nest d t) (some t) ts := h.2 fun _ ↦ hcloser
  rw [hnest] at hknown
  have hself : Passes 0 d (t :: ts) ts :=
    ⟨[t], some t, rfl, hknown, ne_lambdaWord hword, fun e _ ↦ ⟨fun _ ↦ hends, hstop, hnest e⟩⟩
  exact hself.trans hmore

/-- **What is read of a type is a span.** -/
theorem passes_of_derives {p : Part} {trees : List TypeExpr} (h : Derives p ts trees rest)
    (hp : Bracketing p) (hknown : Known d before ts) (hb : before ≠ some lambdaWord) :
    Passes (floor p) d ts rest := by
  induction h generalizing d before with
  | list _ _ ih => exact ih ⟨.inr rfl, .inr rfl⟩ hknown hb
  | any hk hname =>
    exact passes_name hknown hk (by rw [hname]; decide) fun hknown hb ↦ .refl hknown hb
  | noReturn hk hname =>
    refine passes_name hknown hk ?_ fun hknown hb ↦ .refl hknown hb
    rcases hname with h | h <;> rw [h] <;> decide
  | tuple hk hname _ ih | union hk hname _ _ ih =>
    exact passes_name hknown hk (by rw [hname]; decide) fun hknown hb ↦ ih ⟨.inr rfl, .inr rfl⟩ hknown hb
  | @lambda t b rest hk hname hbody =>
    -- the word and its body are taken together
    obtain ⟨hnest, hends, hcloser, hstop⟩ := kind_of_isA hk
    have hknown₁ : Known (nest d t) (some t) (b :: rest) := hknown.2 fun _ ↦ hcloser
    have hbk : b.kind = .lambdaBody := by
      cases hkind : b.kind <;> simp only [Token.isA, hkind] at hbody <;> first | rfl | (revert hbody; decide)
    have hnest' : ∀ d, nest d b = d := fun d ↦ nest_of_kind (by simp [hbk])
    have hknown₂ : Known (nest (nest d t) b) (some b) rest := hknown₁.2 fun _ ↦ by simp [Token.isCloser, hbk]
    rw [hnest', hnest] at hknown₂
    refine ⟨[t, b], some b, rfl, hknown₂, ?_, fun e _ ↦ ⟨fun _ ↦ hends, hstop, fun _ ↦ ?_, ?_, ?_⟩⟩
    · intro heq
      rw [Option.some.inj heq] at hbk
      exact absurd hbk (by decide)
    · simp [endsItem, hbk]
    · simp [hbk]
    · show nest (nest e t) b = e
      rw [hnest', hnest]
  | overload hk hname _ ih =>
    exact passes_name hknown hk (by rw [hname]; decide) fun hknown hb ↦ ih ⟨.inl rfl, .inl rfl⟩ hknown hb
  | applied hk _ hruled _ _ ih =>
    refine passes_name hknown hk (fun hname ↦ hruled ?_) fun hknown hb ↦ ih ⟨.inr rfl, .inr rfl⟩ hknown hb
    rw [hname]
    decide
  | leaf hk _ hruled _ =>
    refine passes_name hknown hk (fun hname ↦ hruled ?_) fun hknown hb ↦ .refl hknown hb
    rw [hname]
    decide
  | @bracketed opening closing t u ts rest args hopen _ hclose ih =>
    obtain ⟨ho, hc⟩ := hp
    have hopener := isOpener_of_text hknown.1.1 (fun hk ↦ hb (hknown.1.2 hk)) (by
      rw [hopen]
      tauto)
    refine Passes.brackets hknown hopener (fun hknown ↦ ih trivial hknown ?_) (by rw [hclose]; tauto)
    exact ne_lambdaWord (by rw [hopen]; rcases ho with h | h <;> rw [h] <;> decide)
  | itemsEnd _ => exact .refl hknown hb
  | itemsComma _ _ hcomma _ ih ih' =>
    refine ((ih trivial hknown hb).mono (by decide)).trans fun hknown₁ _ ↦ ?_
    exact (Passes.single hknown₁ (fun d ↦ nest_of_text hcomma (by decide)) (by simp [hcomma])
      (ne_lambdaWord (by rw [hcomma]; decide)) (by simp [floor])).trans (ih' trivial)
  | itemsLast _ _ _ ih => exact (ih trivial hknown hb).mono (by decide)
  | choicesBar _ hbar _ ih ih' =>
    refine (ih trivial hknown hb).trans fun hknown₁ _ ↦ ?_
    exact (Passes.single hknown₁ (fun d ↦ nest_of_text hbar (by decide)) (by simp [hbar])
      (ne_lambdaWord (by rw [hbar]; decide)) fun _ ↦ endsItem_bar hknown₁.1.1 hbar).trans (ih' trivial)
  | choicesLast _ _ ih => exact ih trivial hknown hb

/-- A type that is read is a span. -/
theorem passes_of_read {tree : TypeExpr} (h : TypeExpr.read.Takes ts tree rest)
    (hknown : Known d before ts) (hb : before ≠ some lambdaWord) : Passes 0 d ts rest := by
  obtain ⟨choices, hderives, -⟩ := read_takes_iff.1 h
  exact passes_of_derives hderives trivial hknown hb

/-! ### Collection displays -/

theorem passes_of_item {pairs : Bool} {item : TypeExpr} (h : Collection.DerivesItem pairs ts item rest)
    (hknown : Known d before ts) (hb : before ≠ some lambdaWord) : Passes 1 d ts rest := by
  cases h with
  | single hread => exact (passes_of_read hread hknown hb).mono (by decide)
  | pair hkey hcolon hvalue =>
    refine ((passes_of_read hkey hknown hb).mono (by decide)).trans fun hknown₁ _ ↦ ?_
    refine (Passes.single hknown₁ (fun d ↦ nest_of_text hcolon (by decide)) (by simp [hcolon])
      (ne_lambdaWord (by rw [hcolon]; decide)) (by simp)).trans fun hknown₂ hb₂ ↦ ?_
    exact (passes_of_read hvalue hknown₂ hb₂).mono (by decide)

/-- Items of a collection are passed over inside its brackets. -/
theorem passes_of_items {closing : Text} {pairs : Bool} {items : List TypeExpr}
    (h : Collection.DerivesItems closing pairs ts items rest) (hknown : Known d before ts)
    (hb : before ≠ some lambdaWord) : Passes 1 d ts rest := by
  induction h generalizing before with
  | done _ => exact .refl hknown hb
  | comma hitem hcomma _ ih =>
    refine (passes_of_item hitem hknown hb).trans fun hknown₁ _ ↦ ?_
    exact (Passes.single hknown₁ (fun d ↦ nest_of_text hcomma (by decide)) (by simp [hcomma])
      (ne_lambdaWord (by rw [hcomma]; decide)) (by simp)).trans ih
  | last hitem _ => exact passes_of_item hitem hknown hb

/-- **A collection display that is read is a span.** -/
theorem passes_of_collection {c : Collection} (h : Collection.read.Takes (t :: ts) c rest)
    (ht : t.isOpener = true) (hknown : Known d before (t :: ts)) : Passes 0 d (t :: ts) rest := by
  obtain ⟨t, mid, u, pairs, hcons, -, hitems, hclose⟩ := Collection.exists_derivesItems_of_read h
  obtain ⟨rfl, rfl⟩ := List.cons_eq_cons.1 hcons
  refine Passes.brackets (u := u) hknown ht (fun hknown₁ ↦ passes_of_items hitems hknown₁ ?_) ?_
  · refine ne_lambdaWord fun htext ↦ ?_
    simp only [Token.isOpener, Token.opensBracket, htext] at ht
    exact absurd ht (by simp)
  · rw [hclose]
    cases c.bracket <;> simp [Bracket.closing]

/-! ### Copies -/

/-- The brackets that are open after a token, the last one first. -/
def openersAfter (openers : List Text) (t : Token) : List Text :=
  if t.isOpener then t.text :: openers else if t.isCloser then openers.tail else openers

/-- A copied token. The colon of a slice is written without a space. -/
def copyToken (openers : List Text) (out : Text) (t : Token) : Text :=
  if t.kind = .colon && openers.head? = some ['['] then out ++ [':'] else write out t

/-- The text of tokens that are copied, when the brackets `openers` are open. -/
def copyText : List Text → Text → List Token → Text
  | _, out, [] => out
  | openers, out, t :: ts =>
    copyText (openersAfter openers t) (copyToken (openersAfter openers t) out t) ts

/-- The depth is the number of open brackets. -/
theorem length_openersAfter {openers : List Text} : (openersAfter openers t).length = nest openers.length t := by
  unfold nest openersAfter
  split
  · rfl
  split
  · rw [List.length_tail]
  · rfl

/-- **A copy is a span**, up to the token that ends it. -/
theorem copy_ok {openers : List Text} {out out' : Text} (h : Filling.copy openers out ts = .ok (rest, out')) :
    ∃ region, ts = region ++ rest ∧ Span openers.length region 0 ∧
      (∃ u more, rest = u :: more ∧ endsItem u = true) ∧ out' = copyText openers out region := by
  induction ts generalizing openers out with
  | nil => exact absurd h (by simp [Filling.copy])
  | cons t ts ih =>
    rw [Filling.copy] at h
    split at h
    · rename_i hend
      rw [Bool.and_eq_true, List.isEmpty_iff] at hend
      obtain ⟨rfl, rfl⟩ := Prod.mk.inj (Except.ok.inj h)
      exact ⟨[], rfl, by rw [hend.1]; rfl, ⟨t, ts, rfl, hend.2⟩, rfl⟩
    rename_i hopen
    split at h
    · exact absurd h (by simp)
    rename_i hstop
    obtain ⟨region, rfl, hspan, hend, rfl⟩ := ih h
    refine ⟨t :: region, rfl, ⟨?_, hstop, ?_⟩, hend, rfl⟩
    · intro hlen
      cases hends : endsItem t with
      | false => rfl
      | true => exact absurd (by simp [List.length_eq_zero_iff.1 hlen, hends]) hopen
    · rw [← length_openersAfter]
      exact hspan

theorem filter_copyToken {keep : Char → Bool} (hspace : keep ' ' = false) {openers : List Text} {out : Text}
    (hp : Proper t ∨ t.kind = .endDefinition) :
    (copyToken openers out t).filter keep = out.filter keep ++ t.text.filter keep := by
  unfold copyToken
  split
  · rename_i hcolon
    simp only [Bool.and_eq_true, decide_eq_true_eq] at hcolon
    have htext : t.text = [':'] := by simpa [Proper, hcolon.1] using hp
    rw [List.filter_append, htext]
  · exact filter_write hspace hp

/-- **A copy spells out its tokens**, up to spaces. -/
theorem filter_copyText {keep : Char → Bool} (hspace : keep ' ' = false) {openers : List Text} {out : Text}
    (hp : ∀ t ∈ ts, Proper t ∨ t.kind = .endDefinition) :
    (copyText openers out ts).filter keep = out.filter keep ++ (ts.flatMap Token.text).filter keep := by
  induction ts generalizing openers out with
  | nil => simp [copyText]
  | cons t ts ih =>
    rw [List.forall_mem_cons] at hp
    rw [copyText, ih hp.2, filter_copyToken hspace hp.1, List.flatMap_cons, List.filter_append,
      List.append_assoc]

theorem write_ne_nil {out : Text} (h : out ≠ []) (hk : t.kind ≠ .returnTypeDef) : write out t ≠ [] := by
  rw [write_eq hk, keptBefore]
  split
  · -- the layout that takes the place of the last space has a text
    rename_i hrep
    simp only [replacesSpace, Token.isLayout, Bool.and_eq_true, decide_eq_true_eq] at hrep
    obtain ⟨c, hc, -⟩ := (Option.any_eq_true _ _).1 hrep.1.2
    obtain ⟨r, hr⟩ := List.head?_eq_some_iff.1 hc
    simp [spelling, hrep.1.1.1, hr]
  · simp [h]

theorem copyToken_append {openers : List Text} {out front : Text} (hk : t.kind ≠ .returnTypeDef)
    (h : out ≠ [] ∨ t.isLayout = false) :
    copyToken openers (front ++ out) t = front ++ copyToken openers out t := by
  unfold copyToken
  split
  · rw [List.append_assoc]
  · exact write_append hk (h.imp_right .inr)

theorem copyToken_ne_nil {openers : List Text} {out : Text} (h : write out t ≠ []) :
    copyToken openers out t ≠ [] := by
  unfold copyToken
  split
  · simp
  · exact h

theorem copyText_append {openers : List Text} {out front : Text}
    (hk : ∀ t ∈ ts, t.kind ≠ .returnTypeDef) (h : out ≠ []) :
    copyText openers (front ++ out) ts = front ++ copyText openers out ts := by
  induction ts generalizing openers out with
  | nil => rfl
  | cons t ts ih =>
    have hself := hk t (by simp)
    rw [copyText, copyText, copyToken_append hself (.inl h),
      ih (fun u hu ↦ hk u (by simp [hu])) (copyToken_ne_nil (write_ne_nil h hself))]

theorem spelling_ne_nil (hp : Proper t) (hk : t.kind ≠ .returnTypeDef) (hl : t.isLayout = false) :
    spelling t ≠ [] := by
  unfold Proper at hp
  unfold spelling
  cases hkind : t.kind <;> rw [hkind] at hp <;> simp only at hp ⊢
  case dottedName | argumentDefault | functionName =>
    obtain ⟨c, r, hc, -⟩ := hp
    rw [hc]
    simp
  case argumentName =>
    obtain ⟨c, r, hc, -⟩ := hp
    rw [hc]
    simp
  case endSeparator =>
    intro hnil
    simp [Token.isLayout, hkind, hnil] at hl
  case lambdaBody =>
    split
    · rename_i hhead
      intro hnil
      simp [hnil] at hhead
    · simp
  case returnTypeDef => exact absurd hkind hk
  case separator => split <;> simp
  all_goals simp

/-- **The text of a copied item** does not depend on what stands before it. -/
theorem copyText_eq {out : Text} {region : List Token} (h : Span 0 region 0)
    (hp : ∀ t ∈ region, Proper t) (hk : ∀ t ∈ region, t.kind ≠ .returnTypeDef) :
    copyText [] out region = out ++ copyText [] [] region := by
  cases region with
  | nil => simp [copyText]
  | cons t region =>
    have hself := hk t (by simp)
    have hlayout := isLayout_of_endsItem (h.1 rfl)
    have hne : write [] t ≠ [] := by
      rw [write_eq hself]
      simp [spelling_ne_nil (hp t (by simp)) hself hlayout]
    have hfirst : copyToken (openersAfter [] t) out t = out ++ copyToken (openersAfter [] t) [] t := by
      calc copyToken (openersAfter [] t) out t = copyToken (openersAfter [] t) (out ++ []) t := by
            rw [List.append_nil]
        _ = out ++ copyToken (openersAfter [] t) [] t := copyToken_append hself (.inr hlayout)
    rw [copyText, copyText, hfirst,
      copyText_append (fun u hu ↦ hk u (by simp [hu])) (copyToken_ne_nil hne)]

/-! ### Items of a header -/

/-- An item has been written: its tokens form a span up to a token that ends it, and its text is added to
what stands before it. -/
structure WritesItem (f f' : Filling) (region : List Token) (text : Text) : Prop where
  rest_eq : f.rest = region ++ f'.rest
  span : Span 0 region 0
  ends : ∃ u more, f'.rest = u :: more ∧ endsItem u = true
  nextType_eq : f'.nextType = f.nextType
  out_eq : (∀ t ∈ region, t.kind ≠ .returnTypeDef) → f'.out = f.out ++ text

variable {f f' : Filling}

/-- **What is rendered or copied is an item.** -/
theorem renderOrCopy_ok {reader : Reader Text} (h : f.renderOrCopy reader = .ok f')
    (hreader : ∀ {text rest}, reader.Takes f.rest text rest → Passes 0 0 f.rest rest)
    (hruns : Runs g before f.rest) (hg : 0 < g.openBrackets) :
    ∃ region text, WritesItem f f' region text ∧
      (reader.Takes f.rest text f'.rest ∨ text = copyText [] [] region) := by
  obtain ⟨rest, out, hcopy, rfl⟩ | ⟨text, t, more, hread, hends, rfl⟩ := Filling.renderOrCopy_cases h
  · obtain ⟨region, hsplit, hspan, hend, rfl⟩ := copy_ok hcopy
    refine ⟨region, copyText [] [] region, ⟨hsplit, hspan, hend, rfl, fun hk ↦ ?_⟩, .inr rfl⟩
    rw [hsplit] at hruns
    exact copyText_eq hspan (hruns.drop hspan.within.1 hg).1 hk
  · obtain ⟨region, _, hsplit, _, _, hspan⟩ := hreader hread
    exact ⟨region, text, ⟨hsplit, hspan 0 le_rfl, ⟨t, more, rfl, hends⟩, rfl, fun _ ↦ rfl⟩, .inl hread⟩

/-- The text of an annotation that a header has: its tokens read as a type, which is rendered, or they are
copied. -/
def Restates (modules : Modules) (region : List Token) (text : Text) : Prop :=
  (∃ tree rest, TypeExpr.read.Takes (region ++ rest) tree rest ∧ text = render modules tree) ∨
    text = copyText [] [] region

theorem writeAnnotation_ok {modules : Modules} (h : f.writeAnnotation modules = .ok f')
    (hruns : Runs g before f.rest) (hg : 0 < g.openBrackets) (hb : before ≠ some lambdaWord) :
    ∃ region text, WritesItem f f' region text ∧ Restates modules region text := by
  obtain ⟨region, text, hitem, htext⟩ := renderOrCopy_ok h (by
    intro text rest htakes
    obtain ⟨tree, hread, -⟩ := Reader.takes_map.1 htakes
    exact passes_of_read hread (hruns.known hg) hb) hruns hg
  refine ⟨region, text, hitem, htext.imp_left fun htakes ↦ ?_⟩
  obtain ⟨tree, hread, rfl⟩ := Reader.takes_map.1 htakes
  exact ⟨tree, f'.rest, hitem.rest_eq ▸ hread, rfl⟩

/-- The text of a default value: its tokens read as a type or as a collection, which is rendered with all
modules, or they are copied. -/
def RestatesValue (region : List Token) (text : Text) : Prop :=
  (∃ c rest, Collection.read.Takes (region ++ rest) c rest ∧ text = Collection.render [] c) ∨
    Restates [] region text

theorem writeDefault_ok (h : f.writeDefault = .ok f') (hruns : Runs g before f.rest)
    (hg : 0 < g.openBrackets) (hb : before ≠ some lambdaWord) :
    ∃ region text, WritesItem f f' region text ∧ RestatesValue region text := by
  unfold Filling.writeDefault at h
  split at h
  · exact absurd h (by simp)
  rename_i t more hrest
  split at h
  · rename_i hopener
    obtain ⟨region, text, hitem, htext⟩ := renderOrCopy_ok h (by
      intro text rest htakes
      obtain ⟨c, hread, -⟩ := Reader.takes_map.1 htakes
      rw [hrest] at hread hruns ⊢
      exact passes_of_collection hread hopener (hruns.known hg)) hruns hg
    refine ⟨region, text, hitem, htext.imp (fun htakes ↦ ?_) .inr⟩
    obtain ⟨c, hread, rfl⟩ := Reader.takes_map.1 htakes
    exact ⟨c, f'.rest, hitem.rest_eq ▸ hread, rfl⟩
  · obtain ⟨region, text, hitem, htext⟩ := writeAnnotation_ok h hruns hg hb
    exact ⟨region, text, hitem, .inr htext⟩

end HeaderHints.Header
