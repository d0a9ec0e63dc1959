import HeaderHints.Proofs.HeaderTokens
import HeaderHints.Proofs.Readers

/-!
# Steps of a draft

What taking in a lexeme does to the tokens of a draft and to what it knows. Whatever the lexeme is, the draft
writes step by step (`Draft.Wrote`), or it writes the closing colon and is complete (`Draft.Turn`).

The layout before a lexeme comes from the source, so it is a hypothesis here what it looks like
(`Draft.Prepared`). The one thing that a draft has to remember about its own tokens is that the body of a lambda
is read right after its word (`Draft.Poised`).
-/

namespace HeaderHints.Header

open Lexeme

namespace Draft

/-- What a draft knows. -/
def stage (d : Draft) : Stage :=
  ⟨d.sawDef, d.inArguments, d.openBrackets, d.annotationDepth, d.valueDepth⟩

/-- What a draft knows, with its tokens. -/
def page (d : Draft) : Stage × List Token :=
  (d.stage, d.written)

variable {Q : Text → Prop} {d d' : Draft}

/-- The draft `d'` comes out of `d` by writing. -/
def Wrote (Q : Text → Prop) (d d' : Draft) : Prop :=
  Written Q d.page d'.page

theorem Wrote.refl : Wrote Q d d :=
  Relation.ReflTransGen.refl

theorem Wrote.trans {d'' : Draft} (h : Wrote Q d d') (h' : Wrote Q d' d'') : Wrote Q d d'' :=
  Relation.ReflTransGen.trans h h'

/-- Only the tokens and what is known count. -/
theorem Wrote.congr {d'' : Draft} (h : Wrote Q d d') (hw : d''.written = d'.written)
    (hs : d''.stage = d'.stage) : Wrote Q d d'' := by
  have hpage : d''.page = d'.page := Prod.ext hs hw
  rw [Wrote, hpage]
  exact h

theorem Wrote.inArguments (h : Wrote Q d d') (hd : d.inArguments = true) : d'.inArguments = true :=
  h.invariant (I := fun a ↦ a.1.inArguments = true) (fun ha hstep ↦ hstep.inArguments ha) hd

theorem Wrote.reach {stop : Position} (h : Wrote Q d d') : Wrote Q d (d'.reach stop) :=
  h.congr rfl rfl

/-- Nothing but the tokens changes. -/
def Rewritten (d d' : Draft) : Prop :=
  ∃ written, d' = { d with written := written }

theorem Rewritten.mode (h : Rewritten d d') : d'.mode = d.mode := by
  obtain ⟨_, rfl⟩ := h
  rfl

theorem Rewritten.inArguments (h : Rewritten d d') : d'.inArguments = d.inArguments := by
  obtain ⟨_, rfl⟩ := h
  rfl

/-! ### Writing tokens -/

theorem wrote_token {t : Token} (h : Placed d.stage d.written t) (hw : d'.written = t :: d.written)
    (hs : d'.stage = d.stage.after t) : Wrote Q d d' := by
  rw [Wrote, page, page, hw, hs]
  exact .single (.token h)

/-- A token that is neither a bracket nor a comma changes nothing of what is known. -/
theorem wrote_push {kind : Token.Kind} {text : Text} (h : Placed d.stage d.written (.of kind text))
    (ha : d.stage.after (.of kind text) = d.stage) : Wrote Q d (d.push kind text) :=
  wrote_token h rfl ha.symm

theorem worded_of_ne_nil {kind : Token.Kind} {text : Text} (h : text ≠ []) : Worded (.of kind text) :=
  ⟨rfl, fun _ ↦ h⟩

theorem worded_of_wordy {kind : Token.Kind} {text : Text} (h : Wordy text) : Worded (.of kind text) := by
  obtain ⟨c, r, rfl, -⟩ := h
  exact worded_of_ne_nil (List.cons_ne_nil c r)

/-- A piece of a dotted name or of a default value. -/
theorem wrote_piece {kind : Token.Kind} {text : Text} (hk : kind = .dottedName ∨ kind = .argumentDefault)
    (ht : Wordy text) : Wrote Q d (d.push kind text) := by
  rcases hk with rfl | rfl <;>
    exact wrote_push ⟨ht, trivial, trivial, by simp [Token.of], worded_of_wordy ht⟩
      (after_of_growing (by simp [Growing, Token.of]))

/-- A word before the argument list. -/
theorem wrote_early {kind : Token.Kind} {text : Text} (hk : kind = .functionName ∨ kind = .keyword)
    (hargs : d.inArguments = false) (ht : Wordy text) : Wrote Q d (d.push kind text) := by
  rcases hk with rfl | rfl <;>
    exact wrote_push ⟨ht, trivial, hargs, by simp [Token.of], worded_of_wordy ht⟩
      (by simp [Stage.after, Token.isOpener, Token.isCloser, Token.of])

/-- What layout may look like: it has the property `Q`, and before the argument list it cannot be mistaken for
punctuation. -/
def Slack (Q : Text → Prop) (d : Draft) (text : Text) : Prop :=
  Q text ∧ (d.inArguments = false → Loose text)

theorem wrote_pushLayout {text : Text} (ht : d.Slack Q text) : Wrote Q d (d.pushLayout text) := by
  unfold pushLayout
  split
  · exact .refl
  · rename_i hne
    exact .single (.layout (by simpa using hne) ht.1 ht.2)

/-- The last token may grow, as long as its kind is one of those that grow. -/
theorem wrote_amend {change : Text → Text} {t : Token} {ts : List Token} (hd : d.written = t :: ts)
    (hk : Growing t.kind) (hc : Wordy t.text → Wordy (change t.text)) : Wrote Q d (d.amend change) := by
  have hw : (d.amend change).written = .of t.kind (change t.text) :: ts := by
    rw [amend, hd]
    rfl
  rw [Wrote, page, page, hw, hd]
  exact .single (.grow hk hc)

theorem wrote_tighten : Wrote Q d d.tighten := by
  cases hd : d.written with
  | nil => exact Wrote.refl.congr (by simp [tighten, hd]) rfl
  | cons t ts =>
    by_cases hk : t.kind = .separator
    · have hw : d.tighten.written = { t with kind := .endSeparator } :: ts := by simp [tighten, hd, hk]
      rw [Wrote, page, page, hw, hd]
      exact .single (.tighten hk)
    · exact Wrote.refl.congr (by simp [tighten, hd, hk]) rfl

/-! ### Names and values -/

theorem wordy_append {t u : Text} (h : Wordy t) : Wordy (t ++ u) := by
  obtain ⟨c, r, rfl, hc⟩ := h
  exact ⟨c, r ++ u, rfl, hc⟩

theorem wordy_of_isNameStart {c : Char} {r : Text} (h : isNameStart c = true) :
    Wordy (c :: r) := by
  refine ⟨c, r, rfl, fun hc ↦ ?_⟩
  have : ∀ c ∈ reserved, isNameStart c = false := by decide
  rw [this c hc] at h
  exact absurd h (by simp)

/-- The kinds that stand below dotted names. -/
theorem isA_dottedName_iff (t : Token) :
    t.isA .dottedName = true ↔ t.kind = .dottedName ∨ t.kind = .argumentDefault := by
  unfold Token.isA
  cases t.kind <;> decide

theorem wrote_dotted {kind : Token.Kind} {text : Text}
    (hk : kind = .functionName ∧ d.inArguments = false ∨ kind = .dottedName) (ht : Wordy text) :
    Wrote Q d (d.dotted kind text) := by
  unfold dotted
  dsimp only
  split
  · rename_i hcont
    obtain ⟨t, hhead, hlast⟩ := (Option.any_eq_true _ _).1 hcont
    obtain ⟨ts, hts⟩ := List.head?_eq_some_iff.1 hhead
    refine wrote_amend hts ?_ wordy_append
    simp only [Bool.and_eq_true, Bool.or_eq_true, decide_eq_true_eq, isA_dottedName_iff] at hlast
    unfold Growing
    rcases hlast.1 with hkind | hkind
    · rcases hk with ⟨rfl, -⟩ | rfl <;> simp [hkind]
    · tauto
  · rcases hk with ⟨rfl, hargs⟩ | rfl
    · exact wrote_early (.inl rfl) hargs ht
    · exact wrote_piece (.inl rfl) ht

/-- The last token, if it is of the kind that is asked for. -/
theorem exists_of_lastKind? {kind : Token.Kind} (h : d.lastKind? = some kind) :
    ∃ t ts, d.written = t :: ts ∧ t.kind = kind := by
  obtain ⟨t, hhead, hk⟩ := Option.map_eq_some_iff.1 h
  obtain ⟨ts, hts⟩ := List.head?_eq_some_iff.1 hhead
  exact ⟨t, ts, hts, hk⟩

/-- A piece of a default value that grows. -/
theorem wrote_amend_default {change : Text → Text} (hlast : d.lastKind? = some .argumentDefault)
    (hc : ∀ {t}, Wordy t → Wordy (change t)) : Wrote Q d (d.amend change) := by
  obtain ⟨t, ts, hts, hk⟩ := exists_of_lastKind? hlast
  exact wrote_amend hts (.inr (.inl hk)) hc

theorem wrote_operand {text : Text} (ht : Wordy text) : Wrote Q d (d.operand text) := by
  unfold operand
  split
  · rename_i hlast
    refine wrote_amend_default hlast fun {t} hw ↦ ?_
    rw [List.append_assoc]
    exact wordy_append hw
  · exact wrote_piece (.inr rfl) ht

/-- Dropping blanks at the end keeps the first character of a text that does not get empty. -/
theorem wordy_trimEnd {t : Text} (h : Wordy t) (hne : Text.trimEnd t ≠ []) :
    Wordy (Text.trimEnd t) := by
  obtain ⟨c, r, rfl, hc⟩ := h
  have hpre : Text.trimEnd (c :: r) <+: c :: r := by
    rw [Text.trimEnd, ← List.reverse_suffix, List.reverse_reverse]
    exact List.dropWhile_suffix _
  obtain ⟨u, hu⟩ := hpre
  cases htrim : Text.trimEnd (c :: r) with
  | nil => exact absurd htrim hne
  | cons e v =>
    rw [htrim] at hu
    obtain ⟨rfl, -⟩ := List.cons_eq_cons.1 hu
    exact ⟨e, v, rfl, hc⟩

theorem wrote_operator {op : Text} (hop : d.operator op = .ok d') : Wrote Q d d' := by
  unfold operator at hop
  split at hop
  · rename_i hlast
    obtain rfl := Except.ok.inj hop
    refine wrote_amend_default hlast fun {t} hw ↦ ?_
    dsimp only
    split
    · rename_i hcond
      have hne : Text.trimEnd t ≠ [] := by
        intro hnil
        simp [hnil, endsOperand] at hcond
      simp only [List.append_assoc]
      exact wordy_append (wordy_trimEnd hw hne)
    · exact wordy_append hw
  split at hop
  · obtain rfl := Except.ok.inj hop
    exact wrote_piece (.inr rfl) ⟨' ', _, rfl, by decide⟩
  split at hop
  · rename_i hunary
    obtain rfl := Except.ok.inj hop
    refine wrote_piece (.inr rfl) ?_
    have : ∀ op ∈ unaryOperators, op.head?.any (· ∉ reserved) = true := by decide
    have hhead := this op (by simpa using hunary)
    cases op with
    | nil => simp at hhead
    | cons c r => exact ⟨c, r, rfl, by simpa using hhead⟩
  · exact absurd hop (by simp)

/-! ### Layout -/

/-- The layout of a joined line end before the lexeme at `start`. -/
def joint (rows : List Text) (start : Position) (d : Draft) : Text :=
  match d.reached with
  | some last =>
    if !d.broken && last.row < start.row then Text.fromByte last.col (rows.getD last.row [])
    else []
  | none => []

/-- The part of a row before `start`. -/
def margin (rows : List Text) (start : Position) : Text :=
  Text.toByte start.col (rows.getD start.row [])

/-- The layout before the lexeme at `start` is there already, or is of the kind `Q`. -/
def LaidOut (Q : Text → Prop) (rows : List Text) (start : Position) (d : Draft) : Prop :=
  d.begunRow = some start.row ∨ (Q (d.joint rows start) ∧ Q (margin rows start))

theorem layout_eq (rows : List Text) (start : Position) (d : Draft) :
    d.layout rows start =
      if d.begunRow = some start.row then d
      else { (d.pushLayout (d.joint rows start)).pushLayout (margin rows start) with
        begunRow := some start.row, broken := false } :=
  rfl

/-- Layout changes the tokens, and what has to be known for layout. -/
theorem exists_layout_eq (rows : List Text) (start : Position) : ∃ written begunRow broken,
    d.layout rows start = { d with written := written, begunRow := begunRow, broken := broken } := by
  have hpush : ∀ (d : Draft) (text : Text), ∃ written, d.pushLayout text = { d with written := written } := by
    intro d text
    unfold pushLayout
    split
    · exact ⟨_, rfl⟩
    · exact ⟨_, rfl⟩
  rw [layout_eq]
  split
  · exact ⟨_, _, _, rfl⟩
  · obtain ⟨written, h⟩ := hpush d (d.joint rows start)
    obtain ⟨written', h'⟩ := hpush { d with written := written } (margin rows start)
    exact ⟨_, _, _, by rw [h, h']⟩

theorem layout_mode (rows : List Text) (start : Position) : (d.layout rows start).mode = d.mode := by
  obtain ⟨_, _, _, h⟩ := exists_layout_eq (d := d) rows start
  rw [h]

theorem layout_stage (rows : List Text) (start : Position) : (d.layout rows start).stage = d.stage := by
  obtain ⟨_, _, _, h⟩ := exists_layout_eq (d := d) rows start
  rw [h]
  rfl

theorem wrote_layout {rows : List Text} {start : Position} (hl : d.LaidOut (d.Slack Q) rows start) :
    Wrote Q d (d.layout rows start) := by
  rw [layout_eq]
  split
  · exact .refl
  · rename_i hrow
    obtain ⟨hjoint, hmargin⟩ := hl.resolve_left hrow
    have hslack : (d.pushLayout (d.joint rows start)).Slack Q (margin rows start) := by
      unfold Slack pushLayout
      split <;> exact hmargin
    exact ((wrote_pushLayout hjoint).trans (wrote_pushLayout hslack)).congr rfl rfl

/-- Texts that cannot be mistaken for punctuation are layout anywhere. -/
theorem slack_of_loose {text : Text} (hQ : ∀ {t}, Loose t → Q t) (h : Loose text) : d.Slack Q text :=
  ⟨hQ h, fun _ ↦ h⟩

theorem wrote_comment {rows : List Text} {x : Lexeme} (hQ : ∀ {t}, Loose t → Q t)
    (hl : d.LaidOut (d.Slack Q) rows x.start) (hx : ∃ w, x.text = '#' :: w) :
    Wrote Q d (d.comment rows x) := by
  obtain ⟨w, hw⟩ := hx
  have hcomment : ∀ {d : Draft} {gap : Text}, Wrote Q d (d.push .endSeparator (gap ++ x.text)) := by
    intro d gap
    have hloose : Loose (gap ++ x.text) := loose_of_mem (c := '#') (by simp [hw]) (by decide)
    exact .single (.layout (by simp [hw]) (hQ hloose) fun _ ↦ hloose)
  exact ((wrote_layout hl).trans (wrote_tighten.trans hcomment)).reach

theorem wrote_lineBreak {x : Lexeme} (hQ : ∀ {t}, Loose t → Q t)
    (hx : x.text ∈ [[], ['\n'], ['\r'], ['\r', '\n']]) : Wrote Q d (d.lineBreak x) := by
  have hloose : Loose x.text := by
    simp only [List.mem_cons, List.not_mem_nil, or_false] at hx
    rcases hx with hx | hx | hx | hx <;> rw [hx] <;> simp [Loose]
  exact (wrote_tighten.trans (wrote_pushLayout (slack_of_loose hQ hloose))).congr rfl rfl

/-! ### Lexemes of the header itself -/

/-- While the body of a lambda is read, its word is the last token, and the argument list has been opened. -/
def Poised (d : Draft) : Prop :=
  ∀ {start stop : Position} {depth : Nat} {colon : Bool}, d.mode = .lambda start stop depth colon →
    d.written.head? = some lambdaWord ∧ d.inArguments = true

theorem poised_of_mode (h : ∀ start stop depth colon, d.mode ≠ .lambda start stop depth colon) : d.Poised :=
  fun hm ↦ absurd hm (h _ _ _ _)

theorem poised_start : Poised {} :=
  poised_of_mode fun _ _ _ _ ↦ by simp

/-- The draft `d'` comes out of `d` by the bracket that opens the argument list: the first round one after `def`
outside brackets. -/
structure Opens (d d' : Draft) : Prop where
  closed : d.inArguments = false
  sawDef : d.sawDef = true
  outside : d.openBrackets = 0
  written : d'.written = .of .endSeparator ['('] :: d.written
  stage : d'.stage = d.stage.after (.of .endSeparator ['('])

/-- The draft `d'` comes out of `d` by writing up to the closing colon, and at most the rest of its row. -/
def Closes (Q : Text → Prop) (d d' : Draft) : Prop :=
  d'.isComplete = true ∧ ∃ (d₁ : Draft) (tail : List Token), Wrote Q d d₁ ∧ d₁.inArguments = true ∧
    d₁.openBrackets = 0 ∧ (tail = [] ∨ ∃ rest, rest ≠ [] ∧ tail = [.of .endSeparator rest]) ∧
    d'.written = tail ++ .of .endDefinition [':'] :: d₁.written

/-- **What a lexeme does to a draft**: the draft goes on, it opens the argument list, or it closes the header. -/
inductive Turn (Q : Text → Prop) (d d' : Draft) : Prop
  | on : Wrote Q d d' → d'.inArguments = d.inArguments → d'.isComplete = false → d'.Poised → Turn Q d d'
  | opens {d₁ : Draft} : Wrote Q d d₁ → Opens d₁ d' → d'.isComplete = false → d'.Poised → Turn Q d d'
  | close : d.inArguments = true → Closes Q d d' → Turn Q d d'

theorem Opens.inArguments (h : Opens d d') : d'.inArguments = true :=
  calc d'.inArguments = (d.inArguments || (true && d.sawDef && decide (d.openBrackets = 0))) :=
        congrArg Stage.inArguments h.stage
    _ = true := by rw [h.sawDef, h.outside]; simp

theorem Opens.wrote (h : Opens d d') : Wrote Q d d' := by
  refine wrote_token (t := .of .endSeparator ['('])
    ⟨trivial, ?_, trivial, by simp [Token.of], worded_of_ne_nil (by simp)⟩ h.written h.stage
  simp [Legal, Token.of, Token.text]

theorem Closes.head {d'' : Draft} (h : Wrote Q d d') (h' : Closes Q d' d'') : Closes Q d d'' := by
  obtain ⟨hcomplete, d₁, tail, hwrote, hclose⟩ := h'
  exact ⟨hcomplete, d₁, tail, h.trans hwrote, hclose⟩

theorem Turn.head {d'' : Draft} (h : Wrote Q d d') (hargs : d'.inArguments = d.inArguments)
    (h' : Turn Q d' d'') : Turn Q d d'' := by
  cases h' with
  | on hwrote hargs' hmode hpoised => exact .on (h.trans hwrote) (hargs'.trans hargs) hmode hpoised
  | opens hwrote hopens hmode hpoised => exact .opens (h.trans hwrote) hopens hmode hpoised
  | close hin hcloses => exact .close (hargs.symm.trans hin) (hcloses.head h)

theorem Turn.poised (h : Turn Q d d') : d'.Poised := by
  cases h with
  | on _ _ _ hpoised | opens _ _ _ hpoised => exact hpoised
  | close _ hcloses =>
    refine poised_of_mode fun _ _ _ _ hm ↦ ?_
    have hcomplete := hcloses.1
    rw [isComplete, hm] at hcomplete
    exact absurd hcomplete (by simp)

/-- The draft `d'` comes out of `d` by writing, or by closing the header. -/
def Arrives (Q : Text → Prop) (d d' : Draft) : Prop :=
  (d'.isComplete = false ∧ Wrote Q d d') ∨ Closes Q d d'

theorem Arrives.trans {d'' : Draft} (h : Arrives Q d d') (hd : d'.isComplete = false) (h' : Arrives Q d' d'') :
    Arrives Q d d'' := by
  obtain ⟨-, hwrote⟩ := h.resolve_right fun hcloses ↦ absurd (hd.symm.trans hcloses.1) (by simp)
  exact h'.imp (fun h' ↦ ⟨h'.1, hwrote.trans h'.2⟩) fun hcloses ↦ hcloses.head hwrote

theorem Turn.arrives (h : Turn Q d d') : Arrives Q d d' := by
  cases h with
  | on hwrote _ hmode _ => exact .inl ⟨hmode, hwrote⟩
  | opens hwrote hopens hmode _ => exact .inl ⟨hmode, hwrote.trans hopens.wrote⟩
  | close _ hcloses => exact .inr hcloses

/-- The argument list stays open. -/
theorem Turn.inArguments (h : Turn Q d d') (hd : d.inArguments = true) :
    d'.inArguments = true ∨ d'.isComplete = true :=
  h.arrives.imp (fun h ↦ h.2.inArguments hd) And.left

theorem turn_plain (h : Wrote Q d d') (hm : d'.mode = .plain) (hargs : d'.inArguments = d.inArguments) :
    Turn Q d d' :=
  .on h hargs (by simp [isComplete, hm]) (poised_of_mode (by simp [hm]))

/-- A lexeme that changes nothing but the tokens, and is noted. -/
theorem turn_rewritten {stop : Position} (h : Wrote Q d d') (hr : Rewritten d d') (hm : d.mode = .plain) :
    Turn Q d (d'.reach stop) :=
  turn_plain h.reach (hr.mode.trans hm) hr.inArguments

theorem rewritten_dotted (kind : Token.Kind) (text : Text) : Rewritten d (d.dotted kind text) := by
  unfold dotted
  dsimp only
  split <;> exact ⟨_, rfl⟩

theorem dotted_mode (kind : Token.Kind) (text : Text) : (d.dotted kind text).mode = d.mode :=
  (rewritten_dotted kind text).mode

theorem rewritten_operand (text : Text) : Rewritten d (d.operand text) := by
  unfold operand
  split <;> exact ⟨_, rfl⟩

theorem operand_mode (text : Text) : (d.operand text).mode = d.mode :=
  (rewritten_operand text).mode

theorem turn_name {x : Lexeme} (hm : d.mode = .plain) (hx : Named x.text) (hname : d.name x = .ok d') :
    Turn Q d d' := by
  have hw : Wordy x.text := by
    obtain ⟨c, w, hcw, hc, -⟩ := hx
    rw [hcw]
    exact wordy_of_isNameStart hc
  unfold name at hname
  split at hname
  · -- before the argument list
    rename_i hargs
    rw [Bool.not_eq_true'] at hargs
    split at hname
    · obtain rfl := Except.ok.inj hname
      exact turn_rewritten (wrote_early (.inr rfl) hargs hw) ⟨_, rfl⟩ hm
    split at hname
    · split at hname
      · exact absurd hname (by simp)
      · rename_i hdef
        obtain rfl := Except.ok.inj hname
        have hplaced : Placed d.stage d.written (.of .definition x.text) :=
          ⟨hw, trivial, ⟨by simpa [stage] using hdef, hargs⟩, by simp [Token.of], worded_of_wordy hw⟩
        refine turn_plain (Wrote.reach (wrote_token hplaced rfl ?_)) hm rfl
        simp [stage, push, Stage.after, Token.isOpener, Token.isCloser, Token.of]
    · obtain rfl := Except.ok.inj hname
      exact turn_rewritten (wrote_dotted (.inl ⟨rfl, hargs⟩) hw) (rewritten_dotted _ _) hm
  rename_i hargs
  replace hargs : d.inArguments = true := by simpa using hargs
  split at hname
  · obtain rfl := Except.ok.inj hname
    exact turn_rewritten (wrote_dotted (.inr rfl) hw) (rewritten_dotted _ _) hm
  rename_i hann
  split at hname
  · split at hname
    · rename_i hlambda
      obtain rfl := Except.ok.inj hname
      refine .on ((wrote_piece (.inr rfl) hw).congr rfl rfl) rfl rfl fun _ ↦ ⟨?_, hargs⟩
      simp [push, lambdaWord, hlambda]
    · obtain rfl := Except.ok.inj hname
      exact turn_rewritten (wrote_operand hw) (rewritten_operand _) hm
  · rename_i hval
    obtain rfl := Except.ok.inj hname
    have hlegal : Legal d.stage (.of .argumentName x.text) :=
      ⟨hargs, by simpa [stage] using hann, by simpa [stage] using hval⟩
    have hplaced : Placed d.stage d.written (.of .argumentName x.text) :=
      ⟨hx, hlegal, trivial, by simp [Token.of], worded_of_wordy hw⟩
    refine turn_rewritten (wrote_push hplaced ?_) ⟨_, rfl⟩ hm
    simp [Stage.after, Token.isOpener, Token.isCloser, Token.of]

theorem wrote_openBracket {text : Text} (ht : Token.opensBracket text = true) :
    Wrote Q d (d.openBracket text) := by
  have hopener : (Token.of .endSeparator text).isOpener = true := by
    simpa [Token.isOpener, Token.of, Token.text] using ht
  have hne : text ≠ [] := by
    rintro rfl
    exact absurd ht (by decide)
  have hlegal : Legal d.stage (.of .endSeparator text) := by
    intro hmark
    rcases hmark with hmark | hmark <;> simp only [Token.of, Token.text, Option.getD_some] at hmark
      <;> simp [hmark, Token.opensBracket] at ht
  refine wrote_token (t := .of .endSeparator text)
    ⟨trivial, hlegal, trivial, by simp [Token.of], worded_of_ne_nil hne⟩ rfl ?_
  rw [Stage.after, if_pos hopener]
  rfl

theorem wrote_closeBracket {text : Text} (ht : Token.closesBracket text = true) :
    Wrote Q d (d.closeBracket text) := by
  have hcloser : (Token.of .endSeparator text).isCloser = true := by
    simpa [Token.isCloser, Token.of, Token.text] using ht
  have hopener : (Token.of .endSeparator text).isOpener = false := by
    simp only [Token.closesBracket, Bool.or_eq_true, decide_eq_true_eq] at ht
    rcases ht with (rfl | rfl) | rfl <;> decide
  have hne : text ≠ [] := by
    rintro rfl
    exact absurd ht (by decide)
  have hlegal : Legal d.stage (.of .endSeparator text) := by
    intro hmark
    rcases hmark with hmark | hmark <;> simp only [Token.of, Token.text, Option.getD_some] at hmark
      <;> simp [hmark, Token.closesBracket] at ht
  refine wrote_token (t := .of .endSeparator text)
    ⟨trivial, hlegal, trivial, by simp [Token.of], worded_of_ne_nil hne⟩ rfl ?_
  rw [Stage.after, if_neg (by simp [hopener]), if_pos hcloser]
  rfl

theorem wrote_comma : Wrote Q d (d.comma [',']) := by
  refine wrote_token (t := .of .separator [','])
    ⟨.inl rfl, trivial, trivial, by simp [Token.of], worded_of_ne_nil (by simp)⟩ rfl ?_
  simp [Stage.after, Token.isOpener, Token.isCloser, Token.of, Token.text]
  rfl

theorem wrote_equals : Wrote Q d (d.equals ['=']) := by
  have hw : Wordy ['='] := ⟨'=', [], rfl, by decide⟩
  unfold equals
  split
  · split
    · rename_i hlast
      exact wrote_amend_default hlast wordy_append
    · exact wrote_piece (.inr rfl) hw
  · rename_i hval
    have hlegal : Legal d.stage (.of .defaultDef ['=']) := show d.valueDepth ≤ 1 by omega
    refine wrote_token (t := .of .defaultDef ['='])
      ⟨rfl, hlegal, trivial, by simp [Token.of], worded_of_wordy hw⟩ rfl ?_
    simp [stage, push, Stage.after, Token.isOpener, Token.isCloser, Token.of]

theorem wrote_dot (hdot : d.dot ['.'] = .ok d') : Wrote Q d d' := by
  have hw : Wordy ['.'] := ⟨'.', [], rfl, by decide⟩
  unfold dot at hdot
  split at hdot
  · rename_i hlast
    obtain rfl := Except.ok.inj hdot
    simp only [List.contains_eq_mem, List.mem_cons, List.not_mem_nil, or_false,
      decide_eq_true_eq] at hlast
    obtain ⟨t, ts, hts, hk⟩ : ∃ t ts, d.written = t :: ts ∧ Growing t.kind := by
      unfold Growing
      rcases hlast with hlast | hlast | hlast <;>
        obtain ⟨t, ts, hts, hk⟩ := exists_of_lastKind? hlast <;> exact ⟨t, ts, hts, by simp [hk]⟩
    exact wrote_amend hts hk wordy_append
  split at hdot
  · obtain rfl := Except.ok.inj hdot
    exact wrote_piece (.inr rfl) hw
  · exact absurd hdot (by simp)

/-- The closing colon completes the header. -/
theorem turn_close {rows : List Text} {x : Lexeme} (hx : x.text = [':']) (hargs : d.inArguments = true)
    (hopen : d.openBrackets = 0) : Turn Q d (d.close rows x) := by
  unfold close
  dsimp only
  generalize (List.dropWhile _ _).reverse = tail
  rw [hx]
  split
  · exact .close hargs ⟨rfl, d, [], .refl, hargs, hopen, .inl rfl, rfl⟩
  · rename_i hblank
    exact .close hargs ⟨rfl, d, _, .refl, hargs, hopen, .inr ⟨tail, fun hnil ↦ hblank (hnil ▸ rfl), rfl⟩, rfl⟩

theorem rewritten_dot {text : Text} (h : d.dot text = .ok d') : Rewritten d d' := by
  unfold dot at h
  split at h
  · exact Except.ok.inj h ▸ ⟨_, rfl⟩
  split at h
  · exact Except.ok.inj h ▸ ⟨_, rfl⟩
  · exact absurd h (by simp)

theorem rewritten_operator {op : Text} (h : d.operator op = .ok d') : Rewritten d d' := by
  unfold operator at h
  split at h
  · exact Except.ok.inj h ▸ ⟨_, rfl⟩
  split at h
  · exact Except.ok.inj h ▸ ⟨_, rfl⟩
  split at h
  · exact Except.ok.inj h ▸ ⟨_, rfl⟩
  · exact absurd h (by simp)

/-- A mark that is written as it stands, outside default values or before `def`. -/
theorem wrote_mark {text : Text} (ht : text ∈ [['*'], ['*', '*'], ['/']] ∧ d.valueDepth = 0 ∨ text = ['@']) :
    Wrote Q d (d.push .endSeparator text) := by
  have hne : text ≠ [] := by
    rintro rfl
    exact absurd ht (by simp)
  have hlegal : Legal d.stage (.of .endSeparator text) := by
    intro hmark
    rcases ht with ⟨-, hval⟩ | rfl
    · exact hval
    · simp [Token.of, Token.text] at hmark
  refine wrote_push ⟨trivial, hlegal, trivial, by simp [Token.of], worded_of_ne_nil hne⟩ ?_
  simp only [List.mem_cons, List.not_mem_nil, or_false] at ht
  rcases ht with ⟨rfl | rfl | rfl, -⟩ | rfl <;>
    simp [Stage.after, Token.isOpener, Token.isCloser, Token.opensBracket, Token.closesBracket,
      Token.of, Token.text]

/-- What an operator that does not close the header does to a draft. -/
inductive OpStep (x : Lexeme) (d : Draft) : Draft → Prop
  | opening : Token.opensBracket x.text = true → OpStep x d (d.openBracket x.text)
  | closing : Token.closesBracket x.text = true → OpStep x d (d.closeBracket x.text)
  | colon : x.text = [':'] → 0 < d.valueDepth → OpStep x d (d.push .colon [':'])
  | typeDef : x.text = [':'] → d.valueDepth = 0 →
      OpStep x d { d.push .typeDef [':'] with annotationDepth := 1 }
  | comma : x.text = [','] → OpStep x d (d.comma [','])
  | equals : x.text = ['='] → OpStep x d (d.equals ['='])
  | arrow : x.text = ['-', '>'] →
      OpStep x d { d.push .returnTypeDef ['-', '>'] with annotationDepth := 1 }
  | dot {d' : Draft} : x.text = ['.'] → d.dot ['.'] = .ok d' → OpStep x d d'
  | dots : x.text = ['.', '.', '.'] → OpStep x d (d.push .dottedName ['.', '.', '.'])
  | mark : x.text ∈ [['*'], ['*', '*'], ['/']] ∧ d.valueDepth = 0 ∨ x.text = ['@'] →
      OpStep x d (d.push .endSeparator x.text)
  | bar : x.text = ['|'] → OpStep x d (d.push .separator ['|'])
  | operator {d' : Draft} : d.operator x.text = .ok d' → OpStep x d d'

/-- **What an operator does**: it closes the header, or does one of the steps above. -/
theorem op_cases {rows : List Text} {x : Lexeme} (h : d.op rows x = .ok d') :
    (x.text = [':'] ∧ d.inArguments = true ∧ d.openBrackets = 0 ∧ d' = d.close rows x) ∨
      ∃ d'', OpStep x d d'' ∧ d' = d''.reach x.stop := by
  unfold op at h
  by_cases hclose : (x.text = [':'] && d.inArguments && d.openBrackets = 0) = true
  · rw [if_pos hclose] at h
    simp only [Bool.and_eq_true, decide_eq_true_eq] at hclose
    exact .inl ⟨hclose.1.1, hclose.1.2, hclose.2, (Except.ok.inj h).symm⟩
  · rw [if_neg hclose] at h
    obtain ⟨d'', hd'', rfl⟩ := map_eq_ok.1 h
    refine .inr ⟨d'', ?_, rfl⟩
    clear h
    by_cases hb : Token.opensBracket x.text = true
    · rw [if_pos hb] at hd''
      exact Except.ok.inj hd'' ▸ .opening hb
    rw [if_neg hb] at hd''
    by_cases hb : Token.closesBracket x.text = true
    · rw [if_pos hb] at hd''
      exact Except.ok.inj hd'' ▸ .closing hb
    rw [if_neg hb] at hd''
    by_cases hx : x.text = [':']
    · rw [if_pos hx, hx] at hd''
      by_cases hval : 0 < d.valueDepth
      · rw [if_pos hval] at hd''
        exact Except.ok.inj hd'' ▸ .colon hx hval
      · rw [if_neg hval] at hd''
        exact Except.ok.inj hd'' ▸ .typeDef hx (by omega)
    rw [if_neg hx] at hd''
    by_cases hx : x.text = [',']
    · rw [if_pos hx, hx] at hd''
      exact Except.ok.inj hd'' ▸ .comma hx
    rw [if_neg hx] at hd''
    by_cases hx : x.text = ['=']
    · rw [if_pos hx, hx] at hd''
      exact Except.ok.inj hd'' ▸ .equals hx
    rw [if_neg hx] at hd''
    by_cases hx : x.text = ['-', '>']
    · rw [if_pos hx, hx] at hd''
      exact Except.ok.inj hd'' ▸ .arrow hx
    rw [if_neg hx] at hd''
    by_cases hx : x.text = ['.']
    · rw [if_pos hx, hx] at hd''
      exact .dot hx hd''
    rw [if_neg hx] at hd''
    by_cases hx : x.text = ['.', '.', '.']
    · rw [if_pos hx, hx] at hd''
      exact Except.ok.inj hd'' ▸ .dots hx
    rw [if_neg hx] at hd''
    by_cases hmark : (d.valueDepth = 0 && [['*'], ['*', '*'], ['/']].contains x.text) = true
    · rw [if_pos hmark] at hd''
      simp only [Bool.and_eq_true, decide_eq_true_eq, List.contains_iff_mem] at hmark
      exact Except.ok.inj hd'' ▸ .mark (.inl ⟨hmark.2, hmark.1⟩)
    rw [if_neg hmark] at hd''
    by_cases hat : (x.text = ['@'] && !d.sawDef) = true
    · rw [if_pos hat] at hd''
      simp only [Bool.and_eq_true, decide_eq_true_eq] at hat
      exact Except.ok.inj hd'' ▸ .mark (.inr hat.1)
    rw [if_neg hat] at hd''
    by_cases hbar : (x.text = ['|'] && d.valueDepth = 0) = true
    · simp only [Bool.and_eq_true, decide_eq_true_eq] at hbar
      rw [if_pos (by simp [hbar]), hbar.1] at hd''
      exact Except.ok.inj hd'' ▸ .bar hbar.1
    rw [if_neg hbar] at hd''
    by_cases hop : (binaryOperators.contains x.text || unaryOperators.contains x.text) = true
    · rw [if_pos hop] at hd''
      exact .operator hd''
    · rw [if_neg hop] at hd''
      exact absurd hd'' (by simp)

/-- An operator opens the argument list, or leaves it as it is. -/
theorem OpStep.arguments {x : Lexeme} (h : OpStep x d d') :
    d'.mode = d.mode ∧ (d'.inArguments = d.inArguments ∨ Opens d d') := by
  cases h with
  | opening hb =>
    refine ⟨rfl, ?_⟩
    by_cases hopens : d.inArguments = false ∧ x.text = ['('] ∧ d.sawDef = true ∧ d.openBrackets = 0
    · obtain ⟨hclosed, htext, hdef, houtside⟩ := hopens
      refine .inr ⟨hclosed, hdef, houtside, by rw [← htext]; rfl, ?_⟩
      rw [htext]
      rfl
    · left
      show (d.inArguments || (decide (x.text = ['(']) && d.sawDef && decide (d.openBrackets = 0))) = d.inArguments
      cases hargs : d.inArguments with
      | true => rfl
      | false => simpa [hargs] using hopens
  | equals _ =>
    unfold Draft.equals
    split
    · split <;> exact ⟨rfl, .inl rfl⟩
    · exact ⟨rfl, .inl rfl⟩
  | dot _ hd => exact ⟨(rewritten_dot hd).mode, .inl (rewritten_dot hd).inArguments⟩
  | operator hd => exact ⟨(rewritten_operator hd).mode, .inl (rewritten_operator hd).inArguments⟩
  | _ => exact ⟨rfl, .inl rfl⟩

theorem OpStep.mode_eq {x : Lexeme} (h : OpStep x d d') : d'.mode = d.mode :=
  h.arguments.1

theorem OpStep.wrote {x : Lexeme} (h : OpStep x d d') : Wrote Q d d' := by
  cases h with
  | opening hb => exact wrote_openBracket hb
  | closing hb => exact wrote_closeBracket hb
  | colon _ _ =>
    refine wrote_push ⟨rfl, trivial, trivial, by simp [Token.of], worded_of_ne_nil (by simp)⟩ ?_
    simp [Stage.after, Token.isOpener, Token.isCloser, Token.of]
  | typeDef _ hval =>
    refine wrote_token (t := .of .typeDef [':'])
      ⟨rfl, hval, trivial, by simp [Token.of], worded_of_ne_nil (by simp)⟩ rfl ?_
    simp [stage, push, Stage.after, Token.isOpener, Token.isCloser, Token.of]
  | comma _ => exact wrote_comma
  | equals _ => exact wrote_equals
  | arrow _ =>
    refine wrote_token (t := .of .returnTypeDef ['-', '>'])
      ⟨rfl, trivial, trivial, by simp [Token.of], worded_of_ne_nil (by simp)⟩ rfl ?_
    simp [stage, push, Stage.after, Token.isOpener, Token.isCloser, Token.of]
  | dot _ hd => exact wrote_dot hd
  | dots _ => exact wrote_piece (.inl rfl) ⟨'.', _, rfl, by decide⟩
  | mark hx => exact wrote_mark hx
  | bar _ =>
    refine wrote_push ⟨.inr rfl, trivial, trivial, by simp [Token.of], worded_of_ne_nil (by simp)⟩ ?_
    simp [Stage.after, Token.isOpener, Token.isCloser, Token.of, Token.text]
  | operator hd => exact wrote_operator hd

theorem turn_op {rows : List Text} {x : Lexeme} (hm : d.mode = .plain) (hop : d.op rows x = .ok d') :
    Turn Q d d' := by
  rcases op_cases hop with ⟨hx, hargs, hopen, rfl⟩ | ⟨d'', hstep, rfl⟩
  · exact turn_close hx hargs hopen
  · have hmode : d''.mode = .plain := hstep.mode_eq.trans hm
    rcases hstep.arguments.2 with hargs | hopens
    · exact turn_plain hstep.wrote.reach hmode hargs
    · refine .opens .refl ⟨hopens.closed, hopens.sawDef, hopens.outside, hopens.written, hopens.stage⟩ ?_
        (poised_of_mode fun _ _ _ _ hm' ↦ absurd (hmode.symm.trans hm') (by simp))
      show d''.isComplete = false
      simp [isComplete, hmode]

theorem close_mode (rows : List Text) (x : Lexeme) : (d.close rows x).mode = .complete := by
  unfold close
  dsimp only
  split <;> rfl

theorem lineBreak_eq (x : Lexeme) :
    (d.lineBreak x).mode = d.mode ∧ (d.lineBreak x).inArguments = d.inArguments := by
  unfold lineBreak pushLayout
  split <;> exact ⟨rfl, rfl⟩

theorem lineBreak_mode (x : Lexeme) : (d.lineBreak x).mode = d.mode :=
  (lineBreak_eq x).1

theorem wordy_of_fits {x : Lexeme} (hx : x.Fits) (ht : x.tag = .number ∨ x.tag = .string) :
    Wordy x.text := by
  have hdigit : ∀ c ∈ reserved, c.isDigit = false := by decide
  unfold Fits at hx
  rcases ht with ht | ht <;> rw [ht] at hx <;> obtain ⟨⟨c, w, hcw, hc⟩, -⟩ := hx <;> rw [hcw]
  · refine ⟨c, w, rfl, fun hmem ↦ ?_⟩
    rcases hc with hc | rfl
    · rw [hdigit c hmem] at hc
      exact absurd hc (by simp)
    · exact absurd hmem (by decide)
  · rcases hc with hc | rfl | rfl
    · exact wordy_of_isNameStart hc
    · exact ⟨_, w, rfl, by decide⟩
    · exact ⟨_, w, rfl, by decide⟩

/-- One lexeme of the header itself. -/
theorem turn_of_plain {rows : List Text} {x : Lexeme} (hQ : ∀ {t}, Loose t → Q t) (hm : d.mode = .plain)
    (hx : x.Fits)
    (hl : x.tag ≠ .newline → x.tag ≠ .nl → d.LaidOut (d.Slack Q) rows x.start)
    (hplain : d.plain rows x = .ok d') : Turn Q d d' := by
  have hmode : (d.layout rows x.start).mode = .plain := (layout_mode _ _).trans hm
  have hargs : (d.layout rows x.start).inArguments = d.inArguments :=
    congrArg Stage.inArguments (layout_stage rows x.start)
  have hlayout : x.tag ≠ .newline → x.tag ≠ .nl → Wrote Q d (d.layout rows x.start) :=
    fun h₁ h₂ ↦ wrote_layout (hl h₁ h₂)
  unfold plain at hplain
  split at hplain
  case h_1 | h_2 => exact Except.ok.inj hplain ▸ turn_plain .refl hm rfl
  case h_5 htag | h_6 htag =>
    refine Except.ok.inj hplain ▸ turn_plain (wrote_lineBreak hQ ?_) ((lineBreak_mode x).trans hm)
      (lineBreak_eq x).2
    simpa [Fits, htag] using hx
  case h_7 htag =>
    refine Except.ok.inj hplain ▸
      turn_plain (wrote_comment hQ (hl (by simp [htag]) (by simp [htag])) ?_) hmode hargs
    simpa [Fits, htag] using hx
  case h_8 htag =>
    refine .head (hlayout (by simp [htag]) (by simp [htag])) hargs (turn_name hmode ?_ hplain)
    simpa [Fits, htag] using hx
  case h_9 htag | h_10 htag =>
    refine Except.ok.inj hplain ▸ .head (hlayout (by simp [htag]) (by simp [htag])) hargs
      (turn_rewritten (wrote_operand (wordy_of_fits hx ?_)) (rewritten_operand _) hmode)
    simp [htag]
  case h_11 htag =>
    refine Except.ok.inj hplain ▸ .on ((hlayout (by simp [htag]) (by simp [htag])).congr rfl rfl)
      hargs rfl ?_
    exact poised_of_mode fun _ _ _ _ ↦ by simp
  case h_14 htag =>
    exact .head (hlayout (by simp [htag]) (by simp [htag])) hargs (turn_op hmode hplain)
  all_goals exact absurd hplain (by simp)

/-- What has to be known of the layout before the next lexeme, and of a string that it ends. -/
def Prepared (Q : Text → Prop) (rows : List Text) (x : Lexeme) (d : Draft) : Prop :=
  match d.mode with
  | .plain => x.tag ≠ .newline → x.tag ≠ .nl → d.LaidOut Q rows x.start
  | .lambda _ stop depth colon => endsLambda x depth colon = true → x.tag ≠ .newline →
      x.tag ≠ .nl → (d.reach stop).LaidOut Q rows x.start
  | .fstring start _ => x.tag = .fstringEnd → Wordy (slice rows start x.stop)
  | .complete => True

theorem LaidOut.slack {rows : List Text} {start : Position} (h : d'.LaidOut Q rows start)
    (hloose : d.inArguments = false → d'.LaidOut Loose rows start) : d'.LaidOut (d.Slack Q) rows start := by
  by_cases hrow : d'.begunRow = some start.row
  · exact .inl hrow
  · obtain ⟨hjoint, hmargin⟩ := h.resolve_left hrow
    exact .inr ⟨⟨hjoint, fun hargs ↦ ((hloose hargs).resolve_left hrow).1⟩,
      ⟨hmargin, fun hargs ↦ ((hloose hargs).resolve_left hrow).2⟩⟩

theorem Prepared.slack {rows : List Text} {x : Lexeme} (h : d.Prepared Q rows x)
    (hloose : d.inArguments = false → d.Prepared Loose rows x) : d.Prepared (d.Slack Q) rows x := by
  unfold Prepared at h hloose ⊢
  split
  · rename_i hm
    simp only [hm] at h hloose
    exact fun h₁ h₂ ↦ (h h₁ h₂).slack fun hargs ↦ hloose hargs h₁ h₂
  · rename_i hm
    simp only [hm] at h hloose
    exact fun hends h₁ h₂ ↦ (h hends h₁ h₂).slack fun hargs ↦ hloose hargs hends h₁ h₂
  · rename_i hm
    simp only [hm] at h
    exact h
  · trivial

/-- **What a lexeme does while the body of a lambda is read**: it ends the body and belongs to the
header, or it moves the end of the body. -/
theorem inLambda_cases {rows : List Text} {x : Lexeme} {start stop : Position} {depth : Nat}
    {colon : Bool} (h : d.inLambda rows x start stop depth colon = .ok d') :
    (endsLambda x depth colon = true ∧
      { (d.push .lambdaBody (Text.trim (slice rows start stop))).reach stop with
        mode := .plain }.plain rows x = .ok d') ∨
      ∃ depth' colon', d' = { d with mode := .lambda start x.stop depth' colon' } := by
  unfold inLambda at h
  split at h
  · exact absurd h (by simp)
  · exact absurd h (by simp)
  · split at h
    · rename_i hends
      exact .inl ⟨hends, h⟩
    · exact .inr ⟨_, _, (Except.ok.inj h).symm⟩

/-- **What a lexeme does while a string with replacement fields is read**: it ends the string, or
leaves all but the nesting as it is. -/
theorem inFString_cases {rows : List Text} {x : Lexeme} {start : Position} {nesting : Nat}
    (hm : d.mode = .fstring start nesting) (h : d.inFString rows x start nesting = .ok d') :
    (x.tag = .fstringEnd ∧
      d' = { (d.operand (slice rows start x.stop)).reach x.stop with mode := .plain }) ∨
      ∃ nesting', d' = { d with mode := .fstring start nesting' } := by
  unfold inFString at h
  split at h
  · exact absurd h (by simp)
  · exact absurd h (by simp)
  · exact .inr ⟨_, (Except.ok.inj h).symm⟩
  · rename_i htag
    split at h
    · exact .inl ⟨htag, (Except.ok.inj h).symm⟩
    · exact .inr ⟨_, (Except.ok.inj h).symm⟩
  · refine .inr ⟨nesting, ?_⟩
    rw [← Except.ok.inj h, ← hm]

/-- **What a lexeme does to a draft**, whatever the draft is in the middle of. -/
theorem turn_take {rows : List Text} {x : Lexeme} (hQ : ∀ {t}, Loose t → Q t) (h : d.Poised)
    (hincomplete : d.isComplete = false) (hx : x.Fits) (hprep : d.Prepared (d.Slack Q) rows x)
    (htake : d.take rows x = .ok d') : Turn Q d d' := by
  unfold take at htake
  unfold Prepared at hprep
  split at htake
  · rename_i hm
    rw [hm] at hprep
    exact turn_of_plain hQ hm hx hprep htake
  · rename_i start stop depth colon hm
    rw [hm] at hprep
    obtain ⟨hword, hargs⟩ := h hm
    rcases inLambda_cases htake with ⟨hends, hplain⟩ | ⟨depth', colon', rfl⟩
    · -- the body is written, and the lexeme behind it belongs to the header
      have hplaced : Placed d.stage d.written (.of .lambdaBody (Text.trim (slice rows start stop))) :=
        ⟨trivial, trivial, trivial, fun _ ↦ hword, rfl, fun hk ↦ absurd rfl hk⟩
      refine .head (wrote_token hplaced rfl ?_) ?_ (turn_of_plain hQ rfl hx (fun h₁ h₂ ↦ ?_) hplain)
      · simp [stage, push, reach, Stage.after, Token.isOpener, Token.isCloser, Token.of]
      · rfl
      · exact hprep hends h₁ h₂
    · exact .on (Wrote.refl.congr rfl rfl) rfl rfl fun _ ↦ ⟨hword, hargs⟩
  · rename_i start nesting hm
    rw [hm] at hprep
    rcases inFString_cases hm htake with ⟨htag, rfl⟩ | ⟨nesting', rfl⟩
    · exact turn_plain ((wrote_operand (hprep htag)).congr rfl rfl) rfl (rewritten_operand _).inArguments
    · exact .on (Wrote.refl.congr rfl rfl) rfl rfl (poised_of_mode fun _ _ _ _ ↦ by simp)
  · rename_i hm
    rw [isComplete, hm] at hincomplete
    exact absurd hincomplete (by simp)

end Draft

end HeaderHints.Header
