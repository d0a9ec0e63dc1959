import HeaderHints.Header.Basic
import HeaderHints.Proofs.DraftSteps
import HeaderHints.Proofs.Places

/-!
# Reading inside one row

A header that stands in one row is read piece by piece. `Crosses text P w w' g g'` says that reading goes
over `text`, whatever precedes it in the row, as long as what follows satisfies `P`: the tokens `w` become
`w'`, newest first, and the stage `g` becomes `g'`. The condition keeps the longest match in check, so that
pieces compose (`Crosses.append`). Each lexeme takes at least one character, which is what bounds the
number of lexemes.
-/

namespace HeaderHints

open Lexeme

/-! ### Scans -/

namespace Scan

variable {s s' : Scan} {b r text : Text}

/-- A scan inside its first row, with `b` before and `r` after the reading point. -/
structure InRow (s : Scan) (b r : Text) : Prop where
  current_eq : s.current = some (b, r)
  past_eq : s.past = []
  queued_eq : s.queued = []
  frames_eq : s.frames = []
  exhausted_eq : s.exhausted = false
  atStart_eq : s.atStart = false

/-- The lexeme `text` after `b` in the first row. -/
def lexemeAt (tag : Tag) (b text : Text) : Lexeme :=
  ⟨tag, text, ⟨0, Text.bytes b⟩, ⟨0, Text.bytes (b ++ text)⟩⟩

theorem InRow.step_eq (h : s.InRow b r) : s.step = s.plain b r := by
  have hload : s.load = s := by simp [load, h.current_eq]
  rw [step, h.queued_eq]
  simp only [h.exhausted_eq, Bool.false_eq_true, if_false, hload, h.current_eq, h.frames_eq,
    h.atStart_eq]

theorem InRow.next_eq {x : Lexeme} (h : s.InRow b r) (hplain : s.plain b r = (some x, s')) :
    s.next = (x, s') := by
  rw [next, nextWithin, h.step_eq, hplain]

theorem InRow.produce (h : s.InRow b (text ++ r)) (tag : Tag) :
    ∃ s', s.produce tag b text r = (some (lexemeAt tag b text), s') ∧ s'.InRow (b ++ text) r := by
  refine ⟨{ s with current := some (b ++ text, r), hasContent := s.hasContent || tag.isContent }, ?_,
    ⟨rfl, h.past_eq, h.queued_eq, h.frames_eq, h.exhausted_eq, h.atStart_eq⟩⟩
  simp [Scan.produce, lexemeAt, position, h.past_eq]

/-- What does not go on with a name or a string. -/
def Apart (r : Text) : Prop :=
  ∀ c ∈ r.head?, isNamePart c = false ∧ c ≠ '"' ∧ c ≠ '\''

/-- What does not go on with an operator or a number. -/
def Calm (r : Text) : Prop :=
  ∀ c ∈ r.head?, c ∉ ['=', '*', '/', '.'] ∧ c.isDigit = false

theorem span_eq_of_all {p : Char → Bool} (ht : ∀ c ∈ text, p c = true) (hr : ∀ c ∈ r.head?, p c = false) :
    (text ++ r).span p = (text, r) := by
  rw [List.span_eq_takeWhile_dropWhile, List.takeWhile_append_of_pos ht, List.dropWhile_append_of_pos ht]
  cases r with
  | nil => simp
  | cons c r => simp [hr c rfl]

/-- A character that starts neither a gap nor a comment, line break, joint or string. -/
def isSolid (c : Char) : Bool :=
  !" \t\x0c#\n\r\\\"'".toList.contains c

/-- What is read at a solid character that does not start a number. -/
theorem plain_of_isSolid {c : Char} {t : Text} (hc : isSolid c = true)
    (hnumber : (c.isDigit || (c = '.' && t.head?.any Char.isDigit)) = false) :
    s.plain b (c :: t) =
      if isNameStart c then
        match Quotes.of? ((c :: t).span isNamePart).2 with
        | some q =>
          if isStringMark ((c :: t).span isNamePart).1 then
            s.string b ((c :: t).span isNamePart).1 q (((c :: t).span isNamePart).2.drop q.text.length)
          else s.produce .name b ((c :: t).span isNamePart).1 ((c :: t).span isNamePart).2
        | none => s.produce .name b ((c :: t).span isNamePart).1 ((c :: t).span isNamePart).2
      else
        match operator? (c :: t) with
        | some op => s.operator b op ((c :: t).drop op.length)
        | none => s.produce .error b [c] t := by
  simp only [isSolid, List.contains_eq_mem, Bool.not_eq_true', decide_eq_false_iff_not] at hc
  have hne : ∀ e ∈ " \t\x0c#\n\r\\\"'".toList, c ≠ e := by
    rintro e he rfl
    exact hc he
  have hgap : (c :: t).span isGap = ([], c :: t) := by
    have hgap : isGap c = false := by
      simp [isGap, hne ' ' (by decide), hne '\t' (by decide), hne '\x0c' (by decide)]
    rw [List.span_eq_takeWhile_dropWhile]
    simp [hgap]
  have hquotes : Quotes.of? (c :: t) = none := by
    simp [Quotes.of?, hne '"' (by decide), hne '\'' (by decide)]
  rw [plain, hgap]
  simp only [List.append_nil]
  rw [if_neg (hne '#' (by decide)), if_neg (hne '\n' (by decide)), if_neg (hne '\r' (by decide)),
    if_neg (by simp [hne '\\' (by decide)]), if_neg (by simp [hnumber])]
  split
  · next q hq => simp [hquotes] at hq
  · rfl

theorem isSolid_of_isNameStart {c : Char} (h : isNameStart c = true) :
    isSolid c = true ∧ c.isDigit = false ∧ c ≠ '.' := by
  have hother : ∀ e ∈ " \t\x0c#\n\r\\\"'.0123456789".toList, isNameStart e = false := by decide
  have hne : ∀ e ∈ " \t\x0c#\n\r\\\"'.0123456789".toList, c ≠ e := by
    rintro e he rfl
    rw [hother c he] at h
    exact absurd h (by simp)
  refine ⟨?_, ?_, hne '.' (by decide)⟩
  · simp only [isSolid, List.contains_eq_mem, Bool.not_eq_true', decide_eq_false_iff_not]
    exact fun hc ↦ hne c (by
      have : ∀ e ∈ " \t\x0c#\n\r\\\"'".toList, e ∈ " \t\x0c#\n\r\\\"'.0123456789".toList := by decide
      exact this c hc) rfl
  · cases hdigit : c.isDigit with
    | false => rfl
    | true =>
      have hdigits : ∀ n < 10, isNameStart (Char.ofNat (48 + n)) = false := by decide
      simp only [Char.isDigit, Bool.and_eq_true, decide_eq_true_eq, ge_iff_le, UInt32.le_iff_toNat_le,
        show '0'.val.toNat = 48 from rfl, show '9'.val.toNat = 57 from rfl] at hdigit
      have hlow : 48 ≤ c.toNat := hdigit.1
      have hhigh : c.toNat ≤ 57 := hdigit.2
      have hc := hdigits (c.toNat - 48) (by omega)
      rw [Nat.add_sub_cancel' hlow, Char.ofNat_toNat, h] at hc
      exact absurd hc (by simp)

/-- **A name is produced** as far as it goes. -/
theorem InRow.word (h : s.InRow b (text ++ r)) (ht : Named text) (hr : Apart r) :
    ∃ s', s.plain b (text ++ r) = (some (lexemeAt .name b text), s') ∧ s'.InRow (b ++ text) r := by
  have hspan : (text ++ r).span isNamePart = (text, r) :=
    span_eq_of_all ht.isNamePart fun e he ↦ (hr e he).1
  obtain ⟨c, w, rfl, hc, hw⟩ := ht
  obtain ⟨s', hproduce, hs'⟩ := h.produce .name
  refine ⟨s', ?_, hs'⟩
  have hquotes : Quotes.of? r = none := by
    cases r with
    | nil => rfl
    | cons e r =>
      obtain ⟨-, hdouble, hsingle⟩ := hr e rfl
      simp [Quotes.of?, hdouble, hsingle]
  obtain ⟨hsolid, hdigit, hdot⟩ := isSolid_of_isNameStart hc
  rw [List.cons_append] at hspan ⊢
  rw [plain_of_isSolid hsolid (by simp [hdigit, hdot]), if_pos hc, hspan, hquotes]
  exact hproduce

/-- The operators that a header in one row is made of. -/
def rowOperators : List Text :=
  [['('], [')'], ['['], [']'], [','], [':'], ['='], ['*'], ['*', '*'], ['/'], ['|'], ['-', '>'], ['.'],
    ['.', '.', '.']]

/-- Such an operator is taken whole, and no further character with it. No operator goes on after an
opening bracket. -/
theorem operator?_append (ht : text ∈ rowOperators) (hr : Token.opensBracket text = true ∨ Calm r) :
    operator? (text ++ r) = some text := by
  simp only [rowOperators, List.mem_cons, List.not_mem_nil, or_false] at ht
  rcases hr with hopen | hr
  · have hround : text = ['('] ∨ text = ['['] := by
      rcases ht with rfl | rfl | rfl | rfl | rfl | rfl | rfl | rfl | rfl | rfl | rfl | rfl | rfl | rfl <;>
        simp_all [Token.opensBracket]
    rcases hround with rfl | rfl <;> simp [operator?, operators, List.isPrefixOf]
  cases r with
  | nil =>
    rcases ht with rfl | rfl | rfl | rfl | rfl | rfl | rfl | rfl | rfl | rfl | rfl | rfl | rfl | rfl <;> rfl
  | cons c t =>
    obtain ⟨h₁, h₂, h₃, h₄⟩ : c ≠ '=' ∧ c ≠ '*' ∧ c ≠ '/' ∧ c ≠ '.' := by
      have := (hr c rfl).1
      simpa using this
    rcases ht with rfl | rfl | rfl | rfl | rfl | rfl | rfl | rfl | rfl | rfl | rfl | rfl | rfl | rfl <;>
      simp [operator?, operators, List.isPrefixOf, h₁.symm, h₂.symm, h₃.symm, h₄.symm]

/-- **An operator is produced.** -/
theorem InRow.op (h : s.InRow b (text ++ r)) (ht : text ∈ rowOperators)
    (hr : Token.opensBracket text = true ∨ Calm r) :
    ∃ s', s.next = (lexemeAt .op b text, s') ∧ s'.InRow (b ++ text) r := by
  have hframes : ∀ depth : Nat,
      { s with depth, frames := s.frames.modifyHead (·.after text) }.InRow b (text ++ r) := by
    intro depth
    refine ⟨h.current_eq, h.past_eq, h.queued_eq, ?_, h.exhausted_eq, h.atStart_eq⟩
    show s.frames.modifyHead (·.after text) = []
    rw [h.frames_eq]
    rfl
  obtain ⟨s', hproduce, hs'⟩ : ∃ s', s.operator b text r = (some (lexemeAt .op b text), s') ∧
      s'.InRow (b ++ text) r := (hframes _).produce .op
  refine ⟨s', h.next_eq ?_, hs'⟩
  obtain ⟨c, w, rfl, hsolid, hdigit, hname⟩ : ∃ c w, text = c :: w ∧ isSolid c = true ∧
      c.isDigit = false ∧ isNameStart c = false := by
    have hhead : ∀ u ∈ rowOperators,
        u.head?.any (fun c ↦ isSolid c = true ∧ c.isDigit = false ∧ isNameStart c = false) = true := by decide
    obtain ⟨c, hc, hsolid⟩ := (Option.any_eq_true _ _).1 (hhead text ht)
    obtain ⟨w, rfl⟩ := List.head?_eq_some_iff.1 hc
    exact ⟨c, w, rfl, of_decide_eq_true hsolid⟩
  have hop := operator?_append ht hr
  have hnumber : (c = '.' && (w ++ r).head?.any Char.isDigit) = false := by
    have hw : ∀ u ∈ rowOperators, u.tail.head?.any Char.isDigit = false := by decide
    cases w with
    | nil =>
      rcases hr with hopen | hr
      · have hdot : c ≠ '.' := by
          rintro rfl
          exact absurd hopen (by decide)
        simp [hdot]
      cases r with
      | nil => simp
      | cons e r => simp [(hr e rfl).2]
    | cons e w =>
      have he : e.isDigit = false := hw _ ht
      simp [he]
  rw [List.cons_append] at hop ⊢
  rw [plain_of_isSolid hsolid (by rw [hdigit, Bool.false_or]; exact hnumber), if_neg (by simp [hname]), hop]
  dsimp only
  rw [show (c :: (w ++ r)).drop (c :: w).length = r by simp]
  exact hproduce

theorem splitNumber_digits (ht : ∀ c ∈ text, c.isDigit = true) (hr : Apart r)
    (hdot : ∀ c ∈ r.head?, c ≠ '.') : splitNumber (text ++ r) = (text, r) := by
  -- no letter goes on with the number
  have hletter : ∀ e ∈ "xXoObBeEjJ_".toList, ∀ c ∈ r.head?, c ≠ e := by
    have hpart : ∀ e ∈ "xXoObBeEjJ_".toList, isNamePart e = true := by decide
    rintro e he c hc rfl
    have := (hr c hc).1
    rw [hpart c he] at this
    exact absurd this (by simp)
  have hspan : (text ++ r).span isDigitPart = (text, r) := by
    refine span_eq_of_all (fun c hc ↦ by simp [isDigitPart, ht c hc]) fun c hc ↦ ?_
    have := (hr c hc).1
    simp only [isNamePart, Char.isAlphanum, Bool.or_eq_false_iff] at this
    simp [isDigitPart, this]
  have hexponent : splitExponent r = ([], r) := by
    cases r with
    | nil => rfl
    | cons c r =>
      have h₁ := hletter 'e' (by decide) c rfl
      have h₂ := hletter 'E' (by decide) c rfl
      rw [splitExponent.eq_def]
      simp [h₁, h₂]
  have hdecimal : splitDecimal (text ++ r) = (text, r) := by
    unfold splitDecimal
    rw [hspan]
    dsimp only
    split
    · exact absurd rfl (hdot '.' rfl)
    rw [hexponent]
    dsimp only
    split
    · exact absurd rfl (hletter 'j' (by decide) 'j' rfl)
    · exact absurd rfl (hletter 'J' (by decide) 'J' rfl)
    · simp
  rw [splitNumber.eq_def]
  split
  · rename_i base t hcons
    rw [if_neg, ← hcons]
    · exact hdecimal
    · -- the second character is a digit, or it does not go on with a name
      intro hbase
      have hmem : base ∈ "xXoObB".toList := by simpa using hbase
      have hdigit : ∀ e ∈ "xXoObB".toList, e.isDigit = false := by decide
      have hsub : ∀ e ∈ "xXoObB".toList, e ∈ "xXoObBeEjJ_".toList := by decide
      rcases text with - | ⟨d, - | ⟨d', w⟩⟩
      · have := (hr '0' (by rw [show r = _ from hcons]; rfl)).1
        exact absurd this (by decide)
      · obtain ⟨-, rfl⟩ := List.cons_eq_cons.1 hcons
        exact hletter base (hsub base hmem) base rfl rfl
      · obtain ⟨-, hrest⟩ := List.cons_eq_cons.1 hcons
        obtain ⟨rfl, -⟩ := List.cons_eq_cons.1 hrest
        have := ht d' (by simp)
        rw [hdigit d' hmem] at this
        exact absurd this (by simp)
  · exact hdecimal

/-- **A decimal integer is produced.** -/
theorem InRow.digits (h : s.InRow b (text ++ r)) (hne : text ≠ [])
    (ht : ∀ c ∈ text, c.isDigit = true) (hr : Apart r) (hdot : ∀ c ∈ r.head?, c ≠ '.') :
    ∃ s', s.next = (lexemeAt .number b text, s') ∧ s'.InRow (b ++ text) r := by
  obtain ⟨s', hproduce, hs'⟩ := h.produce .number
  refine ⟨s', h.next_eq ?_, hs'⟩
  have hsplit := splitNumber_digits ht hr hdot
  obtain ⟨c, w, rfl⟩ := List.exists_cons_of_ne_nil hne
  have hc := ht c (by simp)
  have hne : ∀ e ∈ " \t\x0c#\n\r\\".toList, c ≠ e := by
    have hother : ∀ e ∈ " \t\x0c#\n\r\\".toList, e.isDigit = false := by decide
    rintro e he rfl
    rw [hother c he] at hc
    exact absurd hc (by simp)
  have hgap : (c :: (w ++ r)).span isGap = ([], c :: (w ++ r)) := by
    have hgap : isGap c = false := by
      simp [isGap, hne ' ' (by decide), hne '\t' (by decide), hne '\x0c' (by decide)]
    rw [List.span_eq_takeWhile_dropWhile]
    simp [hgap]
  rw [List.cons_append] at hsplit ⊢
  rw [plain, hgap]
  simp only [List.append_nil]
  rw [if_neg (hne '#' (by decide)), if_neg (hne '\n' (by decide)), if_neg (hne '\r' (by decide)),
    if_neg (by simp [hne '\\' (by decide)]), if_pos (by simp [hc]), hsplit]
  exact hproduce

/-- **A gap is passed over**: reading goes on as if it were behind. -/
theorem InRow.gap {gap : Text} (h : s.InRow b (gap ++ r)) (hgap : ∀ c ∈ gap, isGap c = true) :
    ∃ s' : Scan, s'.InRow (b ++ gap) r ∧ s.plain b (gap ++ r) = s'.plain (b ++ gap) r ∧
      s.next = s'.next := by
  have hs' : ({ s with current := some (b ++ gap, r) } : Scan).InRow (b ++ gap) r :=
    ⟨rfl, h.past_eq, h.queued_eq, h.frames_eq, h.exhausted_eq, h.atStart_eq⟩
  have hspan : (gap ++ r).span isGap = (gap ++ (r.span isGap).1, (r.span isGap).2) := by
    simp only [List.span_eq_takeWhile_dropWhile]
    rw [List.takeWhile_append_of_pos hgap, List.dropWhile_append_of_pos hgap]
  have hleave : s.leaveRow = ({ s with current := some (b ++ gap, r) } : Scan).leaveRow := by
    simp [leaveRow, rows, h.current_eq]
  have hplain : s.plain b (gap ++ r) =
      ({ s with current := some (b ++ gap, r) } : Scan).plain (b ++ gap) r := by
    unfold plain
    rw [hspan]
    dsimp only
    rw [← List.append_assoc]
    cases (r.span isGap).2 with
    | nil => rfl
    | cons c t =>
      dsimp only
      rw [hleave]
      rfl
  refine ⟨_, hs', hplain, ?_⟩
  rw [next, next, nextWithin, nextWithin, h.step_eq, hs'.step_eq, hplain]

end Scan

/-! ### Drafts -/

namespace Header

open Scan

variable {d : Draft} {w w' : List Token} {g g' : Stage} {text : Text}

/-- A draft inside the first row, with the tokens `w` at the stage `g`. -/
structure Draft.InRow (d : Draft) (w : List Token) (g : Stage) : Prop where
  written_eq : d.written = w
  stage_eq : d.stage = g
  mode_eq : d.mode = .plain
  begunRow_eq : d.begunRow = some 0

theorem Draft.InRow.take_eq {rows : List Text} {x : Lexeme} (h : d.InRow w g) :
    d.take rows x = d.plain rows x := by
  rw [Draft.take, h.mode_eq]

theorem Draft.InRow.layout_eq {rows : List Text} {p : Position} (h : d.InRow w g) (hp : p.row = 0) :
    d.layout rows p = d := by
  rw [Draft.layout, if_pos (by rw [h.begunRow_eq, hp])]

theorem Draft.InRow.push (h : d.InRow w g) (kind : Token.Kind) (text : Text) :
    (d.push kind text).InRow (.of kind text :: w) g :=
  ⟨by rw [← h.written_eq]; rfl, h.stage_eq, h.mode_eq, h.begunRow_eq⟩

theorem Draft.InRow.reach (h : d.InRow w g) (col : Nat) : (d.reach ⟨0, col⟩).InRow w g :=
  ⟨h.written_eq, h.stage_eq, h.mode_eq, rfl⟩

theorem Draft.InRow.amend {kind : Token.Kind} {text : Text} (h : d.InRow (.of kind text :: w) g)
    (change : Text → Text) : (d.amend change).InRow (.of kind (change text) :: w) g := by
  refine ⟨?_, h.stage_eq, h.mode_eq, h.begunRow_eq⟩
  show d.written.modifyHead _ = _
  rw [h.written_eq]
  rfl

theorem Draft.InRow.sawDef_eq (h : d.InRow w g) : d.sawDef = g.sawDef := by
  rw [← h.stage_eq]; rfl

theorem Draft.InRow.inArguments_eq (h : d.InRow w g) : d.inArguments = g.inArguments := by
  rw [← h.stage_eq]; rfl

theorem Draft.InRow.openBrackets_eq (h : d.InRow w g) : d.openBrackets = g.openBrackets := by
  rw [← h.stage_eq]; rfl

theorem Draft.InRow.annotationDepth_eq (h : d.InRow w g) : d.annotationDepth = g.annotationDepth := by
  rw [← h.stage_eq]; rfl

theorem Draft.InRow.valueDepth_eq (h : d.InRow w g) : d.valueDepth = g.valueDepth := by
  rw [← h.stage_eq]; rfl

/-- An operand that starts a default value. -/
theorem Draft.InRow.operand_eq (h : d.InRow w g) (hw : w.head?.map (·.kind) ≠ some .argumentDefault) :
    d.operand text = d.push .argumentDefault text := by
  rw [Draft.operand, Draft.lastKind?, h.written_eq, if_neg hw]

/-- **Reading goes over a text of the row**, if what follows it satisfies `P`. -/
def Crosses (text : Text) (P : Text → Prop) (w w' : List Token) (g g' : Stage) : Prop :=
  ∀ ⦃s : Scan⦄ ⦃d : Draft⦄ ⦃b r : Text⦄, s.InRow b (text ++ r) → d.InRow w g → P r →
    ∃ (k : Nat) (s' : Scan) (d' : Draft), k ≤ text.length ∧ s'.InRow (b ++ text) r ∧ d'.InRow w' g' ∧
      ∀ n, (readWithin (n + k) s d).1 = (readWithin n s' d').1

namespace Crosses

variable {P Q : Text → Prop}

theorem nil : Crosses [] P w w g g := by
  intro s d b r hs hd _
  exact ⟨0, s, d, Nat.le_refl _, by simpa using hs, hd, fun _ ↦ rfl⟩

theorem append {t u : Text} {w₁ w₂ : List Token} {g₁ g₂ : Stage} (h : Crosses t P w w₁ g g₁)
    (h' : Crosses u Q w₁ w₂ g₁ g₂) (hP : ∀ {r}, Q r → P (u ++ r)) :
    Crosses (t ++ u) Q w w₂ g g₂ := by
  intro s d b r hs hd hr
  rw [List.append_assoc] at hs
  obtain ⟨k, s', d', hk, hs', hd', hread⟩ := h hs hd (hP hr)
  obtain ⟨k', s'', d'', hk', hs'', hd'', hread'⟩ := h' hs' hd' hr
  refine ⟨k' + k, s'', d'', by simp; omega, by rw [← List.append_assoc]; exact hs'', hd'', fun n ↦ ?_⟩
  rw [← Nat.add_assoc, hread, hread']

theorem mono (h : Crosses text P w w' g g') (hQ : ∀ {r}, Q r → P r) : Crosses text Q w w' g g' :=
  fun _ _ _ _ hs hd hr ↦ h hs hd (hQ hr)

/-- A gap brings no token. -/
theorem gap (hgap : ∀ c ∈ text, isGap c = true) : Crosses text (fun _ ↦ True) w w g g := by
  intro s d b r hs hd _
  obtain ⟨s', hs', -, hnext⟩ := hs.gap hgap
  refine ⟨0, s', d, Nat.zero_le _, hs', hd, fun n ↦ ?_⟩
  cases n with
  | zero => rfl
  | succ n => rw [Nat.add_zero, readWithin, readWithin, hnext]

theorem space : Crosses [' '] (fun _ ↦ True) w w g g :=
  gap (by decide)

/-- **A text that is one lexeme.** -/
theorem lexeme {tag : Tag} (hne : text ≠ [])
    (hnext : ∀ {s : Scan} {b r : Text}, s.InRow b (text ++ r) → P r →
      ∃ s' : Scan, s.next = (lexemeAt tag b text, s') ∧ s'.InRow (b ++ text) r)
    (htake : ∀ {d : Draft} {rows : List Text} {b : Text}, d.InRow w g →
      ∃ d' : Draft, d.take rows (lexemeAt tag b text) = .ok d' ∧ d'.InRow w' g') :
    Crosses text P w w' g g' := by
  intro s d b r hs hd hr
  obtain ⟨s', hs, hs'⟩ := hnext hs hr
  obtain ⟨d', htake, hd'⟩ := @htake d s'.rows b hd
  refine ⟨1, s', d', List.length_pos_iff.2 hne, hs', hd', fun n ↦ ?_⟩
  have hincomplete : d'.isComplete = false := by rw [Draft.isComplete, hd'.mode_eq]
  rw [readWithin, hs]
  simp only [htake, hincomplete, Bool.false_eq_true, if_false]

/-! ### Words -/

/-- A word, where the draft takes the name in. -/
theorem word (ht : Named text)
    (hname : ∀ {d : Draft} {start : Position} {col : Nat}, d.InRow w g →
      ∃ d' : Draft, d.name ⟨.name, text, start, ⟨0, col⟩⟩ = .ok (d'.reach ⟨0, col⟩) ∧ d'.InRow w' g') :
    Crosses text Apart w w' g g' := by
  have hnext : ∀ {s : Scan} {b r : Text}, s.InRow b (text ++ r) → Apart r →
      ∃ s' : Scan, s.next = (lexemeAt .name b text, s') ∧ s'.InRow (b ++ text) r := by
    intro s b r hs hr
    obtain ⟨s', hplain, hs'⟩ := hs.word ht hr
    exact ⟨s', hs.next_eq hplain, hs'⟩
  refine lexeme (by obtain ⟨c, t, rfl, -⟩ := ht; simp) hnext fun {d rows b} hd ↦ ?_
  obtain ⟨d', hd', hrow⟩ := @hname d ⟨0, Text.bytes b⟩ (Text.bytes (b ++ text)) hd
  refine ⟨_, ?_, hrow.reach (Text.bytes (b ++ text))⟩
  rw [hd.take_eq, Draft.plain]
  dsimp only [lexemeAt]
  rw [hd.layout_eq rfl]
  exact hd'

theorem asyncWord (hargs : g.inArguments = false) :
    Crosses "async".toList Apart w (.of .keyword "async".toList :: w) g g := by
  refine word ⟨'a', "sync".toList, rfl, by decide, by decide⟩ fun {d start col} hd ↦ ?_
  refine ⟨d.push .keyword "async".toList, ?_, hd.push _ _⟩
  rw [Draft.name, hd.inArguments_eq, hargs]
  rfl

theorem defWord (hargs : g.inArguments = false) (hdef : g.sawDef = false) :
    Crosses "def".toList Apart w (.of .definition "def".toList :: w) g { g with sawDef := true } := by
  refine word ⟨'d', "ef".toList, rfl, by decide, by decide⟩ fun {d start col} hd ↦ ?_
  refine ⟨{ d.push .definition "def".toList with sawDef := true }, ?_, ?_⟩
  · rw [Draft.name, hd.inArguments_eq, hargs, hd.sawDef_eq, hdef]
    rfl
  · exact ⟨by rw [← hd.written_eq]; rfl, by rw [← hd.stage_eq]; rfl, hd.mode_eq, hd.begunRow_eq⟩

/-- The name of a function. -/
theorem functionName (ht : Named text) (hasync : text ≠ "async".toList) (hdef : text ≠ "def".toList)
    (hargs : g.inArguments = false) :
    Crosses text Apart (.of .definition "def".toList :: w)
      (.of .functionName text :: .of .definition "def".toList :: w) g g := by
  refine word ht fun {d start col} hd ↦ ?_
  refine ⟨d.push .functionName text, ?_, hd.push _ _⟩
  have hdotted : d.dotted .functionName text = d.push .functionName text := by
    simp [Draft.dotted, hd.written_eq, Token.of, Token.isA, Token.Kind.isA, Token.Kind.lineage,
      Token.Kind.parent]
  rw [Draft.name, hd.inArguments_eq, hargs, if_pos (by rfl), if_neg hasync, if_neg hdef, hdotted]

/-- The name of an argument. -/
theorem argumentName (ht : Named text) (hargs : g.inArguments = true) (hhint : g.annotationDepth = 0)
    (hvalue : g.valueDepth = 0) :
    Crosses text Apart w (.of .argumentName text :: w) g g := by
  refine word ht fun {d start col} hd ↦ ?_
  refine ⟨d.push .argumentName text, ?_, hd.push _ _⟩
  rw [Draft.name, hd.inArguments_eq, hargs, hd.annotationDepth_eq, hhint, hd.valueDepth_eq, hvalue]
  rfl

/-- A word that starts a default value. -/
theorem valueWord (ht : Named text) (hlambda : text ≠ "lambda".toList) (hargs : g.inArguments = true)
    (hhint : g.annotationDepth = 0) (hvalue : 0 < g.valueDepth)
    (hw : w.head?.map (·.kind) ≠ some .argumentDefault) :
    Crosses text Apart w (.of .argumentDefault text :: w) g g := by
  refine word ht fun {d start col} hd ↦ ?_
  refine ⟨d.push .argumentDefault text, ?_, hd.push _ _⟩
  rw [Draft.name, hd.inArguments_eq, hargs, if_neg (by decide), hd.annotationDepth_eq, hhint,
    if_neg (by decide), hd.valueDepth_eq, if_pos hvalue, if_neg hlambda, hd.operand_eq hw]

/-- A decimal integer that starts a default value. -/
theorem valueDigits (hne : text ≠ []) (ht : ∀ c ∈ text, c.isDigit = true)
    (hw : w.head?.map (·.kind) ≠ some .argumentDefault) :
    Crosses text (fun r ↦ Apart r ∧ Calm r) w (.of .argumentDefault text :: w) g g := by
  have hnext : ∀ {s : Scan} {b r : Text}, s.InRow b (text ++ r) → Apart r ∧ Calm r →
      ∃ s' : Scan, s.next = (lexemeAt .number b text, s') ∧ s'.InRow (b ++ text) r := by
    rintro s b r hs ⟨hapart, hcalm⟩
    refine hs.digits hne ht hapart ?_
    rintro c hc rfl
    exact (hcalm '.' hc).1 (by decide)
  refine lexeme hne hnext fun {d rows b} hd ↦ ?_
  refine ⟨_, ?_, (hd.push .argumentDefault text).reach (Text.bytes (b ++ text))⟩
  rw [hd.take_eq, Draft.plain]
  dsimp only [lexemeAt]
  rw [hd.layout_eq rfl, hd.operand_eq hw]

/-- Words of a dotted name: the first part, or a part that continues it. -/
theorem hintWord (ht : Named text) (hargs : g.inArguments = true) (hhint : 0 < g.annotationDepth)
    (hw : ∀ t ∈ w.head?, t.isA .dottedName = false) :
    Crosses text Apart w (.of .dottedName text :: w) g g := by
  refine word ht fun {d start col} hd ↦ ?_
  refine ⟨d.push .dottedName text, ?_, hd.push _ _⟩
  have hdotted : d.dotted .dottedName text = d.push .dottedName text := by
    rw [Draft.dotted, hd.written_eq]
    cases w with
    | nil => rfl
    | cons t w =>
      have ht := hw t rfl
      have hkind : t.kind ≠ .dottedName := by
        rintro hk
        rw [Token.isA, hk] at ht
        exact absurd ht (by decide)
      simp [ht, hkind]
  rw [Draft.name, hd.inArguments_eq, hargs, if_neg (by decide), hd.annotationDepth_eq, if_pos hhint, hdotted]

/-- A part of a dotted name after its dot. -/
theorem hintPart {front : Text} (ht : Named text) (hargs : g.inArguments = true)
    (hhint : 0 < g.annotationDepth) (hfront : front.getLast? = some '.') :
    Crosses text Apart (.of .dottedName front :: w) (.of .dottedName (front ++ text) :: w) g g := by
  refine word ht fun {d start col} hd ↦ ?_
  refine ⟨d.amend (· ++ text), ?_, hd.amend _⟩
  have hdotted : d.dotted .dottedName text = d.amend (· ++ text) := by
    rw [Draft.dotted, hd.written_eq]
    simp [Token.of, Token.text, hfront]
  rw [Draft.name, hd.inArguments_eq, hargs, if_neg (by decide), hd.annotationDepth_eq, if_pos hhint, hdotted]

/-! ### Operators -/

/-- An operator, where the draft takes it in. -/
theorem op (ht : text ∈ rowOperators) (hP : ∀ {r}, P r → Token.opensBracket text = true ∨ Calm r)
    (hop : ∀ {d : Draft} {rows : List Text} {start : Position} {col : Nat}, d.InRow w g →
      ∃ d' : Draft, d.op rows ⟨.op, text, start, ⟨0, col⟩⟩ = .ok (d'.reach ⟨0, col⟩) ∧ d'.InRow w' g') :
    Crosses text P w w' g g' := by
  have hne : text ≠ [] := by
    rintro rfl
    exact absurd ht (by decide)
  refine lexeme hne (fun hs hr ↦ hs.op ht (hP hr)) fun {d rows b} hd ↦ ?_
  obtain ⟨d', hd', hrow⟩ := @hop d rows ⟨0, Text.bytes b⟩ (Text.bytes (b ++ text)) hd
  refine ⟨_, ?_, hrow.reach (Text.bytes (b ++ text))⟩
  rw [hd.take_eq, Draft.plain]
  dsimp only [lexemeAt]
  rw [hd.layout_eq rfl]
  exact hd'

theorem opener (ht : text = ['('] ∨ text = ['[']) :
    Crosses text (fun _ ↦ True) w (.of .endSeparator text :: w) g (g.opened text) := by
  have hmem : text ∈ rowOperators := by rcases ht with rfl | rfl <;> decide
  have hopens : Token.opensBracket text = true := by rcases ht with rfl | rfl <;> rfl
  refine op hmem (fun _ ↦ .inl hopens) fun {d rows start col} hd ↦ ?_
  refine ⟨d.openBracket text, ?_, ?_⟩
  · rcases ht with rfl | rfl <;> rfl
  · exact ⟨by rw [← hd.written_eq]; rfl, by rw [← hd.stage_eq]; rfl, hd.mode_eq, hd.begunRow_eq⟩

theorem closer (ht : text = [')'] ∨ text = [']']) :
    Crosses text Calm w (.of .endSeparator text :: w) g g.closed := by
  have hmem : text ∈ rowOperators := by rcases ht with rfl | rfl <;> decide
  refine op hmem .inr fun {d rows start col} hd ↦ ?_
  refine ⟨d.closeBracket text, ?_, ?_⟩
  · rcases ht with rfl | rfl <;> rfl
  · exact ⟨by rw [← hd.written_eq]; rfl, by rw [← hd.stage_eq]; rfl, hd.mode_eq, hd.begunRow_eq⟩

theorem comma : Crosses [','] Calm w (.of .separator [','] :: w) g g.divided := by
  refine op (by decide) .inr fun {d rows start col} hd ↦ ?_
  refine ⟨d.comma [','], rfl, ?_⟩
  exact ⟨by rw [← hd.written_eq]; rfl, by rw [← hd.stage_eq]; rfl, hd.mode_eq, hd.begunRow_eq⟩

/-- The colon before an annotation. -/
theorem hintColon (hopen : 0 < g.openBrackets) (hvalue : g.valueDepth = 0) :
    Crosses [':'] Calm w (.of .typeDef [':'] :: w) g { g with annotationDepth := 1 } := by
  refine op (by decide) .inr fun {d rows start col} hd ↦ ?_
  refine ⟨{ d.push .typeDef [':'] with annotationDepth := 1 }, ?_, ?_⟩
  · rw [Draft.op, hd.openBrackets_eq, hd.valueDepth_eq, hvalue, if_neg (by simp; omega)]
    rfl
  · exact ⟨by rw [← hd.written_eq]; rfl, by rw [← hd.stage_eq]; rfl, hd.mode_eq, hd.begunRow_eq⟩

/-- The equals sign before a default value. -/
theorem equals (hvalue : g.valueDepth = 0) :
    Crosses ['='] Calm w (.of .defaultDef ['='] :: w) g { g with annotationDepth := 0, valueDepth := 1 } := by
  refine op (by decide) .inr fun {d rows start col} hd ↦ ?_
  refine ⟨{ d.push .defaultDef ['='] with annotationDepth := 0, valueDepth := 1 }, ?_, ?_⟩
  · have hequals : d.equals ['='] =
        { d.push .defaultDef ['='] with annotationDepth := 0, valueDepth := 1 } := by
      rw [Draft.equals, hd.valueDepth_eq, hvalue, if_neg (by decide)]
    rw [← hequals]
    rfl
  · exact ⟨by rw [← hd.written_eq]; rfl, by rw [← hd.stage_eq]; rfl, hd.mode_eq, hd.begunRow_eq⟩

/-- The arrow before the return annotation. -/
theorem arrow :
    Crosses ['-', '>'] Calm w (.of .returnTypeDef ['-', '>'] :: w) g { g with annotationDepth := 1 } := by
  refine op (by decide) .inr fun {d rows start col} hd ↦ ?_
  refine ⟨{ d.push .returnTypeDef ['-', '>'] with annotationDepth := 1 }, rfl, ?_⟩
  exact ⟨by rw [← hd.written_eq]; rfl, by rw [← hd.stage_eq]; rfl, hd.mode_eq, hd.begunRow_eq⟩

/-- The dot between two parts of a name. -/
theorem hintDot {front : Text} :
    Crosses ['.'] Calm (.of .dottedName front :: w) (.of .dottedName (front ++ ['.']) :: w) g g := by
  refine op (by decide) .inr fun {d rows start col} hd ↦ ?_
  refine ⟨d.amend (· ++ ['.']), ?_, hd.amend _⟩
  have hdot : d.dot ['.'] = .ok (d.amend (· ++ ['.'])) := by
    rw [Draft.dot, Draft.lastKind?, hd.written_eq]
    rfl
  show (·.reach ⟨0, col⟩) <$> d.dot ['.'] = _
  rw [hdot]
  rfl

theorem ellipsis : Crosses ['.', '.', '.'] Calm w (.of .dottedName ['.', '.', '.'] :: w) g g := by
  refine op (by decide) .inr fun {d rows start col} hd ↦ ?_
  exact ⟨d.push .dottedName ['.', '.', '.'], rfl, hd.push _ _⟩

/-- A star or a slash outside default values. -/
theorem mark (ht : text ∈ [['*'], ['*', '*'], ['/']]) (hvalue : g.valueDepth = 0) :
    Crosses text Calm w (.of .endSeparator text :: w) g g := by
  have hmem : text ∈ rowOperators := by
    have : ∀ u ∈ [['*'], ['*', '*'], ['/']], u ∈ rowOperators := by decide
    exact this text ht
  refine op hmem .inr fun {d rows start col} hd ↦ ?_
  refine ⟨d.push .endSeparator text, ?_, hd.push _ _⟩
  simp only [List.mem_cons, List.not_mem_nil, or_false] at ht
  rw [Draft.op, hd.valueDepth_eq, hvalue]
  rcases ht with rfl | rfl | rfl <;> rfl

/-- The bar between two types. -/
theorem bar (hvalue : g.valueDepth = 0) : Crosses ['|'] Calm w (.of .separator ['|'] :: w) g g := by
  refine op (by decide) .inr fun {d rows start col} hd ↦ ?_
  refine ⟨d.push .separator ['|'], ?_, hd.push _ _⟩
  rw [Draft.op, hd.valueDepth_eq, hvalue]
  rfl

end Crosses

/-! ### The ends of a row -/

theorem rows_of_inRow {s : Scan} {b r : Text} (h : s.InRow b r) : s.rows = [b ++ r] := by
  simp [Scan.rows, h.past_eq, h.current_eq]

/-- The margin of a row as tokens. -/
def marginTokens (margin : Text) : List Token :=
  if margin.isEmpty then [] else [.of .endSeparator margin]

theorem isGap_eq_false {c : Char} (h : isNameStart c = true) :
    isGap c = false ∧ c ≠ '#' ∧ isBreak c = false := by
  have hother : ∀ e ∈ " \t\x0c#\r\n".toList, isNameStart e = false := by decide
  have hne : ∀ e ∈ " \t\x0c#\r\n".toList, c ≠ e := by
    rintro e he rfl
    rw [hother c he] at h
    exact absurd h (by simp)
  simp [isGap, isBreak, hne ' ' (by decide), hne '\t' (by decide), hne '\x0c' (by decide),
    hne '#' (by decide), hne '\r' (by decide), hne '\n' (by decide)]

/-- The first row is at hand when reading starts. -/
theorem load_start {source : Source} {first : Nat} {c : Char} {t : Text}
    (hrow : source[first]? = some (some (c :: t))) :
    ∃ feed, (Scan.start source first).load = { feed, current := some ([], c :: t) } := by
  obtain ⟨hlt, hget⟩ := List.getElem?_eq_some_iff.1 hrow
  refine ⟨⟨source.drop (first + 1), first + 1, [first]⟩, ?_⟩
  have hdrop : source.drop first = some (c :: t) :: source.drop (first + 1) := by
    rw [List.drop_eq_getElem_cons hlt, hget]
  simp [Scan.load, Scan.start, Feed.start, Feed.ask, hdrop]

/-- The margin of the first row opens a block, unless it has no width. -/
theorem indentation_start (feed : Feed) {row margin text : Text}
    (hspan : row.span isGap = (margin, text)) (hhead : ∃ c ∈ text.head?, c ≠ '#' ∧ isBreak c = false) :
    ∃ s : Scan, s.InRow [] row ∧
      (({ feed, current := some ([], row) } : Scan).indentation row = (none, s) ∨
        ∃ x : Lexeme, x.tag = .indent ∧
          ({ feed, current := some ([], row) } : Scan).indentation row = (some x, s)) := by
  obtain ⟨c, hc, hcomment, hbreak⟩ := hhead
  have hcontent : (text.head?.all fun c ↦ c = '#' || isBreak c) = false := by
    rw [hc]
    simp [hcomment, hbreak]
  simp only [Scan.indentation, hspan, hcontent, Bool.false_eq_true, if_false, List.headD_nil]
  by_cases hwidth : 0 < marginWidth margin
  · exact ⟨_, ⟨rfl, rfl, rfl, rfl, rfl, rfl⟩, .inr ⟨_, rfl, by rw [if_pos hwidth]⟩⟩
  · obtain hzero : marginWidth margin = 0 := by omega
    refine ⟨{ feed, current := some ([], row), atStart := false }, ⟨rfl, rfl, rfl, rfl, rfl, rfl⟩, .inl ?_⟩
    simp [hzero]

/-- **Reading starts behind the margin of the row.** The margin is a token of its own; a block that it
opens costs one lexeme. -/
theorem readWithin_start {source : Source} {first : Nat} {margin word r : Text}
    (hrow : source[first]? = some (some (margin ++ (word ++ r)))) (hmargin : ∀ c ∈ margin, isGap c = true)
    (hword : Named word) (hr : Apart r) :
    ∃ (k : Nat) (s : Scan) (d : Draft), k ≤ 1 ∧ s.InRow margin (word ++ r) ∧
      d.InRow (marginTokens margin) {} ∧
      ∀ n, (readWithin (n + 1 + k) (Scan.start source first) {}).1 = (readWithin (n + 1) s d).1 := by
  obtain ⟨c, t, rfl, hc, ht⟩ := hword
  obtain ⟨hgap, hcomment, hbreak⟩ := isGap_eq_false hc
  have hspan : (margin ++ (c :: t ++ r)).span isGap = (margin, c :: t ++ r) :=
    span_eq_of_all hmargin (by rintro e ⟨⟩; exact hgap)
  obtain ⟨feed, hload⟩ : ∃ feed, (Scan.start source first).load =
      { feed, current := some ([], margin ++ (c :: t ++ r)) } := by
    cases margin with
    | nil => exact load_start hrow
    | cons e margin => exact load_start hrow
  obtain ⟨s₀, hs₀, hindent⟩ := indentation_start feed hspan ⟨c, rfl, hcomment, hbreak⟩
  obtain ⟨s, hs, hplain, hnext⟩ := hs₀.gap hmargin
  rw [List.nil_append] at hs hplain
  obtain ⟨s', hword, hs'⟩ := hs.word ⟨c, t, rfl, hc, ht⟩ hr
  -- the first word writes the margin
  have hlayout : ({} : Draft).take s'.rows (lexemeAt .name margin (c :: t)) =
      ({ written := marginTokens margin, begunRow := some 0 } : Draft).take s'.rows
        (lexemeAt .name margin (c :: t)) := by
    rw [rows_of_inRow hs']
    show (Draft.layout [margin ++ c :: t ++ r] ⟨0, Text.bytes margin⟩ {}).name _ = _
    have hmargin : Text.toByte (Text.bytes margin) (margin ++ c :: t ++ r) = margin := by
      rw [List.append_assoc, Text.toByte_bytes_append]
    simp only [Draft.layout, List.getD_cons_zero, hmargin]
    cases margin with
    | nil => rfl
    | cons e margin => rfl
  have hread : ∀ n, (readWithin (n + 1) s₀ {}).1 =
      (readWithin (n + 1) s { written := marginTokens margin, begunRow := some 0 }).1 := by
    intro n
    rw [readWithin, readWithin, hnext, hs.next_eq hword]
    simp only [hlayout]
  have hd : ({ written := marginTokens margin, begunRow := some 0 } : Draft).InRow
      (marginTokens margin) {} := ⟨rfl, rfl, rfl, rfl⟩
  have hidle : (Scan.start source first).queued = [] := rfl
  have hawake : (Scan.start source first).exhausted = false := rfl
  rcases hindent with hindent | ⟨x, hx, hindent⟩
  · refine ⟨0, s, _, Nat.zero_le _, hs, hd, fun n ↦ ?_⟩
    have hstep : (Scan.start source first).step = (some (lexemeAt .name margin (c :: t)), s') := by
      simp only [Scan.step, hidle, hawake, hload, Bool.false_eq_true, if_false, if_true, hindent, hplain,
        hword]
    rw [← hread, readWithin, readWithin, Scan.next, Scan.nextWithin, hstep, hnext, hs.next_eq hword]
  · refine ⟨1, s, _, Nat.le_refl _, hs, hd, fun n ↦ ?_⟩
    have hstep : (Scan.start source first).step = (some x, s₀) := by
      simp only [Scan.step, hidle, hawake, hload, Bool.false_eq_true, if_false, if_true, hindent]
    have htake : ({} : Draft).take s₀.rows x = .ok {} := by
      show Draft.plain s₀.rows x {} = _
      rw [Draft.plain, hx]
    rw [← hread, readWithin, Scan.next, Scan.nextWithin, hstep]
    simp only [htake]
    rfl

/-- **The colon outside brackets completes the header**, if only blanks follow it. -/
theorem readWithin_close {s : Scan} {b tail : Text} (hs : s.InRow b (':' :: tail)) (hd : d.InRow w g)
    (hargs : g.inArguments = true) (hopen : g.openBrackets = 0) (htail : ∀ c ∈ tail, Text.isBlank c = true)
    (n : Nat) :
    (readWithin (n + 1) s d).1 =
      .ok ⟨(Token.of .endDefinition [':'] :: w).reverse ++ [Token.last], 1⟩ := by
  have hcalm : Calm tail := by
    intro c hc
    have hblank := htail c (List.mem_of_mem_head? hc)
    have hother : ∀ e ∈ "=*/.".toList, Text.isBlank e = false := by decide
    constructor
    · intro hmem
      rw [hother c hmem] at hblank
      exact absurd hblank (by simp)
    · cases hdigit : c.isDigit with
      | false => rfl
      | true =>
        have hspace : c ≠ ' ' := by
          rintro rfl
          exact absurd hdigit (by decide)
        simp only [Char.isDigit, Bool.and_eq_true, decide_eq_true_eq, ge_iff_le, UInt32.le_iff_toNat_le,
          show '0'.val.toNat = 48 from rfl, show '9'.val.toNat = 57 from rfl] at hdigit
        have hlow : c.toNat < 0x80 := Nat.lt_of_le_of_lt hdigit.2 (by decide)
        simp only [Text.isBlank, if_pos hlow, Bool.or_eq_true, Bool.and_eq_true, decide_eq_true_eq, hspace,
          false_or] at hblank
        exact absurd (Nat.le_trans hdigit.1 hblank.2) (by decide)
  have hcolon : s.InRow b ([':'] ++ tail) := hs
  obtain ⟨s', hnext, hs'⟩ := hcolon.op (by decide) (.inr hcalm)
  have hclose : d.take s'.rows (lexemeAt .op b [':']) =
      .ok (({ d.push .endDefinition [':'] with annotationDepth := 0, mode := .complete } : Draft).reach
        ⟨0, Text.bytes (b ++ [':'])⟩) := by
    rw [hd.take_eq, Draft.plain]
    dsimp only [lexemeAt]
    rw [hd.layout_eq rfl, Draft.op, hd.inArguments_eq, hargs, hd.openBrackets_eq, hopen, if_pos (by rfl),
      Draft.close, rows_of_inRow hs']
    dsimp only
    rw [if_pos]
    rw [List.getD_cons_zero, Text.fromByte_bytes_append, List.all_eq_true]
    intro c hc
    have hsuffix := (List.dropWhile_suffix (fun c ↦ c = '\r' || c = '\n')).mem (List.mem_reverse.1 hc)
    exact htail c (List.mem_reverse.1 hsuffix)
  rw [readWithin, hnext]
  simp only [hclose]
  rw [if_pos (by rfl), rows_of_inRow hs']
  simp [Draft.tokens, Draft.reach, Draft.push, hd.written_eq]

theorem length_le_weight {source : Source} {first : Nat} {row : Text}
    (hrow : source[first]? = some (some row)) : row.length ≤ (Scan.start source first).weight := by
  obtain ⟨hlt, hget⟩ := List.getElem?_eq_some_iff.1 hrow
  have hdrop : source.drop first = some row :: source.drop (first + 1) := by
    rw [List.drop_eq_getElem_cons hlt, hget]
  simp only [Scan.weight, Scan.start, Feed.start, hdrop, Scan.sourceWeight, Option.getD_some]
  omega

/-- **A header in one row is read** when reading goes over its text and only the closing colon and blanks
are left. -/
theorem read_row {source : Source} {first : Nat} {margin word rest tail : Text} {P : Text → Prop}
    (hrow : source[first]? = some (some (margin ++ (word ++ rest ++ ':' :: tail))))
    (hmargin : ∀ c ∈ margin, isGap c = true) (hword : Named word) (hrest : Apart (rest ++ ':' :: tail))
    (htail : ∀ c ∈ tail, Text.isBlank c = true)
    (hcross : Crosses (word ++ rest) P (marginTokens margin) w {} g) (hP : P (':' :: tail))
    (hargs : g.inArguments = true) (hopen : g.openBrackets = 0) :
    (read source first).1 = .ok ⟨(Token.of .endDefinition [':'] :: w).reverse ++ [Token.last], 1⟩ := by
  have hlength := length_le_weight hrow
  rw [List.append_assoc word] at hrow
  obtain ⟨k, s, d, hk, hs, hd, hstart⟩ := readWithin_start hrow hmargin hword hrest
  rw [← List.append_assoc word] at hs
  obtain ⟨k', s', d', hk', hs', hd', hread⟩ := hcross hs hd hP
  -- one lexeme for the block, one for the colon, and at most one for each character between them
  simp only [List.length_append, List.length_cons] at hlength hk'
  have hword : 0 < word.length := by
    obtain ⟨c, t, rfl, -⟩ := hword
    simp
  obtain ⟨n, hn⟩ : ∃ n, (Scan.start source first).weight + 1 = n + 1 + k' + k :=
    ⟨(Scan.start source first).weight - k' - k, by omega⟩
  have hsucc : n + 1 + k' = n + k' + 1 := by omega
  show (readWithin ((Scan.start source first).weight + 1) (Scan.start source first) {}).1 = _
  rw [hn, hsucc, hstart, ← hsucc, hread]
  exact readWithin_close hs' hd' hargs hopen htail n

end Header

end HeaderHints
