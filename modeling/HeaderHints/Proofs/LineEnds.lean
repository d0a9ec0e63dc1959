import HeaderHints.Proofs.ArgumentSteps
import HeaderHints.Proofs.MergedEdits

/-!
# Line ends around a header

A header that is filled in comes without the line break of its last row, and an edit ends it with a line feed.
`Suggestion.edits_keep_line_ends` says what becomes of the line ends of a document when a header is replaced: the
rows around the header come out as they are, and so does the line feed behind it. An open last row is closed.

What has to be known for this is that the text of a filled header does not end in a line break itself
(`Suggestion.unbroken_of_fill`). It ends in the closing colon, or in the rest of the row of the colon, from which
the line break has been taken off (`Header.closing_of_read`): the tokens at the end are written one after the
other, and no annotation that is read as a type reaches over the colon (`Header.Closing.suffix_of_derives`).
-/

namespace HeaderHints

/-! ### Line breaks -/

namespace Text

variable {t : Text}

/-- The line break at the end of a text: a line feed, with a carriage return if one is before it. -/
def lineEnd (t : Text) : Text :=
  match t.reverse with
  | '\n' :: '\r' :: _ => ['\r', '\n']
  | '\n' :: _ => ['\n']
  | _ => []

theorem withoutBreak_append_lineEnd (t : Text) : withoutBreak t ++ lineEnd t = t := by
  obtain ⟨r, rfl⟩ : ∃ r, t = List.reverse r := ⟨t.reverse, by simp⟩
  unfold withoutBreak lineEnd
  rw [List.reverse_reverse]
  split <;> simp

theorem lineEnd_ne_nil (h : t.getLast? = some '\n') : lineEnd t ≠ [] := by
  obtain ⟨front, rfl⟩ := List.getLast?_eq_some_iff.1 h
  unfold lineEnd
  rw [List.reverse_append]
  split <;> simp_all

/-- A text whose last character is not part of a line break. -/
def Unbroken (t : Text) : Prop :=
  ∃ front c, t = front ++ [c] ∧ c ≠ '\r' ∧ c ≠ '\n'

theorem Unbroken.append (h : Unbroken t) (u : Text) : Unbroken (u ++ t) := by
  obtain ⟨front, c, rfl, hc⟩ := h
  exact ⟨u ++ front, c, by simp, hc⟩

theorem Unbroken.ne_nil (h : Unbroken t) : t ≠ [] := by
  obtain ⟨front, c, rfl, -⟩ := h
  simp

theorem Unbroken.lineEnd_feed (h : Unbroken t) : lineEnd (t ++ ['\n']) = ['\n'] := by
  obtain ⟨front, c, rfl, hr, -⟩ := h
  simp [lineEnd, hr]

theorem Unbroken.withoutBreak_feed (h : Unbroken t) : withoutBreak (t ++ ['\n']) = t := by
  have hsplit := withoutBreak_append_lineEnd (t ++ ['\n'])
  rw [h.lineEnd_feed] at hsplit
  exact List.append_cancel_right hsplit

/-- What is left when the line breaks at the end of a text are taken off. -/
theorem unbroken_trimmed (h : (t.reverse.dropWhile fun c ↦ c = '\r' || c = '\n').reverse ≠ []) :
    Unbroken (t.reverse.dropWhile fun c ↦ c = '\r' || c = '\n').reverse := by
  match hrest : t.reverse.dropWhile fun c ↦ c = '\r' || c = '\n' with
  | [] => exact absurd (by rw [hrest]; rfl) h
  | c :: rest =>
    have hc := List.head_dropWhile_not (fun c ↦ c = '\r' || c = '\n') (l := t.reverse) (by simp [hrest])
    simp only [hrest, List.head_cons, Bool.or_eq_false_iff, decide_eq_false_iff_not] at hc
    exact ⟨rest.reverse, c, by simp, hc⟩

end Text

namespace Header

open Text

/-! ### The end of a header -/

/-- The colon that closes a header. -/
def closingColon : Token :=
  .of .endDefinition [':']

/-- `ts` is the end of a header, from the colon that closes it on, and `t` is its last token before the end token:
the colon itself, or the rest of the row of the colon without its line break. -/
inductive Closing : List Token → Token → Prop
  | colon : Closing [closingColon, Token.last] closingColon
  | tail {text : Text} : Unbroken text →
      Closing [closingColon, .of .endSeparator text, Token.last] (.of .endSeparator text)

variable {types : Types} {ts rest closing front : List Token} {t u : Token} {out text : Text}

namespace Closing

theorem kind (h : Closing closing t) : t.kind = .endDefinition ∨ t.kind = .endSeparator := by
  cases h with
  | colon => exact .inl rfl
  | tail => exact .inr rfl

theorem suffix (h : Closing closing t) : [t, Token.last] <:+ closing := by
  cases h with
  | colon => exact List.suffix_rfl
  | tail => exact List.suffix_cons _ _

theorem unbroken (h : Closing closing t) : Unbroken t.text := by
  cases h with
  | colon => exact ⟨[], ':', rfl, by decide⟩
  | tail htext => exact htext

/-- The last token is written as it stands. -/
theorem unbroken_write (h : Closing closing t) (out : Text) : Unbroken (write out t) := by
  have hspelling : spelling t = t.text := by
    rcases h.kind with hk | hk <;> simp [spelling, hk]
  rw [write_eq (by rcases h.kind with hk | hk <;> simp [hk]), hspelling]
  exact h.unbroken.append _

/-- Another token in front of the end of a header is not part of it. -/
theorem suffix_of_cons (h : Closing closing t) (hsuffix : closing <:+ u :: ts) (hu : u ≠ closingColon) :
    closing <:+ ts := by
  rcases List.suffix_cons_iff.1 hsuffix with heq | hsuffix
  · cases h <;> exact absurd (List.cons_eq_cons.1 heq).1.symm hu
  · exact hsuffix

/-- What follows the arrow of a return annotation has the end of the header in it. -/
theorem suffix_of_arrow (h : Closing closing t) (hclosing : closing <:+ ts) (hu : u.kind = .returnTypeDef)
    (hsuffix : u :: rest <:+ ts) : closing <:+ rest := by
  have hmem : u ∉ closing := by
    intro hmem
    cases h with
    | colon => rcases List.mem_pair.1 hmem with rfl | rfl <;> exact absurd hu (by decide)
    | tail =>
      rcases List.mem_cons.1 hmem with rfl | hmem
      · exact absurd hu (by decide)
      · rcases List.mem_pair.1 hmem with rfl | rfl <;> exact absurd hu (by simp [Token.of, Token.last])
  rcases List.suffix_or_suffix_of_suffix hclosing hsuffix with hle | hle
  · rcases List.suffix_cons_iff.1 hle with rfl | hle
    · exact absurd List.mem_cons_self hmem
    · exact hle
  · exact absurd (hle.subset List.mem_cons_self) hmem

theorem ne_of_text (ht : u.text ≠ [':']) : u ≠ closingColon := by
  rintro rfl
  exact ht rfl

theorem ne_of_isA {wanted : Token.Kind} (hk : u.isA wanted = true)
    (hwanted : Token.Kind.endDefinition.isA wanted = false) : u ≠ closingColon := by
  rintro rfl
  exact absurd (hk.symm.trans hwanted) (by simp)

theorem ne_of_name (hk : u.isA .dottedName = true) : u ≠ closingColon :=
  ne_of_isA hk rfl

open TypeExpr in
/-- **A type does not reach over the closing colon.** -/
theorem suffix_of_derives {p : Part} {trees : List TypeExpr} (h : Closing closing t)
    (hderives : Derives p ts trees rest) (hp : Bracketing p) (hsuffix : closing <:+ ts) : closing <:+ rest := by
  have hbracket : ∀ {u : Token}, u.text = ['('] ∨ u.text = ['['] ∨ u.text = [')'] ∨ u.text = [']'] →
      u ≠ closingColon := fun hu ↦ ne_of_text (by rcases hu with hu | hu | hu | hu <;> simp [hu])
  induction hderives with
  | list _ _ ih => exact ih ⟨.inr rfl, .inr rfl⟩ hsuffix
  | any hk _ => exact h.suffix_of_cons hsuffix (ne_of_name hk)
  | noReturn hk _ => exact h.suffix_of_cons hsuffix (ne_of_name hk)
  | tuple hk _ _ ih => exact ih ⟨.inr rfl, .inr rfl⟩ (h.suffix_of_cons hsuffix (ne_of_name hk))
  | union hk _ _ _ ih => exact ih ⟨.inr rfl, .inr rfl⟩ (h.suffix_of_cons hsuffix (ne_of_name hk))
  | lambda hk _ hbody =>
    exact h.suffix_of_cons (h.suffix_of_cons hsuffix (ne_of_name hk)) (ne_of_isA hbody rfl)
  | overload hk _ _ ih => exact ih ⟨.inl rfl, .inl rfl⟩ (h.suffix_of_cons hsuffix (ne_of_name hk))
  | applied hk _ _ _ _ ih => exact ih ⟨.inr rfl, .inr rfl⟩ (h.suffix_of_cons hsuffix (ne_of_name hk))
  | leaf hk _ _ _ => exact h.suffix_of_cons hsuffix (ne_of_name hk)
  | bracketed hopen _ hclose ih =>
    obtain ⟨hopening, hclosing⟩ := hp
    have hitems := ih trivial (h.suffix_of_cons hsuffix (hbracket (by rw [hopen]; tauto)))
    exact h.suffix_of_cons hitems (hbracket (by rw [hclose]; tauto))
  | itemsEnd _ => exact hsuffix
  | itemsComma _ _ hcomma _ ih ih' =>
    exact ih' trivial (h.suffix_of_cons (ih trivial hsuffix) (ne_of_text (by simp [hcomma])))
  | itemsLast _ _ _ ih => exact ih trivial hsuffix
  | choicesBar _ hbar _ ih ih' =>
    exact ih' trivial (h.suffix_of_cons (ih trivial hsuffix) (ne_of_text (by simp [hbar])))
  | choicesLast _ _ ih => exact ih trivial hsuffix

end Closing

/-- The rest of the row of the colon is taken in without its line break. -/
theorem Draft.close_closing (d : Draft) (rows : List Text) {x : Lexeme} (hx : x.text = [':']) :
    ∃ closing t, Closing closing t ∧ (d.close rows x).tokens = d.written.reverse ++ closing := by
  unfold Draft.close Draft.tokens
  dsimp only
  generalize fromByte x.stop.col (rows.getD x.stop.row []) = row
  split
  · exact ⟨_, _, .colon, by simp [Draft.push, Draft.reach, closingColon, hx]⟩
  · rename_i hblank
    refine ⟨_, _, .tail (unbroken_trimmed (t := row) ?_), by simp [Draft.push, Draft.reach, closingColon, hx]⟩
    intro hnil
    rw [hnil] at hblank
    exact hblank rfl

/-- **How a header ends.** -/
theorem closing_of_read {source : Source} {first : Nat} {header : Header}
    (h : (read source first).1 = .ok header) : ∃ closing t, Closing closing t ∧ closing <:+ header.tokens := by
  obtain ⟨s, d, hr, hd, rfl⟩ := exists_reading_of_read h
  cases hr with
  | start => exact absurd hd (by simp [Draft.isComplete])
  | quiet _ hd' _ => exact absurd (hd.symm.trans hd') (by simp)
  | take _ hd₀ _ htake =>
    obtain ⟨-, htext, d₀, hclose⟩ := colon_of_complete hd₀ htake hd
    obtain ⟨closing, t, hclosing, htokens⟩ := d₀.close_closing s.rows htext
    exact ⟨closing, t, hclosing, by rw [hclose, htokens]; exact List.suffix_append _ _⟩

/-! ### What is written last -/

/-- The rest is copied to the last token. -/
theorem copyRest_last (hstop : ∀ u ∈ front ++ [t], u.kind ≠ .stop)
    (h : Filling.copyRest out (front ++ [t, Token.last]) = .ok text) : ∃ out', text = write out' t := by
  obtain ⟨tail, last, junk, hsplit, hlast, -, rfl⟩ := Filling.copyRest_ok h
  have heq : tail ++ last :: junk = (front ++ [t]) ++ Token.last :: [] := by simp [← hsplit]
  obtain ⟨rfl, -, -⟩ := split_unique (P := fun u : Token ↦ u.kind = .stop) heq hlast hstop (by simp)
  exact ⟨front.foldl write out, by simp⟩

theorem Closing.copyText_last (h : Closing closing t) (openers : List Text) (out : Text) (front : List Token) :
    ∃ out', copyText openers out (front ++ [t]) = write out' t := by
  induction front generalizing openers out with
  | nil => exact ⟨out, by rcases h.kind with hk | hk <;> simp [copyText, copyToken, hk]⟩
  | cons u front ih => exact ih _ _

section Last

-- `ts` are the tokens of a header without the end token
variable (hclosing : Closing closing t) (hstop : ∀ u ∈ ts, u.kind ≠ .stop)

include hclosing hstop

theorem Closing.unbroken_copyRest (hlast : [t, Token.last] <:+ rest) (hrest : rest <:+ ts ++ [Token.last])
    (h : Filling.copyRest out rest = .ok text) : Unbroken text := by
  obtain ⟨front, rfl⟩ := hlast
  obtain ⟨before, hbefore⟩ := hrest
  have hts : before ++ (front ++ [t]) = ts := by
    have hall : (before ++ (front ++ [t])) ++ [Token.last] = ts ++ [Token.last] := by simp [← hbefore]
    exact List.append_cancel_right hall
  obtain ⟨out', rfl⟩ := copyRest_last (fun u hu ↦ hstop u (hts ▸ List.mem_append_right _ hu)) h
  exact hclosing.unbroken_write out'

/-- Whether the return annotation is copied or rendered, the last token is written last. -/
theorem Closing.unbroken_annotation {modules : Modules} {f f' : Filling} (hsuffix : closing <:+ f.rest)
    (hrest : f.rest <:+ ts ++ [Token.last]) (hwrite : f.writeAnnotation modules = .ok f')
    (h : Filling.copyRest f'.out f'.rest = .ok text) : Unbroken text := by
  rcases Filling.renderOrCopy_cases hwrite with ⟨rest, out, hcopy, rfl⟩ | ⟨_, u, more, htakes, -, rfl⟩
  · obtain ⟨region, hregion, -, ⟨u, more, rfl, -⟩, rfl⟩ := copy_ok hcopy
    obtain ⟨front, hfront⟩ := hclosing.suffix.trans hsuffix
    rw [hregion] at hfront hrest
    rcases List.append_eq_append_iff.1 hfront with ⟨w, hw, hmore⟩ | ⟨w, -, hmore⟩
    · match w with
      | [] => exact hclosing.unbroken_copyRest hstop ⟨[], hmore⟩ ((List.suffix_append _ _).trans hrest) h
      | [_] =>
        -- everything before the end token has been copied
        simp only [List.cons_append, List.nil_append, List.cons.injEq] at hmore
        obtain ⟨rfl, rfl, -⟩ := hmore
        obtain ⟨out', hout⟩ := hclosing.copyText_last [] f.out front
        have htext : copyText [] f.out region = text := Except.ok.inj h
        rw [← htext, hw, hout]
        exact hclosing.unbroken_write out'
      | [_, _] | _ :: _ :: _ :: _ => simp at hmore
    · exact hclosing.unbroken_copyRest hstop ⟨w, hmore.symm⟩ ((List.suffix_append _ _).trans hrest) h
  · obtain ⟨tree, hread, -⟩ := Reader.takes_map.1 htakes
    obtain ⟨choices, hderives, -⟩ := TypeExpr.read_takes_iff.1 hread
    have hclosing' := hclosing.suffix_of_derives hderives trivial hsuffix
    exact hclosing.unbroken_copyRest hstop (hclosing.suffix.trans hclosing')
      ((TypeExpr.suffix_of_derives hderives).trans hrest) h

end Last

/-- **A header that is filled in does not end in a line break.** -/
theorem unbroken_of_fill {written : List Token} (hfinished : Finished written) (hclosing : Closing closing t)
    (hsuffix : closing <:+ written.reverse ++ [Token.last])
    (h : fill types (written.reverse ++ [Token.last]) = .ok text) : Unbroken text := by
  have hruns := runs_of_finished hfinished
  have hstop : ∀ u ∈ written.reverse, u.kind ≠ .stop := fun u hu hk ↦ by
    have hproper := proper_of_finished hfinished u (List.mem_reverse.1 hu)
    simp [Proper, hk] at hproper
  unfold fill at h
  obtain ⟨f, hopening, h₁⟩ := bind_eq_ok.1 h
  obtain ⟨ps, -, h₂⟩ := bind_eq_ok.1 h₁
  obtain ⟨f', harguments, hfinish⟩ := bind_eq_ok.1 h₂
  obtain ⟨opening, bracket, htokens, -⟩ := Filling.copyOpening_ok hopening
  obtain ⟨g, before, hruns', hg⟩ := hruns.arguments hopening rfl rfl
  obtain ⟨steps, closer, hsteps, -⟩ := fillArguments_walks harguments hruns' hg
  have hsteps : f.rest = steps.flatMap Step.tokens ++ closer :: f'.rest := hsteps
  obtain ⟨layout, u, after, hrest, -, hcases⟩ := Filling.finish_ok hfinish
  have hafter : u :: after <:+ written.reverse ++ [Token.last] :=
    ⟨opening ++ bracket :: (steps.flatMap Step.tokens ++ closer :: layout), by
      rw [htokens, hsteps, hrest]
      simp⟩
  rcases hcases with ⟨hcolon, result, -, hcopy⟩ | ⟨harrow, f₁, hwrite, hcopy⟩
  · have hcopy : Filling.copyRest (writeArrow (layout.foldl write f'.out) ++ result) (u :: after) = .ok text := by
      rw [Filling.copyRest, if_neg (by simp [hcolon])]
      exact hcopy
    refine hclosing.unbroken_copyRest hstop ?_ hafter hcopy
    rcases List.suffix_or_suffix_of_suffix (hclosing.suffix.trans hsuffix) hafter with hle | hle
    · exact hle
    rcases List.suffix_cons_iff.1 hle with heq | hle
    · exact ⟨[], heq.symm⟩
    · obtain rfl : u = Token.last := by simpa using hle.subset List.mem_cons_self
      exact absurd hcolon (by decide)
  · exact hclosing.unbroken_annotation hstop (hclosing.suffix_of_arrow hsuffix harrow hafter)
      ((List.suffix_cons _ _).trans hafter) hwrite hcopy

end Header

namespace Suggestion

open Text

variable {ss : List Suggestion} {s : Suggestion} {style : Style} {e : Edit} {t : Text} {filled : Filled}

/-- **A filled header does not end in a line break.** -/
theorem unbroken_of_fill (h : (s.fill (Document.ofText t).source).1 = .ok filled) : Unbroken filled.text := by
  obtain ⟨header, hread, -⟩ := lineCount_of_fill h
  have hread : (Header.read (Document.ofText t).source s.line).1 = .ok header := by rw [hread]
  obtain ⟨closing, last, hclosing, hsuffix⟩ := Header.closing_of_read hread
  obtain ⟨written, hwritten, hfinished⟩ := Header.finished_of_read (Document.source_lined t) hread
  obtain ⟨types, -, hfill, -⟩ := fill_of_read hread h
  rw [hwritten] at hsuffix hfill
  exact Header.unbroken_of_fill hfinished hclosing hsuffix hfill

/-! ### Edits that replace a header -/

/-- What an edit writes in the place of a header: the header filled in, and a line feed. -/
theorem exists_filled_of_replace {d : Document} (h : e ∈ edits ss d style) (hreplace : e.replace = true) :
    ∃ s ∈ ss, ∃ filled, s.line = e.startLine ∧ (s.fill d.source).1 = .ok filled ∧
      e.text = filled.text ++ ['\n'] ∧ 1 ≤ e.lineCount ∧ e.startLine + e.lineCount ≤ d.length := by
  obtain ⟨-, hcount, -, -, hreplaces, htext⟩ := merge?_ok (mem_edits.1 h)
  obtain ⟨-, filled, hblock, ⟨s, hs, hfilled⟩, hagreed⟩ :=
    agreed_of_replaces (fun s hs ↦ (mem_filter_line.1 hs).2) (hreplaces.symm.trans hreplace)
  rw [hreplace, Bool.true_or, if_pos rfl, hblock] at htext
  have hspan : e.lineCount = filled.lineCount :=
    hcount.trans (span_eq hs hfilled fun s hs filled' hfilled' ↦ by rw [(hagreed s hs filled' hfilled').1])
  obtain ⟨-, hfill, -⟩ := hagreed s hs filled hfilled
  obtain ⟨hmem, hline⟩ := mem_filter_line.1 hs
  obtain ⟨-, hbounds⟩ := asked_of_fill hfill
  rw [hline, ← hspan] at hbounds
  exact ⟨s, hmem, filled, hline, hfill, htext, hbounds⟩

/-- Rows of a document that another row follows end in a line feed. -/
theorem getLast?_joined {start count : Nat} (hcount : 1 ≤ count) (h : start + count < (Document.ofText t).length) :
    ((Document.ofText t).joined start count).getLast? = some '\n' := by
  obtain ⟨n, rfl⟩ := Nat.exists_eq_add_of_le' hcount
  have hlt : start + n < (rows t).length := by
    rw [Document.ofText] at h
    omega
  have hrows : rows t = (rows t).take (start + n) ++ (rows t)[start + n] :: (rows t).drop (start + n + 1) := by
    rw [← List.drop_eq_getElem_cons hlt, List.take_append_drop]
  obtain ⟨body, hbody, -⟩ := isRow_of_rows hrows (.inl fun hnil ↦ by
    rw [List.drop_eq_nil_iff] at hnil
    exact absurd h (by rw [Document.ofText]; omega))
  rw [Document.ofText, Document.joined, List.take_add_one, List.getElem?_drop, List.getElem?_eq_getElem hlt, hbody]
  simp

/-- **Replacing a header keeps the line ends around it.** The document is what stands before a header, the text of
the header, its line end and what stands behind it. An edit that replaces the header writes a new text and a
line end in their place, and all that is before and behind comes out as it is, with its line ends of any kind.
Where the header ends in a line feed alone, the new line end is the same; where it has none, for the document
ends there, the new one is a line feed. -/
theorem edits_keep_line_ends (hword : (Document.ofText t).length < Decimal.wordSize)
    (h : e ∈ edits ss (.ofText t) style) (hreplace : e.replace = true) :
    ∃ s ∈ ss, ∃ filled before behind, s.line = e.startLine ∧
      (s.fill (Document.ofText t).source).1 = .ok filled ∧
      before = (Document.ofText t).joined 0 e.startLine ∧
      behind = (Document.ofText t).joined (e.startLine + e.lineCount)
        ((Document.ofText t).length - (e.startLine + e.lineCount)) ∧
      t = before ++ (currentText (.ofText t) e.startLine e.lineCount ++
        lineEnd ((Document.ofText t).joined e.startLine e.lineCount)) ++ behind ∧
      e.apply (.ofText t) = before ++ (filled.text ++ lineEnd e.text) ++ behind ∧
      (lineEnd ((Document.ofText t).joined e.startLine e.lineCount) = ['\n'] →
        lineEnd e.text = lineEnd ((Document.ofText t).joined e.startLine e.lineCount)) ∧
      (lineEnd ((Document.ofText t).joined e.startLine e.lineCount) = [] →
        lineEnd e.text = ['\n'] ∧ behind = []) := by
  obtain ⟨s, hs, filled, hline, hfill, htext, hpos, hle⟩ := exists_filled_of_replace h hreplace
  have hend : lineEnd e.text = ['\n'] := by rw [htext, (unbroken_of_fill hfill).lineEnd_feed]
  have hfits : e.Fits := fun _ ↦ hle.trans_lt hword
  refine ⟨s, hs, filled, _, _, hline, hfill, rfl, rfl, ?_, ?_, fun hfeed ↦ hend.trans hfeed.symm, fun hopen ↦
    ⟨hend, ?_⟩⟩
  · rw [currentText, withoutBreak_append_lineEnd, Document.joined_rest, Document.joined_zero, Document.joined,
      ← List.flatten_append, ← List.flatten_append, ← List.drop_drop]
    rw [List.append_assoc, List.take_append_drop, List.take_append_drop, Document.ofText, flatten_rows]
  · rw [Edit.apply_eq hfits, Edit.stop, if_pos hreplace, Document.joined_zero, Document.joined_rest, hend, htext]
  · -- only the last row of a document has no line break
    rcases hle.lt_or_eq with hlt | heq
    · exact absurd hopen (lineEnd_ne_nil (getLast?_joined hpos hlt))
    · rw [heq, Nat.sub_self]
      simp [Document.joined]

/-- The rows before the end of the header have carriage returns, and the document does not end in a line feed. -/
theorem edits_keep_line_ends_mixed :
    ∃ (t : Text) (e : Edit) (filled : Filled) (before behind : Text), e.replace = true ∧
      t = "#\r\ndef f(a,\r\n      b): pass\nf()".toList ∧
      e ∈ edits [⟨none, 1, none, 0, ["int".toList, "str".toList], "None".toList⟩] (.ofText t) { replace := true } ∧
      lineEnd ((Document.ofText t).joined e.startLine e.lineCount) = ['\n'] ∧
      t = before ++ (currentText (.ofText t) e.startLine e.lineCount ++ ['\n']) ++ behind ∧
      e.apply (.ofText t) = before ++ (filled.text ++ ['\n']) ++ behind ∧
      e.apply (.ofText t) = "#\r\ndef f(a: int,\r\n      b: str) -> None: pass\nf()".toList := by
  have hchanged : proposal? ⟨none, 1, none, 0, ["int".toList, "str".toList], "None".toList⟩
      (.ofText "#\r\ndef f(a,\r\n      b): pass\nf()".toList) { replace := true } =
      some ⟨"def f(a: int,\r\n      b: str) -> None: pass".toList, 2⟩ := by decide +kernel
  have hmem := mem_edits_of_agreed (List.mem_singleton_self _) rfl hchanged
    (List.forall_mem_singleton.2 fun _ ↦ .inr hchanged) (by decide) (by decide) (by decide) rfl
  obtain ⟨s, -, filled, before, behind, -, -, -, -, ht, happly, hfeed, -⟩ :=
    edits_keep_line_ends (by decide) hmem rfl
  have hlast : lineEnd ((Document.ofText "#\r\ndef f(a,\r\n      b): pass\nf()".toList).joined 1 2) = ['\n'] := by
    decide +kernel
  rw [hfeed hlast, hlast] at happly
  rw [hlast] at ht
  exact ⟨_, _, filled, before, behind, rfl, rfl, hmem, hlast, ht, happly, by decide +kernel⟩

/-- A line feed is added to an open last row, and it takes the place of a line feed with a carriage return. -/
theorem edits_change_line_end :
    (∃ e ∈ edits [⟨none, 0, none, 0, ["int".toList], "int".toList⟩] (.ofText "def f(a):".toList)
        { replace := true },
      e.replace = true ∧ e.apply (.ofText "def f(a):".toList) = "def f(a: int) -> int:\n".toList ∧
      lineEnd ((Document.ofText "def f(a):".toList).joined e.startLine e.lineCount) = [] ∧
      lineEnd e.text = ['\n']) ∧
    ∃ e ∈ edits [⟨none, 0, none, 0, ["int".toList], "int".toList⟩] (.ofText "def f(a):\r\n".toList)
        { replace := true },
      e.replace = true ∧ e.apply (.ofText "def f(a):\r\n".toList) = "def f(a: int) -> int:\n".toList ∧
      lineEnd ((Document.ofText "def f(a):\r\n".toList).joined e.startLine e.lineCount) = ['\r', '\n'] ∧
      lineEnd e.text = ['\n'] := by
  have hopen : proposal? ⟨none, 0, none, 0, ["int".toList], "int".toList⟩ (.ofText "def f(a):".toList)
      { replace := true } = some ⟨"def f(a: int) -> int:".toList, 1⟩ := by decide +kernel
  have hreturn : proposal? ⟨none, 0, none, 0, ["int".toList], "int".toList⟩ (.ofText "def f(a):\r\n".toList)
      { replace := true } = some ⟨"def f(a: int) -> int:".toList, 1⟩ := by decide +kernel
  refine ⟨⟨_, mem_edits_of_agreed (List.mem_singleton_self _) rfl hopen
      (List.forall_mem_singleton.2 fun _ ↦ .inr hopen) (by decide) (by decide) (by decide) rfl, rfl, ?_⟩,
    ⟨_, mem_edits_of_agreed (List.mem_singleton_self _) rfl hreturn
      (List.forall_mem_singleton.2 fun _ ↦ .inr hreturn) (by decide) (by decide) (by decide) rfl, rfl, ?_⟩⟩ <;>
    decide +kernel

end Suggestion

end HeaderHints
