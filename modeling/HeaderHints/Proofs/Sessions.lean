import HeaderHints.Proofs.LineEnds
import HeaderHints.Proofs.PlainRows
import HeaderHints.Proofs.SwappedRows

/-!
# Sessions

A session makes the edits of some suggestions, and then takes the same suggestions to the result, over and over.
For plain headers of one row and plain types the first step is all there is (`Suggestion.session_settles`): the
rows keep their numbers, so that the suggestions find their headers again, and a header that has been filled in
stays as it is.

Each step depends on the text of a header not being taken for a complaint. In the marker of a complaint a space
stands between two words, and in a header of one row no space stands between two words but behind `async` and
`def` (`RowHeader.unmarked_line`).
-/

namespace HeaderHints

/-! ### Rows without the marker of a complaint -/

namespace Text

variable {t u : Text} {before : Option Char}

/-- Whether a text is in one line, and each of its spaces differs from the first one of the marker of a complaint
within the text: another character than `r` stands before it, or another one than `g` behind it. The text goes on
from the character `before`, if there is one. -/
def unmarked (before : Option Char) : Text → Bool
  | [] => true
  | c :: t =>
    c ≠ '\n' && (c ≠ ' ' || before.any (· ≠ 'r') || t.head?.any (· ≠ 'g')) && unmarked (some c) t

theorem unmarked_of_none (h : unmarked none t = true) : unmarked before t = true := by
  cases t with
  | nil => rfl
  | cons c t =>
    simp only [unmarked, Bool.and_eq_true, Bool.or_eq_true, Option.any_none, Bool.false_eq_true, or_false] at h ⊢
    tauto

theorem unmarked_append (h : unmarked before t = true) (h' : unmarked none u = true) :
    unmarked before (t ++ u) = true := by
  induction t generalizing before with
  | nil => exact unmarked_of_none h'
  | cons c t ih =>
    simp only [unmarked, List.cons_append, Bool.and_eq_true, Bool.or_eq_true] at h ⊢
    refine ⟨⟨h.1.1, ?_⟩, ih h.2⟩
    -- what follows a space within the first text follows it still
    rcases h.1.2 with hc | hnext
    · exact .inl hc
    · cases t with
      | nil => exact absurd hnext (by simp)
      | cons d t => exact .inr hnext

theorem unmarked_word (h : ∀ c ∈ t, c ≠ ' ' ∧ c ≠ '\n') : unmarked before t = true := by
  induction t generalizing before with
  | nil => rfl
  | cons c t ih =>
    rw [List.forall_mem_cons] at h
    simp [unmarked, h.1, ih h.2]

theorem unmarked_intercalate {sep : Text} (hsep : unmarked none sep = true) {ts : List Text}
    (h : ∀ t ∈ ts, unmarked none t = true) : unmarked none (sep.intercalate ts) = true := by
  induction ts with
  | nil => rfl
  | cons t ts ih =>
    rw [List.forall_mem_cons] at h
    cases ts with
    | nil => simpa using h.1
    | cons u ts =>
      rw [List.intercalate_cons_cons]
      exact unmarked_append (unmarked_append h.1 hsep) (ih h.2)

theorem unmarked_indented (n : Nat) (h : unmarked none t = true) (hg : t.head?.any (· ≠ 'g') = true) :
    unmarked before (List.replicate n ' ' ++ t) = true := by
  induction n generalizing before with
  | zero => exact unmarked_of_none h
  | succ n ih =>
    have hnext : (List.replicate n ' ' ++ t).head?.any (· ≠ 'g') = true := by
      cases n with
      | zero => exact hg
      | succ n => rfl
    rw [List.replicate_succ, List.cons_append, unmarked, hnext, Bool.or_true, ih]
    rfl

theorem feed_not_mem_unmarked (h : unmarked before t = true) : '\n' ∉ t := by
  induction t generalizing before with
  | nil => simp
  | cons c t ih =>
    simp only [unmarked, Bool.and_eq_true, decide_eq_true_eq] at h
    rw [List.mem_cons, not_or]
    exact ⟨Ne.symm h.1.1, ih h.2⟩

theorem marker_not_infix (h : unmarked before t = true) : ¬ Suggestion.complaintMarker <:+: t := by
  have hspace : ['r', ' ', 'g'] <:+: Suggestion.complaintMarker :=
    ⟨"Erro".toList, "enerating suggestion: ".toList, rfl⟩
  intro hmarker
  replace hmarker := hspace.trans hmarker
  induction t generalizing before with
  | nil => simp at hmarker
  | cons c t ih =>
    rcases List.infix_cons_iff.1 hmarker with ⟨v, hv⟩ | hmarker
    · rw [← hv] at h
      simp [unmarked] at h
    · simp only [unmarked, Bool.and_eq_true] at h
      exact ih h.2 hmarker

end Text

open Header TypeExpr Text

/-- A text without spaces and line feeds. -/
def Unspaced (t : Text) : Prop :=
  ∀ c ∈ t, c ≠ ' ' ∧ c ≠ '\n'

theorem unspaced_of_isNamePart {t : Text} (h : ∀ c ∈ t, Lexeme.isNamePart c = true ∨ c = '.') : Unspaced t := by
  intro c hc
  constructor <;> rintro rfl <;> exact absurd (h _ hc) (by decide)

theorem unspaced_of_named {t : Text} (h : Lexeme.Named t) : Unspaced t :=
  unspaced_of_isNamePart fun c hc ↦ .inl (h.isNamePart c hc)

namespace TypeExpr

theorem unmarked_applied {name : Text} {args : List Text} (hname : Unspaced name)
    (hargs : ∀ t ∈ args, unmarked none t = true) : unmarked none (applied name args) = true := by
  unfold applied
  split
  · split
    · rfl
    · exact unmarked_word hname
  split
  · exact unmarked_intercalate (by decide) hargs
  split
  · exact unmarked_intercalate (by decide) hargs
  · exact unmarked_append (unmarked_append (unmarked_append (unmarked_word hname) (by decide))
      (unmarked_intercalate (by decide) hargs)) (by decide)

theorem AllNames.unmarked_render {t : TypeExpr} (modules : Modules) (h : t.AllNames Unspaced) :
    unmarked none (render modules t) = true := by
  induction h with
  | @node name args hname _ ih =>
    rw [render, renderAll_eq_map]
    refine unmarked_applied (forall_mem_displayName modules (by decide) hname) fun u hu ↦ ?_
    obtain ⟨t, ht, rfl⟩ := List.mem_map.1 hu
    exact ih t ht

theorem Plain.allNames_unspaced {modules : Modules} {t : TypeExpr} (h : t.Plain modules) :
    t.AllNames Unspaced := by
  induction h with
  | leaf hname _ _ =>
    refine .node ?_ (by simp)
    rcases hname with hname | rfl
    · exact unspaced_of_isNamePart hname.isNamePart_or
    · unfold Unspaced
      decide
  | applied hname _ _ _ _ _ ih => exact .node (unspaced_of_isNamePart hname.isNamePart_or) ih
  | list _ ih => exact .node (by simp [Unspaced]) ih
  | union _ _ _ ih => exact .node (by unfold Unspaced; decide) ih

end TypeExpr

theorem Item.unmarked_text {modules : Modules} {i : Item} (h : i.Usual (Plain modules)) :
    unmarked none (i.text modules) = true := by
  cases i with
  | marker mark => rcases h with rfl | rfl <;> rfl
  | named stars name hint value =>
    obtain ⟨hstars, hname, hhint, hvalue⟩ := h
    have hstars : unmarked none stars = true := by
      have hall : ∀ stars ∈ [[], ['*'], ['*', '*']], unmarked none stars = true := by decide
      exact hall stars hstars
    have hnamed : unmarked none (stars ++ name) = true :=
      unmarked_append hstars (unmarked_word (unspaced_of_named hname))
    refine unmarked_append (unmarked_append hnamed ?_) ?_
    · cases hint with
      | none => rfl
      | some t => exact unmarked_append (by decide) ((hhint t rfl).allNames_unspaced.unmarked_render modules)
    · cases value with
      | none => rfl
      | some v =>
        have hspace := (hvalue v rfl).notMem (c := ' ') (by decide)
        have hfeed := (hvalue v rfl).notMem (c := '\n') (by decide)
        exact unmarked_append (by decide) (unmarked_word fun c hc ↦
          ⟨fun heq ↦ hspace (heq ▸ hc), fun heq ↦ hfeed (heq ▸ hc)⟩)

namespace RowHeader

variable {modules : Modules} {h : RowHeader}

/-- **A plain header of one row is never taken for a complaint.** -/
theorem unmarked_line (hh : h.Usual (Plain modules)) : unmarked none (h.line modules) = true := by
  have hitems : ∀ t ∈ h.items.map (Item.text modules), unmarked none t = true := by
    rw [List.forall_mem_map]
    exact fun i hi ↦ Item.unmarked_text (hh.items i hi)
  have hresult : unmarked none (resultText modules h.result) = true := by
    cases hr : h.result with
    | none => rfl
    | some t => exact unmarked_append (by decide) ((hh.result t hr).allNames_unspaced.unmarked_render modules)
  have hbody : unmarked none (h.body modules) = true :=
    unmarked_append (by decide) <| unmarked_append (unmarked_word (unspaced_of_named hh.named)) <|
      unmarked_append (by decide) <| unmarked_append (unmarked_intercalate (by decide) hitems) <|
        unmarked_append (by decide) hresult
  refine unmarked_indented _ (unmarked_append ?_ (unmarked_append hbody (by decide))) ?_
  · split <;> decide
  · split <;> rfl

theorem unbroken_line (modules : Modules) (h : RowHeader) : Unbroken (h.line modules) := by
  have hcolon : Unbroken [':'] := ⟨[], ':', rfl, by decide⟩
  exact ((hcolon.append _).append _).append _

end RowHeader

/-! ### Plain suggestions -/

/-- The text of a type that reads as a plain type. -/
def ReadsPlain (text : Text) : Prop :=
  ∃ tokens tree, lex text = .ok tokens ∧ (readWhole.run.run tokens).1 = .ok tree ∧ tree.Plain []

theorem exists_readsAs {texts : List Text} (h : ∀ text ∈ texts, ReadsPlain text) :
    ∃ trees, List.Forall₂ ReadsAs texts trees ∧ ∀ t ∈ trees, t.Plain [] := by
  induction texts with
  | nil => exact ⟨[], .nil, by simp⟩
  | cons text texts ih =>
    rw [List.forall_mem_cons] at h
    obtain ⟨tokens, tree, hlex, hread, hplain⟩ := h.1
    obtain ⟨trees, hreads, htrees⟩ := ih h.2
    exact ⟨tree :: trees, .cons ⟨tokens, hlex, hread⟩ hreads, List.forall_mem_cons.2 ⟨hplain, htrees⟩⟩

namespace Suggestion

variable {ss : List Suggestion} {s : Suggestion} {d : Document} {style : Style} {t : Text}

/-- A suggestion with plain types for a plain header that takes up one row of a document. -/
structure PlainAt (d : Document) (s : Suggestion) : Prop where
  path_eq : s.path = none
  row : ∃ h : RowHeader, h.Usual (Plain []) ∧ d[s.line]? = some (h.line [] ++ ['\n'])
  types : ∀ text ∈ s.signature.returnType :: s.signature.argTypes, ReadsPlain text

/-- **What a plain suggestion settles on**: a header that it fills in, and that it fills in again to itself. -/
theorem PlainAt.exists_header (h : s.PlainAt d) :
    ∃ new : RowHeader, new.Usual (Plain []) ∧ (s.fill d.source).1 = .ok ⟨new.line [], 1⟩ ∧
      ∀ d' : Document, d'[s.line]? = some (new.line [] ++ ['\n']) →
        (s.fill d'.source).1 = .ok ⟨new.line [], 1⟩ := by
  obtain ⟨old, hold, hrow⟩ := h.row
  obtain ⟨types, hreads, hplain⟩ := exists_readsAs h.types
  obtain ⟨result, trees, hresult, hargs, rfl⟩ := List.forall₂_cons_left_iff.1 hreads
  have hnew : (old.filled trees result).Usual (Plain []) := hold.filled hplain
  have hbreak : ∀ c ∈ ['\n'], Text.isBlank c = true := by decide
  have hfills : ∀ {header : RowHeader} {d' : Document}, header.Usual (Plain []) →
      d'[s.line]? = some (header.line [] ++ ['\n']) →
      (s.fill d'.source).1 = .ok ⟨(header.filled trees result).line [], 1⟩ := by
    intro header d' hheader hrow'
    have hsource : d'.source[s.line]? = some (some (header.line [] ++ ['\n'])) := by
      rw [Document.source, List.getElem?_map, hrow']
      rfl
    have hfill := fill_readsAs hheader hbreak hsource hargs hresult
    rwa [h.path_eq] at hfill
  refine ⟨old.filled trees result, hnew, hfills hold hrow, fun d' hrow' ↦ ?_⟩
  rw [hfills hnew hrow', RowHeader.filled_filled hnew]

theorem currentText_row {i : Nat} {old : Text} (hrow : d[i]? = some (old ++ ['\n'])) (hold : Unbroken old) :
    currentText d i 1 = old := by
  have hjoined : d.joined i 1 = old ++ ['\n'] := by
    rw [Document.joined, List.take_one, List.head?_drop, hrow]
    simp
  rw [currentText, hjoined, hold.withoutBreak_feed]

/-- What is proposed for a header that takes up one row. -/
theorem proposal?_row {old new : Text} (hrow : d[s.line]? = some (old ++ ['\n'])) (hold : Unbroken old)
    (hfill : (s.fill d.source).1 = .ok ⟨new, 1⟩) :
    s.proposal? d style = if new = old then none else some ⟨new, 1⟩ := by
  rw [proposal?, hfill]
  dsimp only
  rw [currentText_row hrow hold]

/-- Suggestions with one signature are filled in alike. -/
theorem fill_congr {s' : Suggestion} (hline : s'.line = s.line) (hpath : s'.path = s.path)
    (hsignature : s'.signature = s.signature) (source : Source) : s'.fill source = s.fill source := by
  unfold fill fillHeader Suggestion.types
  rw [hline, hpath, hsignature]

/-- Plain suggestions of which those for the same line have the same signature. -/
structure PlainSession (ss : List Suggestion) (d : Document) : Prop where
  plain : ∀ s ∈ ss, s.PlainAt d
  agree : ∀ s ∈ ss, ∀ s' ∈ ss, s'.line = s.line → s'.signature = s.signature

/-- **What a session makes of a row**: the header filled in takes the place of the old one, and is proposed no
more. -/
theorem PlainSession.exists_row (h : PlainSession ss d) (hstyle : style.replace = true) (hs : s ∈ ss) :
    ∃ old new : Text, d[s.line]? = some (old ++ ['\n']) ∧ IsRow (old ++ ['\n']) ∧ IsRow (new ++ ['\n']) ∧
      (s.fill d.source).1 = .ok ⟨new, 1⟩ ∧
      (∀ d' : Document, d'[s.line]? = some (new ++ ['\n']) → s.proposal? d' style = none) ∧
      merge? (ss.filter (·.line = s.line)) d style =
        if new = old then none else some ⟨s.line, 1, new ++ ['\n'], true⟩ := by
  obtain ⟨old, hold, hrow⟩ := (h.plain s hs).row
  obtain ⟨new, hnew, hfill, hagain⟩ := (h.plain s hs).exists_header
  have hunmarked := RowHeader.unmarked_line hnew
  refine ⟨old.line [], new.line [], hrow, ⟨_, rfl, feed_not_mem_unmarked (RowHeader.unmarked_line hold)⟩,
    ⟨_, rfl, feed_not_mem_unmarked hunmarked⟩, hfill, fun d' hrow' ↦ ?_, ?_⟩
  · rw [proposal?_row hrow' (RowHeader.unbroken_line [] new) (hagain d' hrow'), if_pos rfl]
  -- all suggestions for the line propose the same
  have hproposal : ∀ s' ∈ ss.filter (·.line = s.line),
      s'.proposal? d style = if new.line [] = old.line [] then none else some ⟨new.line [], 1⟩ := by
    intro s' hs'
    obtain ⟨hmem, hline⟩ := mem_filter_line.1 hs'
    have hpath : s'.path = s.path := (h.plain s' hmem).path_eq.trans (h.plain s hs).path_eq.symm
    have hfill' := fill_congr hline hpath (h.agree s hs s' hmem hline) d.source
    exact proposal?_row (hline ▸ hrow) (RowHeader.unbroken_line [] old) (hfill' ▸ hfill)
  split
  · rename_i hsame
    exact merge?_of_unchanged fun s' hs' ↦ by rw [hproposal s' hs', if_pos hsame]
  · rename_i hchanged
    simp only [if_neg hchanged] at hproposal
    have hmem : s ∈ ss.filter (·.line = s.line) := mem_filter_line.2 ⟨hs, rfl⟩
    refine merge?_of_agreed (fun s' hs' ↦ (mem_filter_line.1 hs').2) hmem (hproposal s hmem)
      (fun s' hs' ↦ .inr (hproposal s' hs')) (RowHeader.unbroken_line [] new).ne_nil ?_ ?_ hstyle
    · rwa [currentText_row hrow (RowHeader.unbroken_line [] old)]
    · rw [← Bool.not_eq_true, holds_iff]
      exact marker_not_infix hunmarked

/-- The document after the edits of some suggestions are made. -/
def revised (ss : List Suggestion) (style : Style) (t : Text) : Text :=
  Edit.applyAll (edits ss (.ofText t) style) (.ofText t)

theorem PlainSession.swaps (h : PlainSession ss d) (hstyle : style.replace = true) {e : Edit}
    (he : e ∈ edits ss d style) : e.Swaps d ∧ ∃ s ∈ ss, s.line = e.startLine := by
  have hmerge := mem_edits.1 he
  obtain ⟨⟨s, rest, hgroup, hstart⟩, -⟩ := merge?_ok hmerge
  have hs : s ∈ ss := List.mem_of_mem_filter (hgroup ▸ List.mem_cons_self)
  obtain ⟨old, new, hrow, hold, hnew, -, -, hline⟩ := h.exists_row hstyle hs
  rw [hstart, hline] at hmerge
  split at hmerge
  · exact absurd hmerge (by simp)
  · obtain rfl := Option.some.inj hmerge
    exact ⟨⟨rfl, rfl, hnew, _, hrow, hold⟩, s, hs, rfl⟩

theorem PlainSession.rows_revised (hword : (Document.ofText t).length < Decimal.wordSize)
    (hstyle : style.replace = true) (h : PlainSession ss (.ofText t)) :
    Document.ofText (revised ss style t) =
      Edit.setRows (Edit.lastFirst (edits ss (.ofText t) style)) (.ofText t) :=
  Edit.rows_applyAll hword fun _ he ↦ (h.swaps hstyle he).1

/-- The row of a header after a step, whether it has changed or not. -/
theorem PlainSession.row_revised (hword : (Document.ofText t).length < Decimal.wordSize)
    (hstyle : style.replace = true) (h : PlainSession ss (.ofText t)) (hs : s ∈ ss) :
    ∃ filled, (s.fill (Document.ofText t).source).1 = .ok filled ∧
      (Document.ofText (revised ss style t))[s.line]? = some (filled.text ++ ['\n']) ∧
      s.proposal? (.ofText (revised ss style t)) style = none := by
  obtain ⟨old, new, hrow, -, -, hfill, hnone, hmerge⟩ := h.exists_row hstyle hs
  have hmem : ∀ {e}, e ∈ Edit.lastFirst (edits ss (.ofText t) style) ↔
      merge? (ss.filter (·.line = e.startLine)) (.ofText t) style = some e :=
    (Edit.lastFirst_perm _).mem_iff.trans mem_edits
  have hafter : (Document.ofText (revised ss style t))[s.line]? = some (new ++ ['\n']) := by
    rw [h.rows_revised hword hstyle]
    split at hmerge
    · rename_i hsame
      have hne : ∀ e ∈ Edit.lastFirst (edits ss (.ofText t) style), e.startLine ≠ s.line := by
        intro e he hstart
        rw [hmem, hstart, hmerge] at he
        exact absurd he (by simp)
      rw [Edit.getElem?_setRows_of_ne hne, hrow, hsame]
    · refine Edit.getElem?_setRows ⟨⟨s.line, 1, new ++ ['\n'], true⟩, hmem.2 hmerge, rfl⟩ (fun e he hstart ↦ ?_)
        (List.getElem?_eq_some_iff.1 hrow).1
      rw [hmem, hstart, hmerge] at he
      rw [← Option.some.inj he]
  exact ⟨_, hfill, hafter, hnone _ hafter⟩

theorem revised_of_edits_eq_nil (h : edits ss (.ofText t) style = []) : revised ss style t = t := by
  rw [revised, h, Edit.applyAll, List.mergeSort_nil, List.foldl_nil]
  exact flatten_rows t

/-- **A session is over after one step.** Let plain suggestions be for plain headers, each of which takes up one
row, and let those for the same row have the same signature. The first step leaves all rows in their places. It
changes no row without a suggestion, and puts the header filled in wherever there is one. Then there is nothing
more to edit, and every further step leaves the document as it is. -/
theorem session_settles (hword : (Document.ofText t).length < Decimal.wordSize) (hstyle : style.replace = true)
    (h : PlainSession ss (.ofText t)) :
    (Document.ofText (revised ss style t)).length = (Document.ofText t).length ∧
    (∀ i, (∀ s ∈ ss, s.line ≠ i) → (Document.ofText (revised ss style t))[i]? = (Document.ofText t)[i]?) ∧
    (∀ s ∈ ss, ∃ filled, (s.fill (Document.ofText t).source).1 = .ok filled ∧
      (Document.ofText (revised ss style t))[s.line]? = some (filled.text ++ ['\n'])) ∧
    edits ss (.ofText (revised ss style t)) style = [] ∧
    ∀ n, (revised ss style)^[n] (revised ss style t) = revised ss style t := by
  have hdone : edits ss (.ofText (revised ss style t)) style = [] := by
    refine List.eq_nil_iff_forall_not_mem.2 fun e he ↦ ?_
    have hnone : merge? (ss.filter (·.line = e.startLine)) (.ofText (revised ss style t)) style = none :=
      merge?_of_unchanged fun s hs ↦ by
        obtain ⟨-, -, -, hproposal⟩ := h.row_revised hword hstyle (List.mem_of_mem_filter hs)
        exact hproposal
    exact absurd ((mem_edits.1 he).symm.trans hnone) (by simp)
  refine ⟨?_, fun i hi ↦ ?_, fun s hs ↦ ?_, hdone, fun n ↦ ?_⟩
  · rw [h.rows_revised hword hstyle, Edit.length_setRows]
  · rw [h.rows_revised hword hstyle]
    refine Edit.getElem?_setRows_of_ne fun e he hstart ↦ ?_
    obtain ⟨-, s, hs, hline⟩ := h.swaps hstyle ((Edit.lastFirst_perm _).mem_iff.1 he)
    exact hi s hs (hline.trans hstart)
  · obtain ⟨filled, hfill, hrow, -⟩ := h.row_revised hword hstyle hs
    exact ⟨filled, hfill, hrow⟩
  · exact Function.iterate_fixed (revised_of_edits_eq_nil hdone) n

/-- Two headers, one of them with two suggestions, among other rows. -/
theorem session_settles_two : ∃ (t : Text) (ss : List Suggestion),
    t = "x = 1\ndef f(a):\n  def g(self, /, b = 1) -> T:\n    pass".toList ∧
    ss = [⟨none, 2, none, 0, ["int".toList], "int".toList⟩, ⟨none, 1, none, 3, ["int".toList], "int".toList⟩,
      ⟨none, 2, none, 5, ["int".toList], "int".toList⟩] ∧
    PlainSession ss (.ofText t) ∧
    (Document.ofText (revised ss { replace := true } t)).length = 4 ∧
    (Document.ofText (revised ss { replace := true } t))[3]? = some "    pass".toList ∧
    (∃ filled, (fill ⟨none, 1, none, 3, ["int".toList], "int".toList⟩ (Document.ofText t).source).1 = .ok filled ∧
      (Document.ofText (revised ss { replace := true } t))[1]? = some (filled.text ++ ['\n'])) ∧
    edits ss (.ofText (revised ss { replace := true } t)) { replace := true } = [] ∧
    (revised ss { replace := true })^[7] (revised ss { replace := true } t) =
      revised ss { replace := true } t := by
  have hname : ∀ name ∈ ["int".toList, ['T']], (leaf name).Plain [] := by
    intro name hmem
    have hall : ∀ name ∈ ["int".toList, ['T']], Lexeme.Named name ∧ displayName [] name = name ∧
        name ∉ ["Union".toList, "lambda".toList] := by decide
    obtain ⟨hnamed, hshown, hruled⟩ := hall name hmem
    exact .leaf (.inl (.word hnamed)) hshown hruled
  have htypes : ∀ text ∈ ["int".toList, "int".toList], ReadsPlain text := by
    have hint : ReadsPlain "int".toList := ⟨_, leaf "int".toList, rfl, rfl, hname _ (by simp)⟩
    simpa using hint
  have hf : RowHeader.Usual (Plain []) ⟨0, false, ['f'], [.named [] ['a'] none none], none⟩ :=
    ⟨by decide, by decide, by simpa using ⟨by decide, by decide, by simp, by simp⟩, by simp⟩
  have hg : RowHeader.Usual (Plain []) ⟨2, false, ['g'], [.named [] "self".toList none none, .marker '/',
      .named [] ['b'] none (some ['1'])], some (leaf ['T'])⟩ := by
    refine ⟨by decide, by decide, ?_, by simpa using hname ['T'] (by simp)⟩
    simp only [List.mem_cons, List.not_mem_nil, or_false, forall_eq_or_imp, forall_eq]
    exact ⟨⟨by decide, by decide, by simp, by simp⟩, .inr rfl, ⟨by decide, by decide, by simp,
      by simpa using .inl ⟨by decide, by decide⟩⟩⟩
  have hplain : PlainSession [⟨none, 2, none, 0, ["int".toList], "int".toList⟩,
      ⟨none, 1, none, 3, ["int".toList], "int".toList⟩, ⟨none, 2, none, 5, ["int".toList], "int".toList⟩]
      (.ofText "x = 1\ndef f(a):\n  def g(self, /, b = 1) -> T:\n    pass".toList) := by
    refine ⟨?_, by decide⟩
    simp only [List.mem_cons, List.not_mem_nil, or_false, forall_eq_or_imp, forall_eq]
    exact ⟨⟨rfl, ⟨_, hg, rfl⟩, htypes⟩, ⟨rfl, ⟨_, hf, rfl⟩, htypes⟩, ⟨rfl, ⟨_, hg, rfl⟩, htypes⟩⟩
  have hstyle : ({ replace := true } : Style).replace = true := rfl
  obtain ⟨hlength, hrest, hrow, hdone, hfixed⟩ := session_settles (by decide) hstyle hplain
  exact ⟨_, _, rfl, rfl, hplain, hlength, hrest 3 (by decide), hrow _ (by simp), hdone, hfixed 7⟩

end Suggestion

end HeaderHints
