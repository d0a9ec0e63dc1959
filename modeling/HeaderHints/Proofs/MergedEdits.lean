import HeaderHints.Proofs.EditedRows
import HeaderHints.Proofs.LazyReading

/-!
# Edits merged from suggestions

`Suggestion.merge?_ok` says all there is to know about an edit that the suggestions for one function are merged
into, in terms of their proposals: the texts of the proposals by the samples behind them (`texts`) and the
rows of the longest header (`span`). The edits of a batch are those of its lines (`Suggestion.mem_edits`).

An edit that replaces rows comes from a single text that is no complaint. The suggestions for its line have read
the same header, so those that change it agree on the number of rows too, and these rows are in the document
(`Suggestion.edits_replace_headers`).
-/

namespace HeaderHints

/-! ### Parts of a text -/

namespace Text

/-- **What it means that a part occurs in a text.** -/
theorem holds_iff {part t : Text} : holds part t = true ↔ part <:+: t := by
  induction t with
  | nil => rw [holds, List.isEmpty_iff, List.infix_nil]
  | cons c t ih => rw [holds, Bool.or_eq_true, List.isPrefixOf_iff_prefix, ih, List.infix_cons_iff]

end Text

/-! ### Headers in a document -/

namespace Header

/-- The rows of a header that is read are rows of the source. -/
theorem lineCount_le_of_read {source : Source} {first : Nat} {header : Header} {asked : List Nat}
    (h : read source first = (.ok header, asked)) : header.lineCount ≤ (source.drop first).length := by
  obtain ⟨s, d, hr, hcomplete, rfl, -⟩ := exists_reading_of_read_eq h
  rcases hr.sound with ⟨-, hincomplete⟩ | hsound
  · rw [hcomplete] at hincomplete
    exact absurd hincomplete (by simp)
  · rw [← hsound.supply, Scan.supply]
    simp

/-- A header has at least one row, and ends before the end of the source. -/
theorem bounds_of_read {source : Source} {first : Nat} {header : Header} {asked : List Nat}
    (h : read source first = (.ok header, asked)) :
    1 ≤ header.lineCount ∧ first + header.lineCount ≤ source.length := by
  obtain ⟨-, colon, -, -, -, hcount⟩ := read_asked_of_ok h
  have hle := lineCount_le_of_read h
  rw [List.length_drop] at hle
  omega

end Header

namespace Suggestion

variable {ss : List Suggestion} {s : Suggestion} {d : Document} {style : Style} {e : Edit}

/-! ### Merging -/

/-- What the suggestions propose, each with the samples behind it. -/
def proposals (ss : List Suggestion) (d : Document) (style : Style) : List (Nat × Filled) :=
  ss.filterMap fun s ↦ (s.proposal? d style).map (s.samples, ·)

/-- The different texts that are proposed, those with the most samples first. -/
def texts (ss : List Suggestion) (d : Document) (style : Style) : List Text :=
  (((proposals ss d style).mergeSort fun p q ↦ q.1 ≤ p.1).map (·.2.text)).eraseDups

/-- The rows of the longest header among the proposals. -/
def span (ss : List Suggestion) (d : Document) (style : Style) : Nat :=
  ((proposals ss d style).map (·.2.lineCount)).foldl max 0

/-- The texts that are proposed, one below the other. -/
def block (ss : List Suggestion) (d : Document) (style : Style) : Text :=
  ['\n'].intercalate (texts ss d style)

theorem mem_proposals {p : Nat × Filled} :
    p ∈ proposals ss d style ↔ ∃ s ∈ ss, s.samples = p.1 ∧ s.proposal? d style = some p.2 := by
  simp only [proposals, List.mem_filterMap, Option.map_eq_some_iff]
  constructor
  · rintro ⟨s, hs, filled, hfilled, rfl⟩
    exact ⟨s, hs, rfl, hfilled⟩
  · rintro ⟨s, hs, hsamples, hfilled⟩
    exact ⟨s, hs, p.2, hfilled, by rw [hsamples]⟩

theorem mem_texts {text : Text} :
    text ∈ texts ss d style ↔ ∃ s ∈ ss, ∃ filled, s.proposal? d style = some filled ∧ filled.text = text := by
  simp only [texts, List.mem_eraseDups, List.mem_map, List.mem_mergeSort, mem_proposals]
  constructor
  · rintro ⟨p, ⟨s, hs, -, hfilled⟩, htext⟩
    exact ⟨s, hs, p.2, hfilled, htext⟩
  · rintro ⟨s, hs, filled, hfilled, htext⟩
    exact ⟨(s.samples, filled), ⟨s, hs, rfl, hfilled⟩, htext⟩

/-- Whether the suggestions replace the header. -/
def replaces (ss : List Suggestion) (d : Document) (style : Style) : Bool :=
  style.replace && (texts ss d style).length = 1 && !Text.holds complaintMarker (block ss d style)

theorem merge?_cons (s : Suggestion) (rest : List Suggestion) (d : Document) (style : Style) :
    merge? (s :: rest) d style =
      if (block (s :: rest) d style).isEmpty ||
          block (s :: rest) d style = currentText d s.line (span (s :: rest) d style) then
        none
      else
        some ⟨s.line, span (s :: rest) d style,
          (if replaces (s :: rest) d style || Text.holds complaintMarker (block (s :: rest) d style) then
            block (s :: rest) d style
          else
            ['\n'].intercalate ((Text.lines (block (s :: rest) d style)).map ("##".toList ++ ·))) ++ ['\n'],
          replaces (s :: rest) d style⟩ :=
  rfl

/-- **What an edit is merged from.** -/
theorem merge?_ok (h : merge? ss d style = some e) :
    (∃ s rest, ss = s :: rest ∧ e.startLine = s.line) ∧
    e.lineCount = span ss d style ∧
    block ss d style ≠ [] ∧ block ss d style ≠ currentText d e.startLine e.lineCount ∧
    e.replace = replaces ss d style ∧
    e.text = (if e.replace || Text.holds complaintMarker (block ss d style) then block ss d style
      else ['\n'].intercalate ((Text.lines (block ss d style)).map ("##".toList ++ ·))) ++ ['\n'] := by
  cases ss with
  | nil => exact absurd h (by simp [merge?])
  | cons s rest =>
    rw [merge?_cons] at h
    split at h
    · exact absurd h (by simp)
    · rename_i hchanges
      simp only [Bool.or_eq_true, List.isEmpty_iff, decide_eq_true_eq, not_or] at hchanges
      obtain rfl := Option.some.inj h
      exact ⟨⟨s, rest, rfl, rfl⟩, rfl, hchanges.1, hchanges.2, rfl, rfl⟩

theorem startLine_of_merge? {line : Nat} (hline : ∀ s ∈ ss, s.line = line) (h : merge? ss d style = some e) :
    e.startLine = line := by
  obtain ⟨⟨s, rest, rfl, hstart⟩, -⟩ := merge?_ok h
  rw [hstart, hline s List.mem_cons_self]

theorem mem_filter_line {line : Nat} : s ∈ ss.filter (·.line = line) ↔ s ∈ ss ∧ s.line = line := by
  simp

/-- **The edits of a batch** are those that the suggestions for one line are merged into. -/
theorem mem_edits : e ∈ edits ss d style ↔ merge? (ss.filter (·.line = e.startLine)) d style = some e := by
  constructor
  · intro h
    obtain ⟨line, -, hmerge⟩ := List.mem_filterMap.1 h
    rwa [startLine_of_merge? (fun s hs ↦ (mem_filter_line.1 hs).2) hmerge]
  · intro h
    obtain ⟨⟨s, rest, hgroup, hstart⟩, -⟩ := merge?_ok h
    have hs : s ∈ ss := List.mem_of_mem_filter (hgroup ▸ List.mem_cons_self)
    refine List.mem_filterMap.2 ⟨e.startLine, ?_, h⟩
    rw [List.mem_eraseDups, List.mem_mergeSort, hstart]
    exact List.mem_map_of_mem hs

/-- No two edits of a batch start at the same row. -/
theorem edits_startLine_ne (ss : List Suggestion) (d : Document) (style : Style) :
    (edits ss d style).Pairwise fun e e' ↦ e.startLine ≠ e'.startLine := by
  refine List.Pairwise.filterMap _ ?_ (eraseDups_nodup _)
  intro line line' hne e he e' he' heq
  rw [startLine_of_merge? (fun s hs ↦ (mem_filter_line.1 hs).2) he,
    startLine_of_merge? (fun s hs ↦ (mem_filter_line.1 hs).2) he'] at heq
  exact hne heq

/-! ### Proposals -/

/-- A proposal is a changed header, or a complaint that holds the marker. -/
theorem proposal?_cases {filled : Filled} (h : s.proposal? d style = some filled) :
    ((s.fill d.source).1 = .ok filled ∧ filled.text ≠ currentText d s.line filled.lineCount) ∨
      Text.holds complaintMarker filled.text = true := by
  unfold proposal? at h
  split at h
  · rename_i hfill
    split at h
    · exact absurd h (by simp)
    · rename_i hchanged
      obtain rfl := Option.some.inj h
      exact .inl ⟨hfill, hchanged⟩
  · obtain rfl := Option.some.inj h
    exact .inr (Text.holds_iff.2 ⟨_, _, rfl⟩)

theorem unchanged_of_proposal? (h : s.proposal? d style = none) :
    ∃ same, (s.fill d.source).1 = .ok same ∧ same.text = currentText d s.line same.lineCount := by
  unfold proposal? at h
  split at h
  · rename_i same hfill
    split at h
    · rename_i hsame
      exact ⟨same, hfill, hsame⟩
    · exact absurd h (by simp)
  · exact absurd h (by simp)

/-- Suggestions for one line that can be filled in take up the same rows. -/
theorem lineCount_congr {s' : Suggestion} {source : Source} {filled filled' : Filled} (hline : s'.line = s.line)
    (h : (s.fill source).1 = .ok filled) (h' : (s'.fill source).1 = .ok filled') :
    filled'.lineCount = filled.lineCount := by
  obtain ⟨header, hread, hcount⟩ := lineCount_of_fill h
  obtain ⟨header', hread', hcount'⟩ := lineCount_of_fill h'
  rw [hline, hread] at hread'
  obtain rfl := Except.ok.inj (Prod.mk.inj hread').1
  rw [hcount, hcount']

theorem foldl_max_eq {m n : Nat} {counts : List Nat} (h : ∀ k ∈ counts, k = n)
    (hm : m = n ∨ m ≤ n ∧ counts ≠ []) : counts.foldl max m = n := by
  induction counts generalizing m with
  | nil => exact hm.resolve_right (by simp)
  | cons k counts ih =>
    rw [List.forall_mem_cons] at h
    exact ih h.2 (.inl (by omega))

/-- Where all headers that are proposed have one number of rows, this is the span. -/
theorem span_eq {n : Nat} {filled : Filled} (hs : s ∈ ss) (hfilled : s.proposal? d style = some filled)
    (h : ∀ s ∈ ss, ∀ filled, s.proposal? d style = some filled → filled.lineCount = n) :
    span ss d style = n := by
  refine foldl_max_eq (fun k hk ↦ ?_) (.inr ⟨Nat.zero_le n, ?_⟩)
  · obtain ⟨p, hp, rfl⟩ := List.mem_map.1 hk
    obtain ⟨s, hs, -, hfilled⟩ := mem_proposals.1 hp
    exact h s hs p.2 hfilled
  · have hmem : (s.samples, filled) ∈ proposals ss d style := mem_proposals.2 ⟨s, hs, rfl, hfilled⟩
    exact List.ne_nil_of_mem (List.mem_map_of_mem hmem)

/-- Where all that is proposed is one text, it is the only one. -/
theorem texts_eq_singleton {filled : Filled} {text : Text} (hs : s ∈ ss)
    (hfilled : s.proposal? d style = some filled)
    (h : ∀ s ∈ ss, ∀ filled, s.proposal? d style = some filled → filled.text = text) :
    texts ss d style = [text] := by
  have hall : ∀ u ∈ texts ss d style, u = text := fun u hu ↦ by
    obtain ⟨s, hs, filled, hfilled, rfl⟩ := mem_texts.1 hu
    exact h s hs filled hfilled
  have hmem : text ∈ texts ss d style := mem_texts.2 ⟨s, hs, filled, hfilled, h s hs filled hfilled⟩
  have hnodup : (texts ss d style).Nodup := eraseDups_nodup _
  match htexts : texts ss d style with
  | [] => exact absurd hmem (by simp [htexts])
  | [u] => rw [hall u (by simp [htexts])]
  | u :: v :: more =>
    rw [htexts, List.nodup_cons] at hnodup
    exact absurd ((hall u (by simp [htexts])).trans (hall v (by simp [htexts])).symm)
      fun heq ↦ hnodup.1 (heq ▸ List.mem_cons_self)

/-- A header that changes, and that all suggestions agree on, replaces the old one. -/
theorem merge?_of_agreed {filled : Filled} {line : Nat} (hline : ∀ s ∈ ss, s.line = line) (hs : s ∈ ss)
    (hfilled : s.proposal? d style = some filled)
    (hagreed : ∀ s ∈ ss, s.proposal? d style = none ∨ s.proposal? d style = some filled)
    (hne : filled.text ≠ []) (hchanged : filled.text ≠ currentText d line filled.lineCount)
    (hmarker : Text.holds complaintMarker filled.text = false) (hstyle : style.replace = true) :
    merge? ss d style = some ⟨line, filled.lineCount, filled.text ++ ['\n'], true⟩ := by
  have hall : ∀ s ∈ ss, ∀ filled', s.proposal? d style = some filled' → filled' = filled :=
    fun s hs filled' hfilled' ↦ by
      rcases hagreed s hs with hnone | hsome
      · exact absurd (hnone.symm.trans hfilled') (by simp)
      · exact Option.some.inj (hfilled'.symm.trans hsome)
  have htexts : texts ss d style = [filled.text] :=
    texts_eq_singleton hs hfilled fun s hs filled' h ↦ by rw [hall s hs filled' h]
  have hspan : span ss d style = filled.lineCount :=
    span_eq hs hfilled fun s hs filled' h ↦ by rw [hall s hs filled' h]
  have hblock : block ss d style = filled.text := by rw [block, htexts]; simp
  have hreplaces : replaces ss d style = true := by simp [replaces, htexts, hblock, hstyle, hmarker]
  match ss with
  | [] => exact absurd hs (by simp)
  | s₀ :: rest =>
    rw [merge?_cons, hblock, hspan, hreplaces, hline s₀ List.mem_cons_self]
    simp [hne, hchanged]

theorem mem_edits_of_agreed {filled : Filled} {line : Nat} (hs : s ∈ ss) (hline : s.line = line)
    (hfilled : s.proposal? d style = some filled)
    (hagreed : ∀ s ∈ ss, s.line = line → s.proposal? d style = none ∨ s.proposal? d style = some filled)
    (hne : filled.text ≠ []) (hchanged : filled.text ≠ currentText d line filled.lineCount)
    (hmarker : Text.holds complaintMarker filled.text = false) (hstyle : style.replace = true) :
    ⟨line, filled.lineCount, filled.text ++ ['\n'], true⟩ ∈ edits ss d style :=
  mem_edits.2 <| merge?_of_agreed (fun _ hs ↦ (mem_filter_line.1 hs).2) (mem_filter_line.2 ⟨hs, hline⟩) hfilled
    (fun s hs ↦ hagreed s (mem_filter_line.1 hs).1 (mem_filter_line.1 hs).2) hne hchanged hmarker hstyle

/-- Where no suggestion changes the header, there is nothing to edit. -/
theorem merge?_of_unchanged (h : ∀ s ∈ ss, s.proposal? d style = none) : merge? ss d style = none := by
  have htexts : texts ss d style = [] := by
    refine List.eq_nil_iff_forall_not_mem.2 fun text hmem ↦ ?_
    obtain ⟨s, hs, filled, hfilled, -⟩ := mem_texts.1 hmem
    exact absurd ((h s hs).symm.trans hfilled) (by simp)
  match ss with
  | [] => rfl
  | s :: rest =>
    rw [merge?_cons, block, htexts]
    simp

/-- A suggestion that can be filled in has read the rows that it takes up. -/
theorem asked_of_fill {filled : Filled} (h : (s.fill d.source).1 = .ok filled) :
    (s.fill d.source).2 = List.range' s.line filled.lineCount ∧ 1 ≤ filled.lineCount ∧
      s.line + filled.lineCount ≤ d.length := by
  obtain ⟨header, hread, hcount⟩ := lineCount_of_fill h
  have hbounds := Header.bounds_of_read hread
  rw [Document.source, List.length_map] at hbounds
  rw [hcount]
  exact ⟨(Header.read_asked_of_ok hread).1, hbounds⟩

/-- A header is replaced only where all suggestions that change it agree, and none of them fails. -/
theorem agreed_of_replaces {line : Nat} (hline : ∀ s ∈ ss, s.line = line) (h : replaces ss d style = true) :
    style.replace = true ∧ ∃ filled, block ss d style = filled.text ∧
      (∃ s ∈ ss, s.proposal? d style = some filled) ∧
      ∀ s ∈ ss, ∀ filled', s.proposal? d style = some filled' → filled' = filled ∧
        (s.fill d.source).1 = .ok filled ∧ filled.text ≠ currentText d line filled.lineCount := by
  simp only [replaces, Bool.and_eq_true, decide_eq_true_eq, Bool.not_eq_true'] at h
  obtain ⟨⟨hstyle, hone⟩, hmarker⟩ := h
  obtain ⟨text, htexts⟩ := List.length_eq_one_iff.1 hone
  have hblock : block ss d style = text := by rw [block, htexts]; simp
  rw [hblock] at hmarker
  -- what is proposed is the one text, and it is no complaint
  have hfills : ∀ s ∈ ss, ∀ filled, s.proposal? d style = some filled → filled.text = text ∧
      (s.fill d.source).1 = .ok filled ∧ filled.text ≠ currentText d line filled.lineCount := by
    intro s hs filled hfilled
    have hmem : filled.text ∈ texts ss d style := mem_texts.2 ⟨s, hs, filled, hfilled, rfl⟩
    rw [htexts, List.mem_singleton] at hmem
    rcases proposal?_cases hfilled with hfill | hcomplaint
    · exact ⟨hmem, hline s hs ▸ hfill⟩
    · rw [hmem, hmarker] at hcomplaint
      exact absurd hcomplaint (by simp)
  obtain ⟨s₁, hs₁, filled, hfilled, -⟩ := mem_texts.1 (htexts ▸ List.mem_singleton_self text)
  obtain ⟨rfl, hfill, -⟩ := hfills s₁ hs₁ filled hfilled
  refine ⟨hstyle, filled, hblock, ⟨s₁, hs₁, hfilled⟩, fun s hs filled' hfilled' ↦ ?_⟩
  obtain ⟨htext, hfill', hchanged⟩ := hfills s hs filled' hfilled'
  -- the suggestions are for one line, so their headers have the same rows
  have hcount := lineCount_congr ((hline s hs).trans (hline s₁ hs₁).symm) hfill hfill'
  obtain rfl : filled' = filled := by
    cases filled
    cases filled'
    exact congrArg₂ Filled.mk htext hcount
  exact ⟨rfl, hfill', hchanged⟩

/-- **Every edit that replaces rows is the edit of one header.** The text of an edit ends in a line feed. If it
replaces rows, then headers are to be replaced, and there is one filled header such that every suggestion for
the line is filled in to it or leaves the header as it is. The edit writes its text, with a line feed, in the
place of its rows: these are the rows that the header was read from, and they are in the document, so that
nothing but them is left out. -/
theorem edits_replace_headers (h : e ∈ edits ss d style) :
    e.text.getLast? = some '\n' ∧
    (e.replace = true → style.replace = true ∧ ∃ filled : Filled,
      (∃ s ∈ ss, s.line = e.startLine ∧ (s.fill d.source).1 = .ok filled ∧
        filled.text ≠ currentText d e.startLine filled.lineCount) ∧
      (∀ s ∈ ss, s.line = e.startLine → (s.fill d.source).2 = List.range' e.startLine e.lineCount ∧
        ((s.fill d.source).1 = .ok filled ∨ ∃ same, (s.fill d.source).1 = .ok same ∧
          same.text = currentText d e.startLine same.lineCount)) ∧
      e.text = filled.text ++ ['\n'] ∧ e.lineCount = filled.lineCount ∧ 1 ≤ e.lineCount ∧
      e.startLine + e.lineCount ≤ d.length ∧
      (d.length < Decimal.wordSize → e.apply d = d.joined 0 e.startLine ++ e.text ++
        d.joined (e.startLine + e.lineCount) (d.length - (e.startLine + e.lineCount)))) := by
  obtain ⟨-, hcount, -, -, hreplace, htext⟩ := merge?_ok (mem_edits.1 h)
  refine ⟨by rw [htext]; simp, fun hreplaces ↦ ?_⟩
  obtain ⟨hstyle, filled, hblock, ⟨s₁, hs₁, hfilled⟩, hagreed⟩ :=
    agreed_of_replaces (fun s hs ↦ (mem_filter_line.1 hs).2) (hreplace.symm.trans hreplaces)
  rw [hreplaces, Bool.true_or, if_pos rfl, hblock] at htext
  have hspan : e.lineCount = filled.lineCount :=
    hcount.trans (span_eq hs₁ hfilled fun s hs filled' hfilled' ↦ by rw [(hagreed s hs filled' hfilled').1])
  obtain ⟨-, hfill, hchanged⟩ := hagreed s₁ hs₁ filled hfilled
  obtain ⟨hs₁mem, hline⟩ := mem_filter_line.1 hs₁
  obtain ⟨-, hpos, hle⟩ := asked_of_fill hfill
  rw [hline, ← hspan] at hle
  refine ⟨hstyle, filled, ⟨s₁, hs₁mem, hline, hfill, hchanged⟩, fun s hs hsline ↦ ?_, htext, hspan,
    hspan ▸ hpos, hle, fun hword ↦ ?_⟩
  · have hasked : ∀ filled', (s.fill d.source).1 = .ok filled' →
        (s.fill d.source).2 = List.range' e.startLine e.lineCount := fun filled' hfill' ↦ by
      rw [(asked_of_fill hfill').1, hsline, lineCount_congr (hsline.trans hline.symm) hfill hfill', hspan]
    cases hproposal : s.proposal? d style with
    | none =>
      obtain ⟨same, hsame, hcurrent⟩ := unchanged_of_proposal? hproposal
      exact ⟨hasked same hsame, .inr ⟨same, hsame, hsline ▸ hcurrent⟩⟩
    | some filled' =>
      obtain ⟨-, hfill', -⟩ := hagreed s (mem_filter_line.2 ⟨hs, hsline⟩) filled' hproposal
      exact ⟨hasked filled hfill', .inl hfill'⟩
  · have hfits : e.Fits := fun _ ↦ hle.trans_lt hword
    rw [Edit.apply_eq hfits, Edit.stop, if_pos hreplaces, Document.joined_zero, Document.joined_rest]

/-- One suggestion leaves out the module of its own file, the other one has no file and changes nothing. -/
theorem edits_replace_headers_module :
    ∃ (d : Document) (ss : List Suggestion) (e : Edit),
      d = .ofText "def f(a: m.A,\n      b: int = 1) -> None: pass\nf()\n".toList ∧
      ss = [⟨none, 0, none, 5, [], "int".toList⟩, ⟨none, 0, some "m.py".toList, 2, [], "int".toList⟩] ∧
      e = ⟨0, 2, "def f(a: A,\n      b: int = 1) -> None: pass".toList ++ ['\n'], true⟩ ∧
      e ∈ edits ss d { replace := true } ∧ 0 + 2 ≤ d.length ∧
      e.apply d = d.joined 0 0 ++ e.text ++ d.joined 2 1 := by
  have hsame : proposal? ⟨none, 0, none, 5, [], "int".toList⟩
      (.ofText "def f(a: m.A,\n      b: int = 1) -> None: pass\nf()\n".toList) { replace := true } = none := by
    decide +kernel
  have hchanged : proposal? ⟨none, 0, some "m.py".toList, 2, [], "int".toList⟩
      (.ofText "def f(a: m.A,\n      b: int = 1) -> None: pass\nf()\n".toList) { replace := true } =
      some ⟨"def f(a: A,\n      b: int = 1) -> None: pass".toList, 2⟩ := by decide +kernel
  have hmem : ⟨0, 2, "def f(a: A,\n      b: int = 1) -> None: pass".toList ++ ['\n'], true⟩ ∈
      edits [⟨none, 0, none, 5, [], "int".toList⟩, ⟨none, 0, some "m.py".toList, 2, [], "int".toList⟩]
        (.ofText "def f(a: m.A,\n      b: int = 1) -> None: pass\nf()\n".toList) { replace := true } :=
    mem_edits_of_agreed (List.mem_cons_of_mem _ List.mem_cons_self) rfl hchanged
      (List.forall_mem_cons.2 ⟨fun _ ↦ .inl hsame, List.forall_mem_singleton.2 fun _ ↦ .inr hchanged⟩)
      (by decide) (by decide) (by decide) rfl
  obtain ⟨-, hreplaces⟩ := edits_replace_headers hmem
  obtain ⟨-, filled, -, -, -, -, -, hle, happly⟩ := hreplaces rfl
  exact ⟨_, _, _, rfl, rfl, rfl, hmem, hle, happly (by decide)⟩

end Suggestion

end HeaderHints
