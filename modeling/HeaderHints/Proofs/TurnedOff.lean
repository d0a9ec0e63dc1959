import HeaderHints.Proofs.LineEnds

/-!
# Suggestions that are turned off

An edit that does not replace a header puts the headers that are suggested above it. They must not become code, so
each of their rows is turned off by `##`; only an edit with a complaint, which is a comment as it is, stays on.

Whether there is a complaint is told from the text. `Suggestion.merge?_turns_off` says that suggestions which can
all be filled in are turned off or replace the header, as long as none of the headers has the marker of a
complaint in it. An author may have written the marker, in a comment behind the colon for example, and then the
header is put above the old one as it stands (`Suggestion.merge?_misses_marked`).
-/

namespace HeaderHints

namespace Text

variable {part t : Text} {ts : List Text}

/-! ### Parts of texts that are put together -/

/-- A part without `c` stands before or behind it. -/
theorem infix_of_infix_append_cons {c : Char} {u v : Text} (hc : c ∉ part) (h : part <:+: u ++ c :: v) :
    part <:+: u ∨ part <:+: v := by
  obtain ⟨front, back, h⟩ := h
  rcases List.append_eq_append_iff.1 h with ⟨w, rfl, -⟩ | ⟨w, hw, hback⟩
  · exact .inl ⟨front, w, rfl⟩
  cases w with
  | nil => exact .inl ⟨front, [], by simpa using hw⟩
  | cons d w =>
    obtain ⟨rfl, rfl⟩ := List.cons_eq_cons.1 hback
    -- the part ends behind `c` and does not have it
    rcases List.append_eq_append_iff.1 hw with ⟨x, -, rfl⟩ | ⟨x, -, hx⟩
    · exact absurd List.mem_append_cons_self hc
    · cases x with
      | nil =>
        rw [← show c :: w = part from hx] at hc
        exact absurd List.mem_cons_self hc
      | cons d x =>
        obtain ⟨-, rfl⟩ := List.cons_eq_cons.1 hx
        exact .inr ⟨x, back, rfl⟩

theorem infix_of_infix_intercalate (hne : part ≠ []) (hfeed : '\n' ∉ part) (h : part <:+: ['\n'].intercalate ts) :
    ∃ t ∈ ts, part <:+: t := by
  induction ts with
  | nil => exact absurd (List.infix_nil.1 h) hne
  | cons t ts ih =>
    cases ts with
    | nil => exact ⟨t, by simp, by simpa using h⟩
    | cons u ts =>
      rw [List.intercalate_cons_cons, List.append_assoc] at h
      rcases infix_of_infix_append_cons hfeed h with h | h
      · exact ⟨t, by simp, h⟩
      · obtain ⟨t', ht', h⟩ := ih h
        exact ⟨t', List.mem_cons_of_mem _ ht', h⟩

/-! ### Lines -/

theorem feed_not_mem_lines {line : Text} (h : line ∈ lines t) : '\n' ∉ line := by
  obtain ⟨row, hrow, rfl⟩ := List.mem_map.1 h
  intro hmem
  obtain ⟨u, v, huv⟩ := List.append_of_mem hmem
  -- a line feed ends its row, so that it is not part of the row without its line break
  have hsplit := withoutBreak_append_lineEnd row
  rw [huv, List.append_assoc, List.cons_append] at hsplit
  obtain ⟨rfl, hend⟩ := List.append_eq_nil_iff.1 ((rows_lined t).1 row hrow hsplit.symm)
  rw [hend] at hsplit
  exact lineEnd_ne_nil (t := row) (by simp [← hsplit]) hend

/-- Lines that are put together with a line feed behind each are the rows of the result. -/
theorem rows_intercalate (hne : ts ≠ []) (h : ∀ t ∈ ts, '\n' ∉ t) :
    rows (['\n'].intercalate ts ++ ['\n']) = ts.map (· ++ ['\n']) := by
  induction ts with
  | nil => exact absurd rfl hne
  | cons t ts ih =>
    rw [List.forall_mem_cons] at h
    cases ts with
    | nil => simpa [rows] using rows_row h.1 []
    | cons u ts =>
      rw [List.intercalate_cons_cons, List.append_assoc, List.append_assoc, List.singleton_append,
        rows_row h.1, ih (by simp) h.2]
      rfl

theorem lines_ne_nil (h : t ≠ []) : lines t ≠ [] := by
  intro hnil
  rw [lines, List.map_eq_nil_iff] at hnil
  exact h (by rw [← flatten_rows t, hnil]; rfl)

/-- The rows of a text whose lines are turned off. -/
theorem rows_turnedOff (h : t ≠ []) : rows (['\n'].intercalate ((lines t).map ("##".toList ++ ·)) ++ ['\n']) =
    (lines t).map fun line ↦ "##".toList ++ line ++ ['\n'] := by
  rw [rows_intercalate (by simpa using lines_ne_nil h), List.map_map]
  · rfl
  · intro off hoff
    obtain ⟨line, hline, rfl⟩ := List.mem_map.1 hoff
    simpa using feed_not_mem_lines hline

end Text

namespace Suggestion

open Text

variable {ss : List Suggestion} {s : Suggestion} {d : Document} {style : Style} {t : Text} {filled : Filled}

/-- A suggestion changes the header at its line into `filled`. -/
def Changes (s : Suggestion) (d : Document) (filled : Filled) : Prop :=
  (s.fill d.source).1 = .ok filled ∧ filled.text ≠ currentText d s.line filled.lineCount

/-- What can be filled in is proposed where it changes the header. -/
theorem proposal?_eq_some_iff (hok : ∃ filled, (s.fill d.source).1 = .ok filled) :
    s.proposal? d style = some filled ↔ s.Changes d filled := by
  obtain ⟨filled', hfill⟩ := hok
  unfold proposal? Changes
  rw [hfill]
  dsimp only
  split
  · rename_i hsame
    simp only [reduceCtorEq, Except.ok.injEq, false_iff, not_and, not_not]
    rintro rfl
    exact hsame
  · rename_i hchanged
    simp only [Option.some.injEq, Except.ok.injEq]
    exact ⟨fun h ↦ ⟨h, h ▸ hchanged⟩, And.left⟩

/-- What a single suggestion that changes its header is merged into. -/
theorem merge?_single (hfilled : s.proposal? d style = some filled) (hne : filled.text ≠ [])
    (hchanged : filled.text ≠ currentText d s.line filled.lineCount) :
    merge? [s] d style = some ⟨s.line, filled.lineCount,
      (if style.replace || holds complaintMarker filled.text then filled.text
        else ['\n'].intercalate ((lines filled.text).map ("##".toList ++ ·))) ++ ['\n'],
      style.replace && !holds complaintMarker filled.text⟩ := by
  have hall : ∀ s' ∈ [s], ∀ filled', s'.proposal? d style = some filled' → filled' = filled := by
    intro s' hs' filled' hfilled'
    rw [List.mem_singleton.1 hs', hfilled] at hfilled'
    exact (Option.some.inj hfilled').symm
  have htexts : texts [s] d style = [filled.text] :=
    texts_eq_singleton (List.mem_singleton_self s) hfilled fun s' hs' _ h ↦ by rw [hall s' hs' _ h]
  have hspan : span [s] d style = filled.lineCount :=
    span_eq (List.mem_singleton_self s) hfilled fun s' hs' _ h ↦ by rw [hall s' hs' _ h]
  have hblock : block [s] d style = filled.text := by rw [block, htexts]; simp
  have hreplaces : replaces [s] d style = (style.replace && !holds complaintMarker filled.text) := by
    simp [replaces, htexts, hblock]
  rw [merge?_cons, hblock, hspan, hreplaces]
  cases holds complaintMarker filled.text <;> simp [hne, hchanged]

/-- Where headers without the marker of a complaint are put together, it does not turn up. -/
theorem marker_not_mem_block
    (hclean : ∀ s ∈ ss, ∀ filled, s.proposal? d style = some filled → ¬ complaintMarker <:+: filled.text) :
    holds complaintMarker (block ss d style) = false := by
  rw [← Bool.not_eq_true, holds_iff]
  intro h
  obtain ⟨text, htext, h⟩ := infix_of_infix_intercalate (by decide) (by decide) h
  obtain ⟨s, hs, filled, hfilled, rfl⟩ := mem_texts.1 htext
  exact hclean s hs filled hfilled h

/-- **Headers that are suggested do not become code by the way.** Let all suggestions for one line be filled in,
and let no header that comes out have the marker of a complaint in it. If their edit does not replace the header,
then each of its rows is turned off; and it replaces the header, if that is wished and there is exactly one text
that the header changes into. -/
theorem merge?_turns_off {line : Nat} (hline : ∀ s ∈ ss, s.line = line)
    (hok : ∀ s ∈ ss, ∃ filled, (s.fill (Document.ofText t).source).1 = .ok filled)
    (hclean : ∀ s ∈ ss, ∀ filled, s.Changes (.ofText t) filled → ¬ complaintMarker <:+: filled.text) :
    (∀ e, merge? ss (.ofText t) style = some e → e.replace = false →
      ∀ row ∈ rows e.text, "##".toList <+: row) ∧
    (style.replace = true → (∃! text, ∃ s ∈ ss, ∃ filled, s.Changes (.ofText t) filled ∧ filled.text = text) →
      ∃ e, merge? ss (.ofText t) style = some e ∧ e.replace = true) := by
  have hproposal : ∀ s ∈ ss, ∀ filled,
      s.proposal? (.ofText t) style = some filled ↔ s.Changes (.ofText t) filled :=
    fun s hs filled ↦ proposal?_eq_some_iff (hok s hs)
  have hclean : ∀ s ∈ ss, ∀ filled, s.proposal? (.ofText t) style = some filled →
      ¬ complaintMarker <:+: filled.text := fun s hs filled h ↦ hclean s hs filled ((hproposal s hs filled).1 h)
  refine ⟨fun e he hreplace row hrow ↦ ?_, fun hstyle hone ↦ ?_⟩
  · obtain ⟨-, -, hne, -, -, htext⟩ := merge?_ok he
    rw [hreplace, marker_not_mem_block hclean, Bool.or_self, if_neg (by simp)] at htext
    rw [htext, rows_turnedOff hne] at hrow
    obtain ⟨line, -, rfl⟩ := List.mem_map.1 hrow
    rw [List.append_assoc]
    exact List.prefix_append _ _
  · obtain ⟨text, ⟨s, hs, filled, hchanges, rfl⟩, hunique⟩ := hone
    have hunbroken := unbroken_of_fill hchanges.1
    refine ⟨_, merge?_of_agreed hline hs ((hproposal s hs filled).2 hchanges) (fun s' hs' ↦ ?_) hunbroken.ne_nil
      (hline s hs ▸ hchanges.2) ?_ hstyle, rfl⟩
    · cases hproposal' : s'.proposal? (.ofText t) style with
      | none => exact .inl rfl
      | some filled' =>
        -- the same text, and the rows of one header
        have hchanges' := (hproposal s' hs' filled').1 hproposal'
        have htext := hunique _ ⟨s', hs', filled', hchanges', rfl⟩
        have hcount := lineCount_congr ((hline s' hs').trans (hline s hs).symm) hchanges.1 hchanges'.1
        cases filled
        cases filled'
        exact .inr (congrArg some (congrArg₂ Filled.mk htext hcount))
    · rw [← Bool.not_eq_true, holds_iff]
      exact hclean s hs filled ((hproposal s hs filled).2 hchanges)

/-- A header of two rows, with a comment between them, is turned off or replaced. -/
theorem merge?_turns_off_two : ∃ (t : Text) (ss : List Suggestion),
    t = "def f(a,  # first\n      b): pass\n".toList ∧
    ss = [⟨none, 0, none, 0, ["int".toList, "str".toList], "None".toList⟩] ∧
    merge? ss (.ofText t) {} =
      some ⟨0, 2, "##def f(a: int,  # first\n##      b: str) -> None: pass\n".toList, false⟩ ∧
    (∀ row ∈ rows "##def f(a: int,  # first\n##      b: str) -> None: pass\n".toList, "##".toList <+: row) ∧
    ∃ e, merge? ss (.ofText t) { replace := true } = some e ∧ e.replace = true := by
  have hfill : (fill ⟨none, 0, none, 0, ["int".toList, "str".toList], "None".toList⟩
      (Document.ofText "def f(a,  # first\n      b): pass\n".toList).source).1 =
      .ok ⟨"def f(a: int,  # first\n      b: str) -> None: pass".toList, 2⟩ :=
    eq_ok_of_toOption (by decide +kernel)
  have hchanges : Changes ⟨none, 0, none, 0, ["int".toList, "str".toList], "None".toList⟩
      (.ofText "def f(a,  # first\n      b): pass\n".toList)
      ⟨"def f(a: int,  # first\n      b: str) -> None: pass".toList, 2⟩ := ⟨hfill, by decide +kernel⟩
  have hall : ∀ s ∈ [(⟨none, 0, none, 0, ["int".toList, "str".toList], "None".toList⟩ : Suggestion)], ∀ filled,
      s.Changes (.ofText "def f(a,  # first\n      b): pass\n".toList) filled →
      filled = ⟨"def f(a: int,  # first\n      b: str) -> None: pass".toList, 2⟩ :=
    List.forall_mem_singleton.2 fun _ h ↦ Except.ok.inj (h.1.symm.trans hfill)
  have hmerge : merge? [⟨none, 0, none, 0, ["int".toList, "str".toList], "None".toList⟩]
      (.ofText "def f(a,  # first\n      b): pass\n".toList) {} =
      some ⟨0, 2, "##def f(a: int,  # first\n##      b: str) -> None: pass\n".toList, false⟩ :=
    (merge?_single ((proposal?_eq_some_iff ⟨_, hfill⟩).2 hchanges) (by decide) hchanges.2).trans
      (by decide +kernel)
  have hclean : ∀ s ∈ [(⟨none, 0, none, 0, ["int".toList, "str".toList], "None".toList⟩ : Suggestion)], ∀ filled,
      s.Changes (.ofText "def f(a,  # first\n      b): pass\n".toList) filled →
      ¬ complaintMarker <:+: filled.text := fun s hs filled h ↦ by
    rw [hall s hs filled h, ← holds_iff]
    decide +kernel
  refine ⟨_, _, rfl, rfl, hmerge,
    (merge?_turns_off (List.forall_mem_singleton.2 rfl) (List.forall_mem_singleton.2 ⟨_, hfill⟩) hclean).1
      _ hmerge rfl,
    (merge?_turns_off (List.forall_mem_singleton.2 rfl) (List.forall_mem_singleton.2 ⟨_, hfill⟩) hclean).2
      rfl ?_⟩
  exact ⟨_, ⟨_, List.mem_singleton_self _, _, hchanges, rfl⟩, fun text ⟨s, hs, filled, h, htext⟩ ↦ by
    rw [← htext, hall s hs filled h]⟩

/-- A comment of the author with the marker of a complaint in it is taken for one: the header is neither turned off
nor replaced. -/
theorem merge?_misses_marked :
    (fill ⟨none, 0, none, 0, ["int".toList], "int".toList⟩
      (Document.ofText "def f(x):  # Error generating suggestion: ?\n".toList).source).1 =
      .ok ⟨"def f(x: int) -> int:  # Error generating suggestion: ?".toList, 1⟩ ∧
    merge? [⟨none, 0, none, 0, ["int".toList], "int".toList⟩]
      (.ofText "def f(x):  # Error generating suggestion: ?\n".toList) {} =
      some ⟨0, 1, "def f(x: int) -> int:  # Error generating suggestion: ?".toList ++ ['\n'], false⟩ ∧
    merge? [⟨none, 0, none, 0, ["int".toList], "int".toList⟩]
      (.ofText "def f(x):  # Error generating suggestion: ?\n".toList) { replace := true } =
      some ⟨0, 1, "def f(x: int) -> int:  # Error generating suggestion: ?".toList ++ ['\n'], false⟩ ∧
    ¬ ∀ row ∈ rows ("def f(x: int) -> int:  # Error generating suggestion: ?".toList ++ ['\n']),
      "##".toList <+: row := by
  have hfill : (fill ⟨none, 0, none, 0, ["int".toList], "int".toList⟩
      (Document.ofText "def f(x):  # Error generating suggestion: ?\n".toList).source).1 =
      .ok ⟨"def f(x: int) -> int:  # Error generating suggestion: ?".toList, 1⟩ :=
    eq_ok_of_toOption (by decide +kernel)
  have hchanged : "def f(x: int) -> int:  # Error generating suggestion: ?".toList ≠
      currentText (.ofText "def f(x):  # Error generating suggestion: ?\n".toList) 0 1 := by decide +kernel
  have hmarker :
      holds complaintMarker "def f(x: int) -> int:  # Error generating suggestion: ?".toList = true := by
    decide +kernel
  have hmerge : ∀ style, merge? [⟨none, 0, none, 0, ["int".toList], "int".toList⟩]
      (.ofText "def f(x):  # Error generating suggestion: ?\n".toList) style =
      some ⟨0, 1, "def f(x: int) -> int:  # Error generating suggestion: ?".toList ++ ['\n'], false⟩ := by
    intro style
    have hproposal : proposal? ⟨none, 0, none, 0, ["int".toList], "int".toList⟩
        (.ofText "def f(x):  # Error generating suggestion: ?\n".toList) style =
        some ⟨"def f(x: int) -> int:  # Error generating suggestion: ?".toList, 1⟩ :=
      (proposal?_eq_some_iff ⟨_, hfill⟩).2 ⟨hfill, hchanged⟩
    rw [merge?_single hproposal (unbroken_of_fill hfill).ne_nil hchanged, hmarker, Bool.or_true, if_pos rfl,
      Bool.not_true, Bool.and_false]
  exact ⟨hfill, hmerge _, hmerge _, by decide +kernel⟩

end Suggestion

end HeaderHints
