import HeaderHints.Proofs.TurnedOff

/-!
# The text that suggestions are merged into

The texts that are proposed for a header are ranked by the samples behind them, each of them is taken once, and
they are put one below the other. `Suggestion.merge?_eq_reference` says what edit this block of texts becomes, for
any list that is ranked so and any list of its first occurrences: there is no edit if the block changes nothing,
the header is replaced by a single text that is no complaint, and the rest is put above the header, turned off
unless a complaint is in it.

A block is turned off row by row, so a carriage return before a line feed is lost. Nothing else is
(`Text.flatMap_lines`), since no text that is filled in ends in a line feed.
-/

namespace HeaderHints

namespace Text

variable {t u : Text}

/-! ### Lines and line feeds -/

/-- A text with its line breaks as line feeds: a carriage return before a line feed is left out. -/
def feeds : Text → Text
  | '\r' :: '\n' :: t => '\n' :: feeds t
  | c :: t => c :: feeds t
  | [] => []

theorem feeds_append (hfeed : '\n' ∉ t) (h : t.getLast? = some '\r' → u.head? ≠ some '\n') :
    feeds (t ++ u) = t ++ feeds u := by
  induction t with
  | nil => rfl
  | cons c t ih =>
    rw [List.mem_cons, not_or] at hfeed
    rw [List.cons_append, List.cons_append, feeds]
    · rw [ih hfeed.2]
      cases t with
      | nil => simp
      | cons d t => simpa using h
    · rintro v rfl hv
      cases t with
      | nil => exact h rfl (by simpa using congrArg List.head? hv)
      | cons d t => exact hfeed.2 (by rw [(List.cons_eq_cons.1 hv).1]; exact List.mem_cons_self)

theorem withoutBreak_of_not_mem (hfeed : '\n' ∉ t) : withoutBreak t = t := by
  obtain ⟨r, rfl⟩ : ∃ r, t = List.reverse r := ⟨t.reverse, by simp⟩
  unfold withoutBreak
  rw [List.reverse_reverse]
  split <;> simp_all

theorem withoutBreak_feed (h : t.getLast? ≠ some '\r') : withoutBreak (t ++ ['\n']) = t := by
  obtain ⟨r, rfl⟩ : ∃ r, t = List.reverse r := ⟨t.reverse, by simp⟩
  unfold withoutBreak
  rw [List.reverse_append, List.reverse_reverse]
  cases r <;> simp_all

theorem feeds_row (hfeed : '\n' ∉ t) (u : Text) :
    feeds (t ++ '\n' :: u) = withoutBreak (t ++ ['\n']) ++ '\n' :: feeds u := by
  by_cases hreturn : t.getLast? = some '\r'
  · obtain ⟨front, rfl⟩ := List.getLast?_eq_some_iff.1 hreturn
    have hfront : '\n' ∉ front := fun h ↦ hfeed (List.mem_append_left _ h)
    have hline : withoutBreak (front ++ ['\r'] ++ ['\n']) = front := by simp [withoutBreak]
    rw [hline, List.append_assoc, feeds_append hfront (by simp)]
    rfl
  · rw [withoutBreak_feed hreturn, feeds_append hfeed fun h ↦ absurd h hreturn]
    rfl

theorem rows_of_not_mem (hne : t ≠ []) (hfeed : '\n' ∉ t) : rows t = [t] := by
  induction t with
  | nil => exact absurd rfl hne
  | cons c t ih =>
    rw [List.mem_cons, not_or] at hfeed
    rw [rows, if_neg (Ne.symm hfeed.1)]
    cases t with
    | nil => rfl
    | cons d t => rw [ih (by simp) hfeed.2]

/-- **What is lost when a text is cut into lines** is the carriage returns before line feeds. -/
theorem flatMap_lines (hne : t ≠ []) (hend : t.getLast? ≠ some '\n') :
    (lines t).flatMap (· ++ ['\n']) = feeds t ++ ['\n'] := by
  induction hlength : t.length using Nat.strong_induction_on generalizing t with
  | _ n ih =>
    by_cases hfeed : '\n' ∈ t
    · obtain ⟨body, u, rfl, hbody⟩ := List.eq_append_cons_of_mem hfeed
      have hu : u ≠ [] := by
        rintro rfl
        exact hend (by simp)
      rw [List.getLast?_append_cons, List.getLast?_cons_of_ne_nil hu] at hend
      have ih := ih u.length (by rw [← hlength, List.length_append, List.length_cons]; omega) hu hend rfl
      have hlines : lines (body ++ '\n' :: u) = withoutBreak (body ++ ['\n']) :: lines u := by
        rw [lines, rows_row hbody, List.map_cons, lines]
      rw [hlines, List.flatMap_cons, ih, feeds_row hbody, List.append_assoc, List.append_assoc]
      rfl
    · have hfeeds : feeds t = t := by simpa [feeds] using feeds_append (u := []) hfeed (by simp)
      rw [lines, rows_of_not_mem hne hfeed, List.map_singleton, withoutBreak_of_not_mem hfeed, hfeeds,
        List.flatMap_singleton]

/-! ### Texts below each other -/

theorem infix_intercalate {ts : List Text} (h : u ∈ ts) : u <:+: ['\n'].intercalate ts := by
  induction ts with
  | nil => exact absurd h (by simp)
  | cons t ts ih =>
    cases ts with
    | nil =>
      obtain rfl : u = t := List.mem_singleton.1 h
      simp
    | cons v ts =>
      rw [List.intercalate_cons_cons]
      rcases List.mem_cons.1 h with rfl | h
      · rw [List.append_assoc]
        exact (List.prefix_append _ _).isInfix
      · exact (ih h).trans (List.suffix_append _ _).isInfix

theorem unbroken_intercalate {ts : List Text} (hne : ts ≠ []) (h : ∀ t ∈ ts, Unbroken t) :
    Unbroken (['\n'].intercalate ts) := by
  induction ts with
  | nil => exact absurd rfl hne
  | cons t ts ih =>
    rw [List.forall_mem_cons] at h
    cases ts with
    | nil => simpa using h.1
    | cons v ts =>
      rw [List.intercalate_cons_cons]
      exact (ih (by simp) h.2).append _

/-- A text whose lines are turned off, with a line feed behind each of them. -/
def turnedOff (t : Text) : Text :=
  (lines t).flatMap fun line ↦ "##".toList ++ line ++ ['\n']

theorem intercalate_turnedOff (hne : t ≠ []) :
    ['\n'].intercalate ((lines t).map ("##".toList ++ ·)) ++ ['\n'] = turnedOff t := by
  rw [← flatten_rows (['\n'].intercalate _ ++ _), rows_turnedOff hne]
  rfl

theorem rows_turnedOff_eq (hne : t ≠ []) :
    rows (turnedOff t) = (lines t).map fun line ↦ "##".toList ++ line ++ ['\n'] := by
  rw [← intercalate_turnedOff hne, rows_turnedOff hne]

/-- **A text that is turned off is there again when the marks are taken off**, up to its line breaks. -/
theorem drop_turnedOff (hne : t ≠ []) (hend : t.getLast? ≠ some '\n') :
    (rows (turnedOff t)).flatMap (·.drop 2) = feeds t ++ ['\n'] := by
  rw [rows_turnedOff_eq hne, ← flatMap_lines hne hend, List.flatMap_map]
  rfl

end Text

namespace Suggestion

open Text

variable {ss : List Suggestion} {us : List Text} {t : Text} {line count : Nat} {style : Style} {e : Edit}

/-! ### Blocks of texts -/

/-- Texts without a complaint among them are headers, so that their block does not end in a line break. -/
theorem unbroken_block (hne : texts ss (.ofText t) style ≠ [])
    (hmarker : ¬ complaintMarker <:+: block ss (.ofText t) style) : Unbroken (block ss (.ofText t) style) := by
  refine unbroken_intercalate hne fun u hu ↦ ?_
  obtain ⟨s, -, filled, hfilled, rfl⟩ := mem_texts.1 hu
  rcases proposal?_cases hfilled with ⟨hfill, -⟩ | hcomplaint
  · exact unbroken_of_fill hfill
  · exact absurd ((holds_iff.1 hcomplaint).trans (infix_intercalate hu)) hmarker

/-- The number of rows of the longest header is the greatest that is proposed. -/
theorem span_eq_max? (ss : List Suggestion) (d : Document) (style : Style) :
    span ss d style = ((proposals ss d style).map (·.2.lineCount)).max?.getD 0 := by
  rw [span]
  cases (proposals ss d style).map (·.2.lineCount) with
  | nil => rfl
  | cons n ns => rw [List.max?_cons', List.foldl_cons, Nat.zero_max, Option.getD_some]

/-- An edit that puts the texts `us` at a header of `count` rows. -/
structure Merges (us : List Text) (line count : Nat) (style : Style) (e : Edit) : Prop where
  startLine : e.startLine = line
  lineCount : e.lineCount = count
  /-- A single text without the marker of a complaint replaces the header, if that is wished. -/
  replace : e.replace = true ↔ style.replace = true ∧ ∃ u, us = [u] ∧ ¬ complaintMarker <:+: u
  /-- The texts are written as they are where they replace the header or a complaint is among them. -/
  on : e.replace = true ∨ complaintMarker <:+: ['\n'].intercalate us →
    e.text = ['\n'].intercalate us ++ ['\n']
  /-- Otherwise they are turned off, and nothing is lost of them but carriage returns before line feeds. -/
  off : e.replace = false → ¬ complaintMarker <:+: ['\n'].intercalate us →
    e.text = turnedOff (['\n'].intercalate us) ∧ (∀ row ∈ rows e.text, "##".toList <+: row) ∧
      (rows e.text).flatMap (·.drop 2) = feeds (['\n'].intercalate us) ++ ['\n']

theorem replaces_iff : replaces ss (.ofText t) style = true ↔
    style.replace = true ∧ ∃ u, texts ss (.ofText t) style = [u] ∧ ¬ complaintMarker <:+: u := by
  simp only [replaces, Bool.and_eq_true, decide_eq_true_eq, Bool.not_eq_true', ← Bool.not_eq_true, holds_iff,
    List.length_eq_one_iff, and_assoc]
  refine and_congr_right fun _ ↦ ⟨?_, ?_⟩
  · rintro ⟨⟨u, hu⟩, hmarker⟩
    rw [block, hu, List.intercalate_singleton] at hmarker
    exact ⟨u, hu, hmarker⟩
  · rintro ⟨u, hu, hmarker⟩
    rw [block, hu, List.intercalate_singleton]
    exact ⟨⟨u, rfl⟩, hmarker⟩

theorem merges_of_merge? (hline : ∀ s ∈ ss, s.line = line) (h : merge? ss (.ofText t) style = some e) :
    Merges (texts ss (.ofText t) style) line (span ss (.ofText t) style) style e := by
  obtain ⟨-, hcount, hne, -, hreplace, htext⟩ := merge?_ok h
  have htexts : texts ss (.ofText t) style ≠ [] := fun hnil ↦ hne (by rw [block, hnil]; rfl)
  refine ⟨startLine_of_merge? hline h, hcount, hreplace ▸ replaces_iff, fun hon ↦ ?_, fun hoff hmarker ↦ ?_⟩
  · rw [htext, if_pos (by rwa [Bool.or_eq_true, holds_iff])]
    rfl
  · have hend : (block ss (.ofText t) style).getLast? ≠ some '\n' := by
      obtain ⟨front, c, hblock, -, hc⟩ := unbroken_block htexts hmarker
      rwa [hblock, List.getLast?_concat, ne_eq, Option.some_inj]
    rw [hoff, Bool.false_or, if_neg (by rwa [holds_iff]), intercalate_turnedOff hne] at htext
    rw [htext]
    refine ⟨rfl, fun row hrow ↦ ?_, drop_turnedOff hne hend⟩
    rw [rows_turnedOff_eq hne] at hrow
    obtain ⟨line, -, rfl⟩ := List.mem_map.1 hrow
    rw [List.append_assoc]
    exact List.prefix_append _ _

theorem merge?_eq_none_iff (hne : ss ≠ []) (hline : ∀ s ∈ ss, s.line = line) :
    merge? ss (.ofText t) style = none ↔ block ss (.ofText t) style = [] ∨
      block ss (.ofText t) style = currentText (.ofText t) line (span ss (.ofText t) style) := by
  obtain ⟨s, rest, rfl⟩ := List.exists_cons_of_ne_nil hne
  rw [merge?_cons, hline s List.mem_cons_self, ite_eq_left_iff, Bool.or_eq_true, List.isEmpty_iff,
    decide_eq_true_eq]
  simp [or_iff_not_imp_left]

/-- **Merging follows its reference definition.** Let suggestions for one line be given. Their proposals are
ranked by the samples behind them, with ties as they are given, and of each text the first one is taken; both
can be done, in one way. There is no edit exactly if no text is left, or the texts below each other are empty or
what the rows of the longest header are already. Otherwise the edit is at that line and of that many rows, it
replaces these if that is wished and a single text, not a complaint, is left, and it writes the texts as they are
or turned off, as `Merges` says. -/
theorem merge?_eq_reference (hne : ss ≠ []) (hline : ∀ s ∈ ss, s.line = line) (t : Text) (style : Style) :
    (∃ ranked us, Ranked Prod.fst (proposals ss (.ofText t) style) ranked ∧ Firsts (ranked.map (·.2.text)) us) ∧
    ∀ ranked us count, Ranked Prod.fst (proposals ss (.ofText t) style) ranked →
      Firsts (ranked.map (·.2.text)) us →
      count = ((proposals ss (.ofText t) style).map (·.2.lineCount)).max?.getD 0 →
      (merge? ss (.ofText t) style = none ↔ us = [] ∨ ['\n'].intercalate us = [] ∨
        ['\n'].intercalate us = currentText (.ofText t) line count) ∧
      ∀ e, merge? ss (.ofText t) style = some e → Merges us line count style e := by
  refine ⟨⟨_, _, (ranked_iff Prod.fst).2 rfl, firsts_iff.2 rfl⟩, fun ranked us count hranked hus hcount ↦ ?_⟩
  obtain rfl : ranked = _ := (ranked_iff Prod.fst).1 hranked
  obtain rfl : us = texts ss (.ofText t) style := firsts_iff.1 hus
  obtain rfl : count = span ss (.ofText t) style := hcount.trans (span_eq_max? ss _ style).symm
  refine ⟨?_, fun e he ↦ merges_of_merge? hline he⟩
  rw [merge?_eq_none_iff hne hline, block]
  refine ⟨.inr, fun h ↦ h.elim (fun hnil ↦ .inl ?_) id⟩
  rw [hnil]
  rfl

/-- Three suggestions change a header in two ways, and one leaves it as it is. The two texts with the same number of
samples stay in order, and both are turned off. -/
theorem merge?_eq_reference_four : ∃ (t : Text) (ss : List Suggestion) (e : Edit),
    t = "def f(a: m.A, b: n.B) -> None: pass\n".toList ∧
    ss = [⟨none, 0, some "m.py".toList, 1, [], "None".toList⟩, ⟨none, 0, none, 9, [], "None".toList⟩,
      ⟨none, 0, some "n.py".toList, 2, [], "None".toList⟩, ⟨none, 0, some "m.py".toList, 2, [], "None".toList⟩] ∧
    merge? ss (.ofText t) {} = some e ∧ e.startLine = 0 ∧ e.lineCount = 1 ∧ e.replace = false ∧
    e.text = "##def f(a: m.A, b: B) -> None: pass\n##def f(a: A, b: n.B) -> None: pass\n".toList := by
  have hsame : proposal? ⟨none, 0, none, 9, [], "None".toList⟩
      (.ofText "def f(a: m.A, b: n.B) -> None: pass\n".toList) {} = none := by decide +kernel
  have hm : ∀ samples ∈ [1, 2], proposal? ⟨none, 0, some "m.py".toList, samples, [], "None".toList⟩
      (.ofText "def f(a: m.A, b: n.B) -> None: pass\n".toList) {} =
      some ⟨"def f(a: A, b: n.B) -> None: pass".toList, 1⟩ := by decide +kernel
  have hn : proposal? ⟨none, 0, some "n.py".toList, 2, [], "None".toList⟩
      (.ofText "def f(a: m.A, b: n.B) -> None: pass\n".toList) {} =
      some ⟨"def f(a: m.A, b: B) -> None: pass".toList, 1⟩ := by decide +kernel
  have hproposals : proposals [⟨none, 0, some "m.py".toList, 1, [], "None".toList⟩,
      ⟨none, 0, none, 9, [], "None".toList⟩, ⟨none, 0, some "n.py".toList, 2, [], "None".toList⟩,
      ⟨none, 0, some "m.py".toList, 2, [], "None".toList⟩]
      (.ofText "def f(a: m.A, b: n.B) -> None: pass\n".toList) {} =
      [(1, ⟨"def f(a: A, b: n.B) -> None: pass".toList, 1⟩), (2, ⟨"def f(a: m.A, b: B) -> None: pass".toList, 1⟩),
        (2, ⟨"def f(a: A, b: n.B) -> None: pass".toList, 1⟩)] := by
    simp only [proposals, List.filterMap_cons, List.filterMap_nil, hsame, hn, hm 1 (by simp), hm 2 (by simp),
      Option.map_some, Option.map_none]
  have hranked : Ranked Prod.fst
      [(1, (⟨"def f(a: A, b: n.B) -> None: pass".toList, 1⟩ : Filled)),
        (2, ⟨"def f(a: m.A, b: B) -> None: pass".toList, 1⟩), (2, ⟨"def f(a: A, b: n.B) -> None: pass".toList, 1⟩)]
      [(2, ⟨"def f(a: m.A, b: B) -> None: pass".toList, 1⟩), (2, ⟨"def f(a: A, b: n.B) -> None: pass".toList, 1⟩),
        (1, ⟨"def f(a: A, b: n.B) -> None: pass".toList, 1⟩)] :=
    ⟨by decide, fun samples ↦ by rcases samples with _ | _ | _ | samples <;> simp⟩
  have hfirsts : Firsts ["def f(a: m.A, b: B) -> None: pass".toList, "def f(a: A, b: n.B) -> None: pass".toList,
      "def f(a: A, b: n.B) -> None: pass".toList]
      ["def f(a: m.A, b: B) -> None: pass".toList, "def f(a: A, b: n.B) -> None: pass".toList] :=
    ⟨fun u ↦ by simp, by decide⟩
  have hline : ∀ s ∈ ([⟨none, 0, some "m.py".toList, 1, [], "None".toList⟩, ⟨none, 0, none, 9, [], "None".toList⟩,
      ⟨none, 0, some "n.py".toList, 2, [], "None".toList⟩,
      ⟨none, 0, some "m.py".toList, 2, [], "None".toList⟩] : List Suggestion), s.line = 0 := by simp
  obtain ⟨-, hreference⟩ := merge?_eq_reference (List.cons_ne_nil _ _) hline
    "def f(a: m.A, b: n.B) -> None: pass\n".toList {}
  rw [hproposals] at hreference
  obtain ⟨hnone, hsome⟩ := hreference _ _ 1 hranked hfirsts rfl
  obtain ⟨e, he⟩ := Option.ne_none_iff_exists'.1 fun h ↦ absurd (hnone.1 h) (by decide +kernel)
  have hmerges := hsome e he
  have hreplace : e.replace = false := by
    rw [← Bool.not_eq_true, hmerges.replace]
    simp
  refine ⟨_, _, e, rfl, rfl, he, hmerges.startLine, hmerges.lineCount, hreplace, ?_⟩
  rw [(hmerges.off hreplace (by rw [← holds_iff]; decide +kernel)).1]
  decide +kernel

end Suggestion

end HeaderHints
