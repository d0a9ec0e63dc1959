import HeaderHints.Proofs.ReadingRun

/-!
# Progress of a scan

Every step of a scan uses something up (`Scan.step_progress`): its budget goes down unless the step produces the
end marker, and a step that produces no lexeme leaves a row behind. The bounds on the number of steps are large
enough for that, and a larger one makes no difference (`stringRows_add`, `nextWithin_add` and `readWithin_add`).

A step asks for lines in order, and as long as the source has not run out, every line that has been asked for
is a row that has been read (`Scan.Requested`).
-/

namespace HeaderHints

open Lexeme

namespace Feed

variable {f : Feed} {first : Nat}

/-- The lines that have been asked for are those from `first` on, each of them once and in order. -/
def Orderly (first : Nat) (f : Feed) : Prop :=
  ∃ n, f.asked = List.range' first n ∧ f.index = first + n

theorem orderly_start (source : Source) (first : Nat) : (start source first).Orderly first :=
  ⟨0, rfl, rfl⟩

theorem Orderly.request (h : f.Orderly first) (upcoming : Source) :
    Orderly first ⟨upcoming, f.index + 1, f.asked ++ [f.index]⟩ := by
  obtain ⟨n, hasked, hindex⟩ := h
  refine ⟨n + 1, ?_, ?_⟩
  · simp only [hasked, hindex, List.range'_concat, Nat.one_mul]
  · simp only [hindex, Nat.add_assoc]

end Feed

namespace Scan

variable {s s₁ : Scan} {r : Option Lexeme × Scan} {first : Nat}

/-- The lines from `first` on have been asked for in order, and each of them is a row unless the source has run
out. -/
structure Requested (first : Nat) (s : Scan) : Prop where
  orderly : s.feed.Orderly first
  rows : s.exhausted = false → s.feed.index = first + s.rows.length

/-- The number of rows that the scan has not left. -/
def rowsLeft (s : Scan) : Nat :=
  s.feed.upcoming.length + s.current.toList.length

/-- What a row adds to the budget of a scan. A character is a lexeme and may open a string, the end of the row is
a lexeme, and where the row starts a logical line, so may be its margin: one that opens a block takes a character
and is followed by another one. -/
def rowBudget (atStart : Bool) (t : Text) : Nat :=
  2 * t.length + 1 + if atStart then min t.length 2 else 0

/-- What the rows to come add to the budget. -/
def sourceBudget : Source → Nat
  | [] => 0
  | row :: more => rowBudget true (row.getD []) + sourceBudget more

/-- A bound on the number of lexemes to come, the end marker apart. It is closer than the weight. -/
def budget (s : Scan) : Nat :=
  s.queued.length + s.levels.length + s.frames.length +
    (s.current.elim 0 fun p ↦ rowBudget s.atStart p.2) + sourceBudget s.feed.upcoming

theorem rowBudget_le (atStart : Bool) (t : Text) : rowBudget atStart t ≤ 2 * t.length + 3 := by
  unfold rowBudget
  split <;> omega

theorem sourceBudget_le (source : Source) : sourceBudget source ≤ sourceWeight source := by
  induction source with
  | nil => exact Nat.le_refl _
  | cons row more ih =>
    have hrow := rowBudget_le true (row.getD [])
    rw [sourceBudget, sourceWeight]
    omega

theorem budget_le_weight (s : Scan) : s.budget ≤ s.weight := by
  have hsource := sourceBudget_le s.feed.upcoming
  unfold budget weight
  cases s.current with
  | none =>
    simp only [Option.elim_none, Option.map_none, Option.getD_none]
    omega
  | some p =>
    have hrow := rowBudget_le s.atStart p.2
    simp only [Option.elim_some, Option.map_some, Option.getD_some]
    omega

/-- What a step comes to. -/
structure Progress (s : Scan) (r : Option Lexeme × Scan) : Prop where
  /-- No request is taken back. -/
  later : s.feed.index ≤ r.2.feed.index
  /-- Lines are asked for in order. -/
  requested : ∀ {first : Nat}, s.Requested first → r.2.Requested first
  /-- Something is used up, unless the scan is at its end. -/
  lighter : r.2.budget < s.budget ∨ ∃ x, r.1 = some x ∧ x.tag = .endMarker
  /-- A step without a lexeme leaves a row. -/
  quiet : r.1 = none → r.2.rowsLeft < s.rowsLeft

/-- What a scan comes to in the course of a step. If it holds no row then, its last request has failed, and that
line is no row. -/
structure Reaches (s s₁ : Scan) : Prop where
  later : s.feed.index ≤ s₁.feed.index
  orderly : ∀ {first : Nat}, s.feed.Orderly first → s₁.feed.Orderly first
  requested : s₁.current ≠ none → ∀ {first : Nat}, s.Requested first → s₁.Requested first
  budget : s₁.budget ≤ s.budget
  rowsLeft : s₁.rowsLeft ≤ s.rowsLeft

/-! ### Rows -/

theorem reaches_self (s : Scan) : Reaches s s :=
  ⟨Nat.le_refl _, id, fun _ ↦ id, Nat.le_refl _, Nat.le_refl _⟩

theorem reaches_load (s : Scan) : Reaches s s.load := by
  by_cases hcur : s.current = none
  · rw [load_eq_ask hcur]
    rcases s.feed.ask_eq with ⟨c, t, more, hup, hask⟩ | ⟨-, hask⟩ <;> rw [hask]
    · refine ⟨Nat.le_succ _, fun h ↦ h.request _,
        fun _ {first} h ↦ ⟨h.orderly.request _, fun hawake ↦ ?_⟩, ?_, ?_⟩
      · have hrows := h.rows hawake
        simp only [rows, hcur, Option.map_none, Option.toList_none, List.append_nil] at hrows
        simp [rows, hrows, Nat.add_assoc]
      · have hrow : rowBudget s.atStart (c :: t) ≤ rowBudget true (c :: t) := by
          unfold rowBudget
          split <;> simp
        simp only [Scan.budget, hcur, hup, sourceBudget, Option.map_some, Option.elim_some, Option.elim_none,
          Option.getD_some]
        omega
      · simp [rowsLeft, hcur, hup]
    · refine ⟨Nat.le_succ _, fun h ↦ h.request _, fun h ↦ absurd rfl h, ?_, ?_⟩
      · simp only [Scan.budget, sourceBudget, Option.map_none, Option.elim_none]
        omega
      · simp [rowsLeft]
  · obtain ⟨p, hp⟩ := Option.ne_none_iff_exists'.1 hcur
    rw [load_of_some hp]
    exact reaches_self s

theorem Requested.congr {s' : Scan} (h : s.Requested first) (hfeed : s'.feed = s.feed)
    (hrows : s'.rows.length = s.rows.length) (hexhausted : s'.exhausted = s.exhausted) :
    s'.Requested first := by
  refine ⟨hfeed ▸ h.orderly, fun hawake ↦ ?_⟩
  rw [hfeed, hrows]
  exact h.rows (hexhausted ▸ hawake)

theorem Requested.leaveRow (h : s.Requested first) : s.leaveRow.Requested first :=
  h.congr rfl (by simp [Scan.rows, Scan.leaveRow]) rfl

theorem leaveRow_budget_le (s : Scan) : s.leaveRow.budget ≤ s.budget := by
  simp only [budget, leaveRow, Option.elim_none]
  omega

/-- Leaving a row and getting hold of the next one uses up a row. -/
theorem Reaches.nextRow (h : Reaches s s₁) (hcur : s₁.current ≠ none) :
    Reaches s s₁.leaveRow.load ∧ s₁.leaveRow.load.rowsLeft < s₁.rowsLeft := by
  have hload := reaches_load s₁.leaveRow
  obtain ⟨p, hp⟩ := Option.ne_none_iff_exists'.1 hcur
  have hleft : s₁.leaveRow.rowsLeft < s₁.rowsLeft := by simp [Scan.rowsLeft, Scan.leaveRow, hp]
  refine ⟨⟨h.later.trans hload.later, fun ho ↦ hload.orderly (h.orderly ho), ?_, ?_, ?_⟩, ?_⟩
  · exact fun hne first hs ↦ hload.requested hne (h.requested hcur hs).leaveRow
  · exact (hload.budget.trans s₁.leaveRow_budget_le).trans h.budget
  · exact (hload.rowsLeft.trans hleft.le).trans h.rowsLeft
  · exact hload.rowsLeft.trans_lt hleft

/-! ### The end of the source -/

theorem Reaches.finish (h : Reaches s s₁) : Progress s s₁.finish := by
  unfold Scan.finish
  split
  · exact ⟨h.later, fun hs ↦ ⟨h.orderly hs.orderly, by simp⟩, .inr ⟨_, rfl, rfl⟩, by simp⟩
  · rename_i level outer hlevels
    refine ⟨h.later, fun hs ↦ ⟨h.orderly hs.orderly, by simp⟩, .inl ?_, by simp⟩
    refine lt_of_lt_of_le ?_ h.budget
    simp only [Scan.budget, hlevels, List.length_map, List.length_nil, List.length_cons]
    omega

/-! ### Steps within a row -/

/-- A step that asks for nothing and stays in the row at hand, or leaves it. -/
structure Keeps (s : Scan) (r : Option Lexeme × Scan) : Prop where
  feed : r.2.feed = s.feed
  rows : r.2.rows.length = s.rows.length
  exhausted : r.2.exhausted = s.exhausted
  budget : r.2.budget < s.budget
  quiet : r.1 = none → r.2.current = none

theorem Reaches.keeps (h : Reaches s s₁) (hcur : s₁.current ≠ none) (hr : Keeps s₁ r) : Progress s r := by
  refine ⟨hr.feed ▸ h.later, fun hs ↦ (h.requested hcur hs).congr hr.feed hr.rows hr.exhausted,
    .inl (hr.budget.trans_le h.budget), fun hnone ↦ ?_⟩
  · refine lt_of_lt_of_le ?_ h.rowsLeft
    obtain ⟨p, hp⟩ := Option.ne_none_iff_exists'.1 hcur
    simp [Scan.rowsLeft, hr.feed, hr.quiet hnone, hp]

/-- A lexeme of the row at hand, where brackets and strings may be opened or closed. -/
theorem keeps_produce {b t : Text} (hcur : s.current = some (b, t)) {depth : Nat} {frames : List Frame}
    {tag : Tag} {before text rest : Text} (hlen : rest.length ≤ t.length ∧
      2 * rest.length + frames.length < 2 * t.length + s.frames.length) :
    Keeps s (({ s with depth, frames } : Scan).produce tag before text rest) where
  feed := rfl
  rows := by simp [produce, Scan.rows, hcur]
  exhausted := rfl
  budget := by
    simp only [produce, Scan.budget, hcur, Option.elim_some, rowBudget]
    split <;> omega
  quiet h := absurd h (by simp [produce])

theorem keeps_lineBreak {b t : Text} (hcur : s.current = some (b, t)) {before text rest : Text} :
    Keeps s (s.lineBreak before text rest) where
  feed := rfl
  rows := by simp [lineBreak, Scan.rows, hcur]
  exhausted := rfl
  budget := by
    simp only [lineBreak, Scan.budget, hcur, Option.elim_some, Option.elim_none, rowBudget]
    omega
  quiet _ := rfl

theorem keeps_leaveRow {b t : Text} (hcur : s.current = some (b, t)) :
    Keeps s (none, s.leaveRow) where
  feed := rfl
  rows := by simp [leaveRow, Scan.rows]
  exhausted := rfl
  budget := by
    simp only [leaveRow, Scan.budget, hcur, Option.elim_some, Option.elim_none, rowBudget]
    omega
  quiet _ := rfl

theorem Keeps.leaveRow (h : Keeps s r) : Keeps s (r.1, r.2.leaveRow) where
  feed := h.feed
  rows := by simpa [Scan.leaveRow, Scan.rows] using h.rows
  exhausted := h.exhausted
  budget := (leaveRow_budget_le _).trans_lt h.budget
  quiet _ := rfl

theorem keeps_literal {b t : Text} (hcur : s.current = some (b, t)) (hframes : s.frames ≠ [])
    (frame : Frame) : Keeps s (s.literal frame b t) := by
  have hlen := congrArg List.length (splitLiteral_append frame.quotes (!frame.fields.isEmpty) t)
  have hpos := List.length_pos_iff.2 hframes
  rw [List.length_append] at hlen
  unfold literal
  simp only
  generalize splitLiteral frame.quotes (!frame.fields.isEmpty) t = parts at hlen
  split
  · -- literal text up to a line break, which ends a string that is not tripled
    split
    · refine (keeps_produce hcur ?_).leaveRow
      simp only [List.length_cons] at hlen
      omega
    split
    · rename_i text after _ hne
      refine keeps_produce hcur ?_
      have htext : 0 < text.length := List.length_pos_iff.2 (by simpa using hne)
      simp only at hlen
      omega
    · refine keeps_produce hcur ?_
      simp only [List.length_tail]
      simp only at hlen
      omega
  · refine keeps_produce hcur ?_
    simp only [List.length_cons] at hlen
    omega
  · split
    · exact keeps_leaveRow hcur
    · refine keeps_produce hcur ?_
      simp only [List.length_tail, List.length_nil] at hlen ⊢
      omega
  · refine keeps_produce hcur ?_
    simp only [List.length_modifyHead, List.length_cons, List.length_nil] at hlen ⊢
    omega
  · split
    · refine keeps_produce hcur ?_
      simp only [List.length_modifyHead, List.length_cons, List.length_nil] at hlen ⊢
      omega
    · refine keeps_produce hcur ?_
      simp only [List.length_cons, List.length_nil] at hlen ⊢
      omega
  · refine keeps_produce hcur ?_
    simp only [List.length_tail, List.length_drop, List.length_nil] at hlen ⊢
    omega

theorem keeps_operator {b t : Text} (hcur : s.current = some (b, t)) {before op rest : Text}
    (hlen : rest.length < t.length) : Keeps s (s.operator before op rest) := by
  refine keeps_produce hcur ?_
  simp only [List.length_modifyHead]
  omega

/-! ### Strings -/

/-- A string that has been begun: what it takes in further rows is less than what there was. -/
theorem Reaches.stringRows {q : Quotes} {opening : Position} (n : Nat) :
    ∀ {s₁ : Scan}, Reaches s s₁ → s₁.budget < s.budget → Progress s (stringRows q opening n s₁) := by
  induction n with
  | zero => exact fun h _ ↦ h.finish
  | succ n ih =>
    intro s₁ h hbudget
    rw [Scan.stringRows]
    split
    · exact h.finish
    · rename_i before rest hcur
      have hne : s₁.current ≠ none := by simp [hcur]
      -- the string ends or breaks off in this row
      have hstay : ∀ {x : Lexeme} {text rest' : Text} {hasContent : Bool}, text ++ rest' = rest →
          Progress s (some x, { s₁ with current := some (before ++ text, rest'), hasContent }) := by
        intro x text rest' hasContent happ
        refine ⟨h.later, fun hs ↦ (h.requested hne hs).congr rfl ?_ rfl,
          .inl (lt_of_le_of_lt ?_ hbudget), by simp⟩
        · simp [Scan.rows, hcur]
        · have hlen := congrArg List.length happ
          simp only [List.length_append] at hlen
          simp only [Scan.budget, hcur, Option.elim_some, rowBudget]
          split <;> omega
      split
      · exact hstay (append_of_body_eq_closed ‹_›)
      · exact hstay (append_of_body_eq_broken ‹_›)
      · exact ih (h.nextRow hne).1 (((reaches_load _).budget.trans s₁.leaveRow_budget_le).trans_lt hbudget)

theorem Reaches.string (h : Reaches s s₁) {b t : Text} (hcur : s₁.current = some (b, t))
    {before word rest : Text} {q : Quotes} (hlen : rest.length < t.length) :
    Progress s (s₁.string before word q rest) := by
  have hne : s₁.current ≠ none := by simp [hcur]
  rw [Scan.string]
  split
  · refine h.keeps hne (keeps_produce hcur ?_)
    simp only [List.length_cons]
    omega
  · have hlighter : ({ s₁ with current := some (before ++ word ++ q.text, rest) } : Scan).budget <
        s₁.budget := by
      simp only [Scan.budget, hcur, Option.elim_some, rowBudget]
      split <;> omega
    refine Reaches.stringRows _ ?_ (hlighter.trans_le h.budget)
    refine ⟨h.later, h.orderly, fun _ _ hs ↦ (h.requested hne hs).congr rfl ?_ rfl,
      hlighter.le.trans h.budget, ?_⟩
    · simp [Scan.rows, hcur]
    · simpa [Scan.rowsLeft, hcur] using h.rowsLeft

/-! ### Steps -/

theorem length_lt_of_append {text rest t : Text} (h : text ++ rest = t) (hne : text ≠ []) :
    rest.length < t.length := by
  have hpos := List.length_pos_iff.2 hne
  rw [← h, List.length_append]
  omega

theorem Reaches.word (h : Reaches s s₁) {b gap t before : Text} {c : Char}
    (hcur : s₁.current = some (b, gap ++ c :: t)) (hc : isNameStart c = true) :
    Progress s (match (c :: t).span isNamePart with
      | (word, rest) =>
        match Quotes.of? rest with
        | some q =>
          if isStringMark word then s₁.string before word q (rest.drop q.text.length)
          else s₁.produce .name before word rest
        | none => s₁.produce .name before word rest) := by
  obtain ⟨word, rest, hspan, happ, -⟩ := span_isNamePart t hc
  rw [hspan]
  have hlen := length_lt_of_append happ (by simp)
  have hname : Progress s (s₁.produce .name before (c :: word) rest) := by
    refine h.keeps (by simp [hcur]) (keeps_produce hcur ?_)
    rw [List.length_append]
    omega
  dsimp only
  split
  · split
    · refine h.string hcur ?_
      rw [List.length_append, List.length_drop]
      omega
    · exact hname
  · exact hname

theorem Reaches.plain (h : Reaches s s₁) {b t : Text} (hcur : s₁.current = some (b, t)) :
    Progress s (s₁.plain b t) := by
  have hne : s₁.current ≠ none := by simp [hcur]
  obtain ⟨gap, rest, hspan, rfl, -⟩ := span_isGap t
  -- a lexeme that takes some of the row
  have hproduce : ∀ {tag : Tag} {before text rest' : Text}, text ++ rest' = rest → text ≠ [] →
      Progress s (s₁.produce tag before text rest') := by
    intro tag before text rest' happ htext
    have hlen := length_lt_of_append happ htext
    refine h.keeps hne (keeps_produce hcur ?_)
    rw [List.length_append]
    omega
  unfold Scan.plain
  rw [hspan]
  dsimp only
  match rest with
  | [] => exact h.keeps hne (keeps_lineBreak hcur)
  | c :: t =>
    dsimp only
    split
    · -- a comment
      rename_i hcomment
      subst hcomment
      rw [List.span_eq_takeWhile_dropWhile]
      exact hproduce List.takeWhile_append_dropWhile (by simp [isBreak])
    split
    · exact h.keeps hne (keeps_lineBreak hcur)
    split
    · split <;> exact h.keeps hne (keeps_lineBreak hcur)
    split
    · exact h.keeps hne (keeps_leaveRow hcur)
    split
    · -- a number
      rename_i hnumber
      exact hproduce (splitNumber_append (c :: t)) (splitNumber_fst_ne_nil hnumber)
    split
    · -- a string without a word before it
      rename_i q hq
      obtain ⟨-, ⟨more, hmore⟩, hrest⟩ := Quotes.of?_eq_some hq
      have hlen := length_lt_of_append hrest.symm (by simp [hmore])
      refine h.string hcur ?_
      rw [List.length_append]
      omega
    split
    · exact h.word hcur ‹_›
    split
    · rename_i op hop
      obtain ⟨hmem, hrest⟩ := operator?_eq_some hop
      have hnil : [] ∉ operators := by decide
      have hlen := length_lt_of_append hrest.symm fun hnull ↦ hnil (hnull ▸ hmem)
      refine h.keeps hne (keeps_operator hcur ?_)
      rw [List.length_append]
      omega
    · exact hproduce List.singleton_append (by simp)

/-- The margin of a row gives a lexeme, or nothing and the scan stays where it is. -/
theorem Reaches.indentation (h : Reaches s s₁) {b t : Text} (hcur : s₁.current = some (b, t))
    (hstart : s₁.atStart = true) :
    (∃ s', s₁.indentation t = (none, s') ∧ Reaches s s' ∧ s'.current = s₁.current) ∨
      ∃ x s', s₁.indentation t = (some x, s') ∧ Progress s (some x, s') := by
  have hne : s₁.current ≠ none := by simp [hcur]
  obtain ⟨margin, text, hspan, ht, -⟩ := span_isGap t
  -- what the margin changes are the blocks that are open and the lexemes that are due
  have hreaches : ∀ {levels : List Nat}, levels.length ≤ s₁.levels.length →
      Reaches s { s₁ with atStart := false, levels } := by
    intro levels hlevels
    refine ⟨h.later, h.orderly, fun _ _ hs ↦ (h.requested hne hs).congr rfl rfl rfl, ?_, h.rowsLeft⟩
    refine le_trans ?_ h.budget
    simp only [Scan.budget, hcur, Option.elim_some, rowBudget]
    split <;> simp <;> omega
  have hkeeps : ∀ {levels : List Nat} {queued : List Lexeme} {x : Lexeme},
      queued.length + levels.length < s₁.queued.length + s₁.levels.length + min t.length 2 →
      Progress s (some x, { s₁ with atStart := false, levels, queued }) := by
    intro levels queued x hlen
    refine h.keeps hne ⟨rfl, rfl, rfl, ?_, by simp⟩
    simp only [Scan.budget, hcur, hstart, Option.elim_some, rowBudget, if_true, Bool.false_eq_true, if_false]
    omega
  unfold Scan.indentation
  rw [hspan]
  dsimp only
  split
  · exact .inl ⟨_, rfl, hreaches (Nat.le_refl _), rfl⟩
  rename_i hblank
  have hlen := congrArg List.length ht
  have htext : 0 < text.length := by
    cases text with
    | nil => exact absurd rfl hblank
    | cons => exact Nat.succ_pos _
  rw [List.length_append] at hlen
  split
  · -- a margin that opens a block is not empty
    rename_i hwide
    have hmargin : 0 < margin.length := by
      cases margin with
      | nil => exact absurd hwide (Nat.not_lt_zero _)
      | cons => exact Nat.succ_pos _
    exact .inr ⟨_, _, rfl, hkeeps (by rw [List.length_cons]; omega)⟩
  · have hlevels : (s₁.levels.takeWhile (marginWidth margin < ·)).length +
        (s₁.levels.dropWhile (marginWidth margin < ·)).length = s₁.levels.length := by
      rw [← List.length_append, List.takeWhile_append_dropWhile]
    split
    · exact .inl ⟨_, rfl, hreaches (by omega), rfl⟩
    · rename_i lexeme queued hlist
      refine .inr ⟨_, _, rfl, hkeeps ?_⟩
      have hqueued := congrArg List.length hlist
      rw [List.length_append, List.length_map, List.length_cons] at hqueued
      split at hqueued <;> simp only [List.length_nil, List.length_cons] at hqueued <;> omega

/-- **Progress of a scan**, by one step. -/
theorem step_progress (s : Scan) : Progress s s.step := by
  unfold step
  split
  · rename_i x queued hqueued
    refine ⟨Nat.le_refl _, fun hs ↦ hs.congr rfl rfl rfl, .inl ?_, by simp⟩
    simp only [Scan.budget, hqueued, List.length_cons]
    omega
  split
  · exact ⟨Nat.le_refl _, id, .inr ⟨_, rfl, rfl⟩, by simp⟩
  have hload := reaches_load s
  dsimp only
  split
  · exact hload.finish
  · rename_i b t frame outer hcur hframes
    split
    · exact hload.keeps (by simp [hcur]) (keeps_literal hcur (by simp [hframes]) frame)
    · exact hload.plain hcur
  · rename_i b t hcur hframes
    split
    · rename_i hstart
      rcases hload.indentation hcur hstart with ⟨s', hind, hreaches, hcur'⟩ | ⟨x, s', hind, hprogress⟩
      · rw [hind]
        exact hreaches.plain (hcur'.trans hcur)
      · rw [hind]
        exact hprogress
    · exact hload.plain hcur

/-! ### Runs -/

/-- A step without a lexeme and what comes after it. -/
theorem Progress.trans (h : Progress s (none, s₁)) (hr : Progress s₁ r) : Progress s r where
  later := h.later.trans hr.later
  requested hs := hr.requested (h.requested hs)
  lighter := hr.lighter.imp_left fun hlt ↦ hlt.trans (h.lighter.resolve_right (by simp))
  quiet hnone := (hr.quiet hnone).trans (h.quiet rfl)

theorem nextWithin_progress (n : Nat) :
    ∀ s : Scan, Progress s (some (nextWithin n s).1, (nextWithin n s).2) := by
  induction n with
  | zero => exact fun s ↦ ⟨Nat.le_refl _, id, .inr ⟨_, rfl, rfl⟩, by simp⟩
  | succ n ih =>
    intro s
    have hstep := step_progress s
    rw [nextWithin]
    split
    · rename_i x s' heq
      rwa [heq] at hstep
    · rename_i s' heq
      rw [heq] at hstep
      exact hstep.trans (ih s')

/-- Rows that are left bound the rows of a string. -/
theorem stringRows_add {q : Quotes} {opening : Position} (k n : Nat) :
    ∀ {s : Scan}, s.rowsLeft < n → stringRows q opening (n + k) s = stringRows q opening n s := by
  induction n with
  | zero => exact fun h ↦ absurd h (Nat.not_lt_zero _)
  | succ n ih =>
    intro s h
    rw [Nat.add_right_comm, stringRows, stringRows]
    split
    · rfl
    · rename_i before rest hcur
      split
      · rfl
      · rfl
      · have hleft := ((reaches_self s).nextRow (by simp [hcur])).2
        exact ih (by omega)

/-- Rows that are left bound the steps without a lexeme. -/
theorem nextWithin_add (k n : Nat) :
    ∀ {s : Scan}, s.rowsLeft < n → nextWithin (n + k) s = nextWithin n s := by
  induction n with
  | zero => exact fun h ↦ absurd h (Nat.not_lt_zero _)
  | succ n ih =>
    intro s h
    have hstep := step_progress s
    rw [Nat.add_right_comm, nextWithin, nextWithin]
    split
    · rfl
    · rename_i s' heq
      rw [heq] at hstep
      have hquiet : s'.rowsLeft < s.rowsLeft := hstep.quiet rfl
      exact ih (by omega)

end Scan

namespace Header

open Scan

/-- What reading a header comes to. -/
theorem readWithin_progress (n : Nat) :
    ∀ {s : Scan} {d : Draft}, s.feed.index ≤ (readWithin n s d).2.feed.index ∧
      ∀ {first : Nat}, s.Requested first → (readWithin n s d).2.Requested first := by
  induction n with
  | zero => exact ⟨Nat.le_refl _, id⟩
  | succ n ih =>
    intro s d
    have hnext := nextWithin_progress (s.feed.upcoming.length + 3) s
    rw [readWithin]
    dsimp only
    split
    · exact ⟨hnext.later, hnext.requested⟩
    · split
      · exact ⟨hnext.later, hnext.requested⟩
      · exact ⟨hnext.later.trans ih.1, fun hs ↦ ih.2 (hnext.requested hs)⟩

/-- The budget of a scan bounds the lexemes of a header. -/
theorem readWithin_add (k n : Nat) :
    ∀ {s : Scan} {d : Draft}, s.budget < n → d.isComplete = false →
      readWithin (n + k) s d = readWithin n s d := by
  induction n with
  | zero => exact fun h ↦ absurd h (Nat.not_lt_zero _)
  | succ n ih =>
    intro s d h hd
    have hnext := nextWithin_progress (s.feed.upcoming.length + 3) s
    rw [Nat.add_right_comm, readWithin, readWithin]
    dsimp only
    split
    · rfl
    · rename_i d' htake
      split
      · rfl
      · rename_i hincomplete
        rcases hnext.lighter with hlt | ⟨x, hx, htag⟩
        · have hlighter : s.next.2.budget < s.budget := hlt
          exact ih (by omega) (by simpa using hincomplete)
        · obtain rfl := Option.some.inj hx
          exact absurd htake (take_error (.inr htag) hd)

end Header

end HeaderHints
