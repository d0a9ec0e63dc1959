import HeaderHints.Proofs.ScanRun

/-!
# The end of a scan

A scan comes to an end, and stays there (`Lexeme.ofText_ends`). Each lexeme before the end marker uses up some of
the budget of the scan, and at the start of a text the budget is at most four times the bytes of the text: a row
of one character has a lexeme for it and one for its end, and the others are less crowded.

The end marker is produced when nothing is due, so the scan does not move any more.
-/

namespace HeaderHints

open Lexeme

namespace Text

theorem length_le_bytes (t : Text) : t.length ≤ bytes t := by
  induction t with
  | nil => exact Nat.le_refl _
  | cons c t ih =>
    have := c.utf8Size_pos
    rw [List.length_cons, bytes_cons]
    omega

end Text

namespace Scan

variable {source : Source} {first : Nat} {s : Scan}

/-! ### The number of lexemes -/

/-- The lexemes up to the end marker, if the bound is not below the budget. -/
theorem restWithin_ends (n : Nat) : ∀ {s : Scan}, s.ended = false → s.budget < n →
    ∃ lexemes last, (restWithin n s).1 = lexemes ++ [last] ∧ last.tag = .endMarker ∧
      (∀ x ∈ lexemes, x.tag ≠ .endMarker) ∧ lexemes.length ≤ s.budget := by
  induction n with
  | zero => exact fun _ h ↦ absurd h (Nat.not_lt_zero _)
  | succ n ih =>
    intro s hended hbudget
    have hnext := nextWithin_progress (s.feed.upcoming.length + 3) s
    rw [restWithin_succ n hended]
    by_cases htag : s.next.1.tag = .endMarker
    · refine ⟨[], s.next.1, ?_, htag, by simp, Nat.zero_le _⟩
      rw [restWithin_of_ended n (by simp [htag])]
      rfl
    · have hless : s.next.2.budget < s.budget := by
        refine hnext.lighter.resolve_right ?_
        rintro ⟨x, hx, hend⟩
        obtain rfl := Option.some.inj hx
        exact htag hend
      obtain ⟨lexemes, last, hrest, hlast, hmem, hlen⟩ :=
        ih (s := { s.next.2 with ended := decide (s.next.1.tag = .endMarker) }) (by simp [htag])
          (show s.next.2.budget < n by omega)
      have hlen' : lexemes.length ≤ s.next.2.budget := hlen
      refine ⟨s.next.1 :: lexemes, last, by rw [hrest]; rfl, hlast, ?_, ?_⟩
      · exact List.forall_mem_cons.2 ⟨htag, hmem⟩
      · rw [List.length_cons]
        omega

/-- The budget of rows is at most four times their bytes. -/
theorem sourceBudget_rows {rows : List Text} (h : ∀ row ∈ rows, row ≠ []) :
    sourceBudget (rows.map some) ≤ 4 * Text.bytes rows.flatten := by
  induction rows with
  | nil => exact Nat.zero_le _
  | cons row rows ih =>
    obtain ⟨hrow, hrows⟩ := List.forall_mem_cons.1 h
    have hlen := List.length_pos_iff.2 hrow
    have hbytes := row.length_le_bytes
    have hrest := ih hrows
    rw [List.map_cons, sourceBudget, Option.getD_some, rowBudget, if_pos rfl, List.flatten_cons,
      Text.bytes_append]
    omega

theorem budget_start (t : Text) : (start (Document.ofText t).source 0).budget ≤ 4 * Text.bytes t := by
  have hrows := sourceBudget_rows fun row (h : row ∈ Document.ofText t) ↦ Text.ne_nil_of_mem_rows h
  rw [show (Document.ofText t).flatten = t from Text.flatten_rows t] at hrows
  simpa [budget, start, Feed.start, Document.source] using hrows

/-- The end marker is the last lexeme of a text and the only one of its class. -/
theorem exists_last_ofText (t : Text) : ∃ lexemes last, ofText t = lexemes ++ [last] ∧ last.tag = .endMarker ∧
    ∀ x ∈ lexemes, x.tag ≠ .endMarker := by
  obtain ⟨lexemes, last, hall, hlast, hmem, -⟩ :=
    restWithin_ends ((Scan.start (Document.ofText t).source 0).weight + 1) rfl
      (Nat.lt_succ_of_le (budget_le_weight _))
  exact ⟨lexemes, last, hall, hlast, hmem⟩

/-! ### After the end marker -/

theorem next_of_step {s' : Scan} {x : Lexeme} (h : s.step = (some x, s')) : s.next = (x, s') := by
  rw [next, nextWithin, h]

theorem Spent.next_of_nil (h : s.Spent) (hidle : s.queued = []) : s.next = (s.mark .endMarker [], s) :=
  next_of_step (by simp [Scan.step, hidle, h.exhausted])

/-- At its end the scan does not move. -/
theorem Ends.next {x : Lexeme} (h : Ends x s) (hx : x.tag = .endMarker) : s.next = (x, s) := by
  obtain rfl | ⟨rfl, hidle⟩ := h.lexeme
  · exact absurd hx (by simp [mark])
  · exact h.spent.next_of_nil hidle

/-- At its end the scan produces the dedents that are due, and then end markers. -/
theorem Spent.tag_after (h : s.Spent) (n : Nat) :
    (s.after n).next.1.tag = if n < s.queued.length then .dedent else .endMarker := by
  induction n generalizing s with
  | zero =>
    rw [Scan.after, Function.iterate_zero_apply]
    cases hq : s.queued with
    | nil =>
      rw [h.next_of_nil hq]
      rfl
    | cons y queued =>
      rw [next_of_step (step_of_queued hq), h.queued y (by simp [hq])]
      rfl
  | succ n ih =>
    rw [Scan.after, Function.iterate_succ_apply, ← Scan.after]
    cases hq : s.queued with
    | nil =>
      rw [h.next_of_nil hq, ih h, hq]
      rfl
    | cons y queued =>
      have hspent : ({ s with queued } : Scan).Spent :=
        ⟨h.exhausted, h.current, h.upcoming, fun z hz ↦ h.queued z (hq ▸ List.mem_cons_of_mem y hz)⟩
      rw [next_of_step (step_of_queued hq), ih hspent]
      simp

theorem Ends.after {x : Lexeme} (h : Ends x s) (hx : x.tag = .endMarker) (n : Nat) : s.after n = s := by
  induction n with
  | zero => rfl
  | succ n ih =>
    have hnext : (s.after n).next.2 = s := by rw [ih, h.next hx]
    rwa [Scan.after, Function.iterate_succ_apply']

end Scan

namespace Lexeme

open Scan

/-- **A scan comes to an end.** The lexemes of a text end in the only end marker among them, and there are at
most four of them for each byte of the text and a few more. After an end marker, whatever the source, each
further lexeme is that end marker again, and no line is asked for. -/
theorem ofText_ends (t : Text) :
    (∃ lexemes last, ofText t = lexemes ++ [last] ∧ last.tag = .endMarker ∧
      (∀ x ∈ lexemes, x.tag ≠ .endMarker) ∧ (ofText t).length ≤ 4 * Text.bytes t + 16) ∧
    ∀ (source : Source) (first n : Nat),
      let s := (Scan.start source first).after n
      s.next.1.tag = .endMarker → ∀ m,
        (s.next.2.after m).next.1 = s.next.1 ∧
        (s.next.2.after m).next.2.feed.asked = s.next.2.feed.asked := by
  refine ⟨?_, fun source first n ↦ ?_⟩
  · have hbudget := budget_start t
    obtain ⟨lexemes, last, hrest, hlast, hmem, hlen⟩ :=
      restWithin_ends ((Scan.start (Document.ofText t).source 0).weight + 1) rfl
        (Nat.lt_succ_of_le (budget_le_weight _))
    refine ⟨lexemes, last, hrest, hlast, hmem, ?_⟩
    rw [show ofText t = lexemes ++ [last] from hrest, List.length_append, List.length_singleton]
    omega
  · intro s hend m
    obtain ⟨p, hp⟩ := exists_between_after source first n
    have hends := hp.next.last hend
    rw [hends.after hend, hends.next hend]
    exact ⟨rfl, rfl⟩

/-- A block that the end of the source closes. The line behind that end is not asked for, however often the
next lexeme is. -/
theorem ofText_ends_block :
    (∃ lexemes, ofText "if a:\n  b".toList = lexemes ++ [⟨.endMarker, [], ⟨2, 0⟩, ⟨2, 0⟩⟩] ∧ lexemes.length = 8 ∧
      ∀ x ∈ lexemes, x.tag ≠ .endMarker) ∧
    ∀ m,
      let s := (Scan.start [some "if a:\n".toList, some "  b".toList, none, some "c".toList] 0).after 9
      (s.after m).next.1 = ⟨.endMarker, [], ⟨2, 0⟩, ⟨2, 0⟩⟩ ∧ (s.after m).next.2.feed.asked = [0, 1, 2] := by
  obtain ⟨⟨lexemes, last, hlexemes, -, hmem, -⟩, hends⟩ := ofText_ends "if a:\n  b".toList
  have hall : ofText "if a:\n  b".toList = (ofText "if a:\n  b".toList).dropLast ++
      [⟨.endMarker, [], ⟨2, 0⟩, ⟨2, 0⟩⟩] := by rfl
  obtain ⟨rfl, hlast⟩ := List.append_inj' (hlexemes.symm.trans hall) rfl
  refine ⟨⟨_, hall, by rfl, hmem⟩, fun m ↦ ?_⟩
  exact hends [some "if a:\n".toList, some "  b".toList, none, some "c".toList] 0 8 (by rfl) m

end Lexeme

end HeaderHints
