import HeaderHints.Proofs.EditedRows
import HeaderHints.Proofs.ScanEffects
import HeaderHints.Proofs.ScanEnd

/-!
# Where strings end

A string ends at the first closing quotes in what follows its opening, where a backslash takes the character or
the line break behind it along. `Quotes.Reads` says which texts a string goes on over, with no regard to rows,
and there are three ways for it to come to an end: its quotes are closed, its row breaks, or the source runs out
(`Quotes.exists_end`). `Lexeme.string_ends` says what the scan makes of each.

The scan reads a string row by row. While it does, the reading point moves over the units of `Quotes.Reads`: within
a row what the reader comes to stays the same (`Inside.move`), and at the end of a row the next one is loaded
(`Inside.nextRow`).
-/

namespace HeaderHints

open Lexeme

/-! ### Positions behind a text -/

/-- The position behind one more character. -/
def Position.past (p : Position) (c : Char) : Position :=
  if c = '\n' then ⟨p.row + 1, 0⟩ else ⟨p.row, p.col + c.utf8Size⟩

namespace Text

/-- The position behind a text. -/
def endPosition (t : Text) : Position :=
  t.foldl Position.past ⟨0, 0⟩

theorem foldl_past_of_notMem {b : Text} (hb : '\n' ∉ b) (p : Position) :
    b.foldl Position.past p = ⟨p.row, p.col + bytes b⟩ := by
  induction b generalizing p with
  | nil => rfl
  | cons c b ih =>
    rw [List.mem_cons, not_or] at hb
    rw [List.foldl_cons, ih hb.2, Position.past, if_neg (Ne.symm hb.1), bytes_cons, Nat.add_assoc]

theorem endPosition_flatten {past : List Text} (h : ∀ row ∈ past, IsRow row) :
    endPosition past.flatten = ⟨past.length, 0⟩ := by
  induction past using List.reverseRecOn with
  | nil => rfl
  | append_singleton past row ih =>
    rw [List.forall_mem_append, List.forall_mem_singleton] at h
    obtain ⟨hpast, body, rfl, hbody⟩ := h
    have hfront := ih hpast
    rw [endPosition] at hfront
    rw [endPosition, List.flatten_append, List.flatten_singleton, List.foldl_append, hfront, List.foldl_append,
      foldl_past_of_notMem hbody]
    simp [Position.past]

/-- A position in a row of a text. -/
theorem endPosition_of_rows {t b r : Text} {past more : List Text} (hrows : rows t = past ++ (b ++ r) :: more)
    (hb : '\n' ∉ b) : endPosition (past.flatten ++ b) = ⟨past.length, bytes b⟩ := by
  have hpast : ∀ row ∈ past, IsRow row := by
    intro row hmem
    obtain ⟨front, back, rfl⟩ := List.append_of_mem hmem
    have hrows' : rows t = front ++ row :: (back ++ (b ++ r) :: more) := by simpa using hrows
    exact isRow_of_rows hrows' (.inl (by simp))
  have hfront := endPosition_flatten hpast
  rw [endPosition] at hfront
  rw [endPosition, List.foldl_append, hfront, foldl_past_of_notMem hb]
  simp

end Text

namespace Lexeme.Quotes

/-! ### The extent of a string -/

/-- A string in the quotes `q` goes on over a text, with `v` behind it. A backslash takes the next character or
line break along, and what else there is neither closes the quotes nor breaks the row. -/
inductive Reads (q : Quotes) : Text → Text → Prop
  | nil {v : Text} : Reads q [] v
  | escaped {c : Char} {u v : Text} : isBreak c = false → Reads q u v → Reads q ('\\' :: c :: u) v
  | joined {e u v : Text} : e ∈ [['\n'], ['\r', '\n']] → Reads q u v → Reads q ('\\' :: e ++ u) v
  | char {c : Char} {u v : Text} : c ≠ '\\' → (q.tripled = false → c ≠ '\n') → ¬ q.text <+: c :: u ++ v →
      Reads q u v → Reads q (c :: u) v

variable {q : Quotes} {t u v : Text}

/-- The string ends in closing quotes behind `u`. -/
def Closes (q : Quotes) (u t : Text) : Prop :=
  ∃ v, t = u ++ q.text ++ v ∧ q.Reads u (q.text ++ v)

/-- The text ends in the string, whose quotes are tripled, or behind a backslash or the line break that a
backslash takes along. -/
def RunsOut (q : Quotes) (t : Text) : Prop :=
  q.tripled = true ∧ q.Reads t [] ∨
    ∃ u v, t = u ++ '\\' :: v ∧ v ∈ [[], ['\n'], ['\r', '\n']] ∧ q.Reads u ('\\' :: v)

/-- The string breaks off behind `u`, where its row ends. -/
def Breaks (q : Quotes) (u t : Text) : Prop :=
  q.tripled = false ∧ ∃ v, t = u ++ v ∧ q.Reads u v ∧ (v.head? = some '\n' ∨ v = [] ∧ ¬ q.RunsOut u)

theorem Reads.append {w : Text} (hu : q.Reads u (v ++ w)) (hv : q.Reads v w) : q.Reads (u ++ v) w := by
  generalize hback : v ++ w = back at hu
  induction hu with
  | nil => exact hv
  | escaped hc _ ih => exact .escaped hc (ih hback)
  | @joined e u _ he _ ih =>
    rw [List.append_assoc]
    exact .joined he (ih hback)
  | char hne hbreak hclose _ ih =>
    refine .char hne hbreak ?_ (ih hback)
    rw [← hback] at hclose
    simpa using hclose

/-- A text in front that the string goes on over. -/
theorem RunsOut.preceded (h : q.RunsOut t) (hlead : q.Reads u t) : q.RunsOut (u ++ t) := by
  rcases h with ⟨htripled, hreads⟩ | ⟨front, v, rfl, hv, hreads⟩
  · exact .inl ⟨htripled, Reads.append (by simpa using hlead) hreads⟩
  · exact .inr ⟨u ++ front, v, by simp, hv, hlead.append hreads⟩

/-- A string does not go on: its quotes are closed, its row or the text ends, or a backslash ends the text. -/
def Stops (q : Quotes) (t : Text) : Prop :=
  q.text <+: t ∨ q.tripled = false ∧ t.head? = some '\n' ∨ t = [] ∨ t = ['\\']

/-- A string stops, or it goes on over a piece of the text. -/
theorem stops_or_reads (q : Quotes) (hpaired : ∀ {u v}, t = u ++ '\r' :: v → v.head? = some '\n') :
    q.Stops t ∨ ∃ piece back, t = piece ++ back ∧ piece ≠ [] ∧
      ∀ {u v}, back = u ++ v → q.Reads u v → q.Reads (piece ++ u) v := by
  by_cases hstop : q.Stops t
  · exact .inl hstop
  refine .inr ?_
  simp only [Stops, not_or, not_and] at hstop
  obtain ⟨hclose, hbreak, hnil, hlone⟩ := hstop
  obtain ⟨c, t, rfl⟩ := List.exists_cons_of_ne_nil hnil
  by_cases hc : c = '\\'
  · subst hc
    obtain ⟨d, t, rfl⟩ := List.exists_cons_of_ne_nil (l := t) fun h ↦ hlone (by rw [h])
    by_cases hd : isBreak d = true
    · -- a line feed, or a carriage return before one
      simp only [isBreak, Bool.or_eq_true, decide_eq_true_eq] at hd
      rcases hd with rfl | rfl
      · obtain ⟨t, rfl⟩ := List.head?_eq_some_iff.1 (hpaired (u := ['\\']) rfl)
        exact ⟨['\\', '\r', '\n'], t, rfl, by simp, fun _ h ↦ .joined (e := ['\r', '\n']) (by simp) h⟩
      · exact ⟨['\\', '\n'], t, rfl, by simp, fun _ h ↦ .joined (e := ['\n']) (by simp) h⟩
    · exact ⟨['\\', d], t, rfl, by simp, fun _ h ↦ .escaped (by simpa using hd) h⟩
  · refine ⟨[c], t, rfl, by simp, ?_⟩
    rintro u v rfl h
    exact .char hc (by simpa using hbreak) hclose h

theorem exists_reads (q : Quotes) (hpaired : ∀ {u v}, t = u ++ '\r' :: v → v.head? = some '\n') :
    ∃ u v, t = u ++ v ∧ q.Reads u v ∧ q.Stops v := by
  induction hn : t.length using Nat.strong_induction_on generalizing t with
  | h n ih =>
    rcases q.stops_or_reads hpaired with hstop | ⟨piece, back, rfl, hpiece, hgoes⟩
    · exact ⟨[], t, rfl, .nil, hstop⟩
    · have hless : back.length < n := by
        have := List.length_pos_iff.2 hpiece
        rw [List.length_append] at hn
        omega
      obtain ⟨u, v, hback, hreads, hstop⟩ := ih _ hless (t := back)
        (fun {u _} h ↦ hpaired (u := piece ++ u) (by rw [h, List.append_assoc])) rfl
      exact ⟨piece ++ u, v, by rw [hback, List.append_assoc], hgoes hback hreads, hstop⟩

/-- **There are three ways for a string to come to an end.** -/
theorem exists_end (q : Quotes) {t : Text} (hpaired : ∀ {u v}, t = u ++ '\r' :: v → v.head? = some '\n') :
    (∃ u, q.Closes u t) ∨ (∃ u, q.Breaks u t) ∨ q.RunsOut t := by
  obtain ⟨u, v, rfl, hreads, ⟨v, rfl⟩ | ⟨htripled, hbreak⟩ | rfl | rfl⟩ := q.exists_reads hpaired
  · exact .inl ⟨u, v, (List.append_assoc ..).symm, hreads⟩
  · exact .inr (.inl ⟨u, htripled, v, rfl, hreads, .inl hbreak⟩)
  · rw [List.append_nil]
    by_cases hout : q.RunsOut u
    · exact .inr (.inr hout)
    · cases htripled : q.tripled with
      | true => exact absurd (.inl ⟨htripled, hreads⟩) hout
      | false => exact .inr (.inl ⟨u, htripled, [], (List.append_nil u).symm, hreads, .inr ⟨rfl, hout⟩⟩)
  · exact .inr (.inr (.inr ⟨u, [], rfl, by simp, hreads⟩))

/-! ### Strings on one row -/

/-- Quotes are told by what stands in their row. -/
theorem of?_of_append {r : Text} (h : Quotes.of? (q.text ++ (r ++ u)) = some q) :
    Quotes.of? (q.text ++ r) = some q := by
  obtain ⟨d, tripled⟩ := q
  cases tripled with
  | true => simpa [Quotes.text, Quotes.of?] using h
  | false =>
    simp only [Quotes.text, Quotes.of?, Bool.false_eq_true, if_false, List.singleton_append,
      Option.ite_none_right_eq_some, Option.some.injEq, Quotes.mk.injEq, true_and] at h ⊢
    refine ⟨h.1, ?_⟩
    rw [Bool.eq_false_iff, ne_eq, List.isPrefixOf_iff_prefix] at h ⊢
    exact fun hpre ↦ h.2 (hpre.trans (List.prefix_append ..))

theorem text_ne_nil (q : Quotes) : q.text ≠ [] := by
  unfold Quotes.text
  split <;> simp

theorem feed_notMem_text (q : Quotes) (hq : q.char = '"' ∨ q.char = '\'') : '\n' ∉ q.text := by
  unfold Quotes.text
  rcases hq with hq | hq <;> split <;> simp [hq]

theorem body_text (hq : q.char = '"' ∨ q.char = '\'') (r : Text) : body q (q.text ++ r) = .closed q.text r := by
  have hslash : q.char ≠ '\\' := by rcases hq with h | h <;> simp [h]
  have hfeed : q.char ≠ '\n' := by rcases hq with h | h <;> simp [h]
  unfold Quotes.text
  split <;> rename_i htripled <;> simp [body, hslash, hfeed, htripled]

/-- A character within a row that does not start the closing quotes. -/
theorem body_cons {c : Char} {r : Text} (hslash : c ≠ '\\') (hfeed : c ≠ '\n') (hclose : ¬ q.text <+: c :: r) :
    body q (c :: r) = (body q r).preceded [c] := by
  rw [body.eq_def]
  by_cases hc : c = q.char
  · subst hc
    cases htripled : q.tripled with
    | false => exact absurd (by simp [Quotes.text, htripled]) hclose
    | true =>
      have hquotes : ¬ [q.char, q.char].isPrefixOf r = true := by
        simpa [Quotes.text, htripled] using hclose
      simp [hslash, hfeed, hquotes]
  · simp [hslash, hfeed, hc]

/-- A line break behind a backslash ends the row, and the string goes on in the next one. -/
theorem exists_lead (q : Quotes) {e : Text} (he : e ∈ [['\n'], ['\r', '\n']]) :
    ∃ lead, '\n' ∉ lead ∧ '\\' :: e = lead ++ ['\n'] ∧ body q (lead ++ ['\n']) = .continued := by
  simp only [List.mem_cons, List.not_mem_nil, or_false] at he
  rcases he with rfl | rfl
  · exact ⟨['\\'], by simp, rfl, by simp [body, isBreak]⟩
  · exact ⟨['\\', '\r'], by simp, rfl, by simp [body, isBreak]⟩

end Lexeme.Quotes

namespace Scan

variable {t : Text} {s : Scan} {c : Context} {p : Position} {front m before r u v : Text} {more : List Text}
  {q : Quotes} {result : Option Lexeme × Scan}

/-! ### Reading a string -/

/-- The scan is in a string that opens behind `front`, of which it has taken `m`. It stands in the row at hand
before `r`, and the rows `more` follow. -/
structure Inside (t : Text) (c : Context) (p : Position) (front : Text) (s : Scan) (m before r : Text)
    (more : List Text) : Prop where
  current : s.current = some (before, r)
  context : s.context = c
  rows : Text.rows t = s.past ++ (before ++ r) :: more
  upcoming : s.feed.upcoming = more.map some
  inRow : '\n' ∉ before
  opening : Place s.rows p front
  seen : s.past.flatten ++ before = front ++ m

namespace Inside

/-- Another row follows only where the row at hand ends in a line feed. -/
theorem getLast (h : Inside t c p front s m before r more) (hmore : more ≠ []) : r.getLast? = some '\n' := by
  obtain ⟨row, more, rfl⟩ := List.exists_cons_of_ne_nil hmore
  have hlast := (Text.rows_lined t).2 h.rows
  cases r with
  | nil =>
    rw [List.append_nil] at hlast
    exact absurd (List.mem_of_getLast? hlast) h.inRow
  | cons d r => rwa [List.getLast?_append_of_ne_nil _ (by simp)] at hlast

/-- What comes next and breaks no row stands in the row at hand. -/
theorem exists_row {lead : Text} (h : Inside t c p front s m before r more) (hlead : '\n' ∉ lead)
    (hahead : r ++ more.flatten = lead ++ v) : ∃ r', r = lead ++ r' ∧ r' ++ more.flatten = v := by
  rcases List.append_eq_append_iff.1 hahead with ⟨rest, rfl, hrest⟩ | ⟨rest, rfl, rfl⟩
  · cases more with
    | nil =>
      obtain ⟨rfl, rfl⟩ := List.append_eq_nil_iff.1 hrest.symm
      exact ⟨[], by simp, rfl⟩
    | cons row more =>
      have hfeed := List.mem_of_getLast? (h.getLast (by simp))
      exact absurd (List.mem_append_left rest hfeed) hlead
  · exact ⟨rest, rfl, rfl⟩

/-- What comes next and ends in a line feed ends the row at hand. -/
theorem row_eq {lead : Text} (h : Inside t c p front s m before r more) (hlead : '\n' ∉ lead)
    (hahead : r ++ more.flatten = lead ++ '\n' :: v) : r = lead ++ ['\n'] ∧ more.flatten = v := by
  obtain ⟨r', rfl, hrest⟩ := h.exists_row hlead hahead
  cases r' with
  | nil =>
    have hmore : more ≠ [] := by
      rintro rfl
      exact absurd hrest (by simp)
    have hfeed := List.mem_of_getLast? (h.getLast hmore)
    rw [List.append_nil] at hfeed
    exact absurd hfeed hlead
  | cons d r' =>
    obtain ⟨rfl, hrest⟩ := List.cons_eq_cons.1 hrest
    have hrow : before ++ (lead ++ '\n' :: r') ∈ Text.rows t := by simp [h.rows]
    obtain rfl := (Text.rows_lined t).1 _ hrow (u := before ++ lead) (v := r') (by simp)
    exact ⟨rfl, by simpa using hrest⟩

/-- The reading point moves within the row. -/
theorem move {lead : Text} (h : Inside t c p front s m before (lead ++ r) more) (hlead : '\n' ∉ lead) :
    Inside t c p front { s with current := some (before ++ lead, r) } (m ++ lead) (before ++ lead) r more where
  current := rfl
  context := h.context
  rows := by rw [h.rows, List.append_assoc]
  upcoming := h.upcoming
  inRow := by simp [h.inRow, hlead]
  opening := by
    have hopening := h.opening
    simpa [Scan.rows, h.current] using hopening
  seen := by rw [← List.append_assoc, h.seen, List.append_assoc]

/-- What the string has taken stands before the reading point. -/
theorem stop (h : Inside t c p front s m before r more) :
    s.position before = (front ++ m).endPosition ∧ slice s.rows p (front ++ m).endPosition = m := by
  have hstop : s.position before = (front ++ m).endPosition := by
    rw [← h.seen, Text.endPosition_of_rows h.rows h.inRow, position]
  refine ⟨hstop, ?_⟩
  rw [← hstop]
  exact h.opening.slice_eq ⟨s.past, before, r, [], by simp [Scan.rows, h.current], rfl, h.seen.symm⟩

theorem more_eq_nil (h : Inside t c p front s m before r more) (hmore : more.flatten = []) : more = [] := by
  refine List.eq_nil_iff_forall_not_mem.2 fun row hmem ↦ ?_
  have hrow : row ∈ Text.rows t := by simp [h.rows, hmem]
  exact Text.ne_nil_of_mem_rows hrow (List.flatten_eq_nil_iff.1 hmore row hmem)

/-- The next row is loaded. -/
theorem nextRow {row : Text} (h : Inside t c p front s m before r (row :: more)) :
    Inside t c p front s.leaveRow.load (m ++ r) [] row more := by
  have hrows : s.rows = s.past ++ [before ++ r] := by simp [Scan.rows, h.current]
  have hne : row ≠ [] := Text.ne_nil_of_mem_rows (t := t) (by simp [h.rows])
  obtain ⟨d, row, rfl⟩ := List.exists_cons_of_ne_nil hne
  have hload : s.leaveRow.load.current = some ([], d :: row) := by
    simp [load, leaveRow, Feed.ask, h.upcoming]
  obtain ⟨-, hpast, -, hrows', hup, -⟩ := load_of_none rfl hload
  have hpast' : s.leaveRow.load.past = s.past ++ [before ++ r] := hpast.trans hrows
  refine ⟨hload, ?_, ?_, ?_, List.not_mem_nil, ?_, ?_⟩
  · rw [context_load]
    exact h.context
  · rw [h.rows, hpast']
    simp
  · have hup' : s.feed.upcoming = some (d :: row) :: s.leaveRow.load.feed.upcoming := hup
    rw [h.upcoming] at hup'
    exact (List.cons_eq_cons.1 hup').2.symm
  · rw [hrows']
    refine h.opening.mono ?_
    simp [leaveRow, Scan.rows]
  · rw [hpast', ← List.append_assoc, ← h.seen]
    simp

/-- No row follows. -/
theorem noRow (h : Inside t c p front s m before r []) : s.leaveRow.load.current = none ∧
    s.leaveRow.load.feed.upcoming = [] ∧ s.leaveRow.load.context = c := by
  have hup : s.feed.upcoming = [] := h.upcoming
  refine ⟨?_, ?_, ?_⟩
  · simp [load, leaveRow, Feed.ask, hup]
  · simp [load, leaveRow, Feed.ask, hup]
  · rw [context_load]
    exact h.context

end Inside

/-- A reader that comes to `result` is in the string. It has taken `m` of it, and `v` is left of the source. -/
def Faces (t : Text) (c : Context) (p : Position) (front : Text) (q : Quotes) (result : Option Lexeme × Scan)
    (m v : Text) : Prop :=
  ∃ n s before r more, Inside t c p front s m before r more ∧ r ++ more.flatten = v ∧ more.length + 1 < n ∧
    stringRows q p n s = result

/-- The source has run out, and what is left to do is to close the open blocks. -/
def RunsDry (c : Context) (result : Option Lexeme × Scan) : Prop :=
  ∃ s : Scan, s.current = none ∧ s.feed.upcoming = [] ∧ s.context = c ∧ s.finish = result

theorem rows_move {lead : Text} (hcur : s.current = some (before, lead ++ r)) :
    ({ s with current := some (before ++ lead, r) } : Scan).rows = s.rows := by
  simp [rows, hcur]

/-- What the reader comes to does not depend on how far the row has been read. -/
theorem stringRows_move {lead : Text} (hcur : s.current = some (before, lead ++ r))
    (hbody : body q (lead ++ r) = (body q r).preceded lead) (n : Nat) :
    stringRows q p (n + 1) s = stringRows q p (n + 1) { s with current := some (before ++ lead, r) } := by
  have hrows := rows_move hcur
  have hleave : ({ s with current := some (before ++ lead, r) } : Scan).leaveRow = s.leaveRow := by
    rw [leaveRow, leaveRow, hrows]
  rw [stringRows, stringRows, hcur]
  dsimp only
  rw [hbody, hrows, hleave]
  cases body q r <;> simp [Body.preceded, position]

namespace Faces

/-- A piece within a row. -/
theorem move {lead : Text} (h : Faces t c p front q result m (lead ++ v)) (hlead : '\n' ∉ lead)
    (hbody : ∀ r, r <+: v → body q (lead ++ r) = (body q r).preceded lead) :
    Faces t c p front q result (m ++ lead) v := by
  obtain ⟨n, s, before, r, more, hinside, hahead, hn, rfl⟩ := h
  obtain ⟨r, rfl, rfl⟩ := hinside.exists_row hlead hahead
  obtain ⟨n, rfl⟩ := Nat.exists_eq_add_one.2 (Nat.zero_lt_of_lt hn)
  refine ⟨n + 1, _, _, r, more, hinside.move hlead, rfl, hn, ?_⟩
  exact (stringRows_move hinside.current (hbody r (List.prefix_append ..)) n).symm

/-- Where the string goes on in the next row, there is a next row, or the source has run out. -/
theorem leave {n : Nat} (h : Inside t c p front s m before r more) (hn : more.length + 1 < n)
    (hbody : body q r = .continued) (hresult : stringRows q p n s = result) :
    (more ≠ [] → Faces t c p front q result (m ++ r) more.flatten) ∧ (more = [] → RunsDry c result) := by
  obtain ⟨n, rfl⟩ := Nat.exists_eq_add_one.2 (Nat.zero_lt_of_lt hn)
  rw [stringRows, h.current] at hresult
  dsimp only at hresult
  rw [hbody] at hresult
  constructor
  · intro hmore
    obtain ⟨row, more, rfl⟩ := List.exists_cons_of_ne_nil hmore
    exact ⟨n, _, [], row, more, h.nextRow, rfl, by simpa using hn, hresult⟩
  · rintro rfl
    obtain ⟨hnone, hup, hcontext⟩ := h.noRow
    obtain ⟨n, rfl⟩ := Nat.exists_eq_add_one.2 (Nat.lt_of_succ_lt_succ hn)
    rw [stringRows, hnone] at hresult
    exact ⟨_, hnone, hup, hcontext, hresult⟩

/-- A piece up to the end of its row. -/
theorem leaveRow {lead : Text} (h : Faces t c p front q result m (lead ++ '\n' :: v)) (hlead : '\n' ∉ lead)
    (hbody : body q (lead ++ ['\n']) = .continued) :
    (v ≠ [] → Faces t c p front q result (m ++ (lead ++ ['\n'])) v) ∧ (v = [] → RunsDry c result) := by
  obtain ⟨n, s, before, r, more, hinside, hahead, hn, hresult⟩ := h
  obtain ⟨rfl, rfl⟩ := hinside.row_eq hlead hahead
  obtain ⟨hrow, hdry⟩ := leave hinside hn hbody hresult
  refine ⟨fun hv ↦ hrow ?_, fun hv ↦ hdry (hinside.more_eq_nil hv)⟩
  rintro rfl
  exact hv rfl

/-- The last row ends in the string. -/
theorem leaveLast (h : Faces t c p front q result m v) (hv : '\n' ∉ v) (hbody : body q v = .continued) :
    RunsDry c result := by
  obtain ⟨n, s, before, r, more, hinside, hahead, hn, hresult⟩ := h
  obtain ⟨r, rfl, hrest⟩ := hinside.exists_row hv (hahead.trans (List.append_nil v).symm)
  obtain ⟨rfl, hmore⟩ := List.append_eq_nil_iff.1 hrest
  rw [List.append_nil] at hinside
  exact (leave hinside hn hbody hresult).2 (hinside.more_eq_nil hmore)

/-- The reader goes on over a text, or the source runs out at its end. -/
theorem reads (h : q.Reads u v) (hnull : '\x00' ∉ u) :
    ∀ {m}, Faces t c p front q result m (u ++ v) →
      Faces t c p front q result (m ++ u) v ∨ v = [] ∧ q.RunsOut u ∧ RunsDry c result := by
  have hpiece : ∀ {piece u v m : Text}, q.Reads piece (u ++ v) →
      (∀ {m}, Faces t c p front q result m (u ++ v) →
        Faces t c p front q result (m ++ u) v ∨ v = [] ∧ q.RunsOut u ∧ RunsDry c result) →
      Faces t c p front q result (m ++ piece) (u ++ v) →
        Faces t c p front q result (m ++ (piece ++ u)) v ∨ v = [] ∧ q.RunsOut (piece ++ u) ∧ RunsDry c result := by
    intro piece u v m hreads ih h
    rcases ih h with h | ⟨rfl, hout, hdry⟩
    · exact .inl (by rwa [List.append_assoc] at h)
    · exact .inr ⟨rfl, hout.preceded (by simpa using hreads), hdry⟩
  induction h with
  | nil =>
    intro m h
    rw [List.append_nil]
    exact .inl h
  | @escaped d u v hd hreads ih =>
    intro m h
    simp only [List.mem_cons, not_or] at hnull
    obtain ⟨-, hne, hnull⟩ := hnull
    have hfeed : d ≠ '\n' := by
      rintro rfl
      exact absurd hd (by decide)
    have hunit : q.Reads ['\\', d] (u ++ v) := .escaped hd .nil
    refine hpiece hunit (ih hnull) (move h (by simp [hfeed.symm]) fun r _ ↦ ?_)
    simp [body, Ne.symm hne, hd]
  | @joined e u v he hreads ih =>
    intro m h
    obtain ⟨lead, hnl, hsplit, hbody⟩ := q.exists_lead he
    have hnull' : '\x00' ∉ u := fun hmem ↦ hnull (List.mem_append_right _ hmem)
    rw [hsplit] at h ⊢
    obtain ⟨hrow, hdry⟩ := leaveRow (v := u ++ v) (by simpa using h) hnl hbody
    by_cases hnil : u ++ v = []
    · obtain ⟨rfl, rfl⟩ := List.append_eq_nil_iff.1 hnil
      refine .inr ⟨rfl, .inr ⟨[], e, by simp [← hsplit], ?_, .nil⟩, hdry rfl⟩
      exact List.mem_cons_of_mem _ he
    · exact hpiece (hsplit ▸ by simpa using Quotes.Reads.joined he .nil) (ih hnull') (hrow hnil)
  | @char d u v hd hbreak hclose hreads ih =>
    intro m h
    simp only [List.mem_cons, not_or] at hnull
    have hunit : q.Reads [d] (u ++ v) := .char hd hbreak (by simpa using hclose) .nil
    by_cases hfeed : d = '\n'
    · have htripled : q.tripled = true := by
        by_contra hsingle
        exact hbreak (by simpa using hsingle) hfeed
      subst hfeed
      have h' : Faces t c p front q result m ([] ++ '\n' :: (u ++ v)) := h
      obtain ⟨hrow, hdry⟩ := leaveRow h' List.not_mem_nil (by simp [body, htripled])
      by_cases hnil : u ++ v = []
      · obtain ⟨rfl, rfl⟩ := List.append_eq_nil_iff.1 hnil
        exact .inr ⟨rfl, .inl ⟨htripled, hunit⟩, hdry rfl⟩
      · exact hpiece hunit (ih hnull.2) (hrow hnil)
    · have h' : Faces t c p front q result m ([d] ++ (u ++ v)) := h
      refine hpiece hunit (ih hnull.2) (move h' (by simpa using Ne.symm hfeed) fun r hr ↦ ?_)
      exact Quotes.body_cons hd hfeed fun hpre ↦
        hclose (hpre.trans (List.cons_prefix_cons.2 ⟨rfl, hr⟩))

/-- The closing quotes are next. -/
theorem closed (h : Faces t c front.endPosition front q result m (q.text ++ v))
    (hq : q.char = '"' ∨ q.char = '\'') :
    ∃ s', result = (some ⟨.string, m ++ q.text, front.endPosition, (front ++ (m ++ q.text)).endPosition⟩, s') ∧
      s'.seen = front ++ (m ++ q.text) := by
  obtain ⟨n, s, before, r, more, hinside, hahead, hn, rfl⟩ := h
  obtain ⟨r, rfl, rfl⟩ := hinside.exists_row (q.feed_notMem_text hq) hahead
  obtain ⟨n, rfl⟩ := Nat.exists_eq_add_one.2 (Nat.zero_lt_of_lt hn)
  have hmoved := hinside.move (q.feed_notMem_text hq)
  obtain ⟨hstop, hslice⟩ := hmoved.stop
  rw [rows_move hinside.current] at hslice
  have hstop' : s.position (before ++ q.text) = (front ++ (m ++ q.text)).endPosition := hstop
  rw [stringRows, hinside.current]
  dsimp only
  rw [q.body_text hq]
  dsimp only
  rw [hstop', hslice]
  exact ⟨_, rfl, hmoved.seen⟩

/-- The row ends. -/
theorem broken (h : Faces t c front.endPosition front q result m v) (htripled : q.tripled = false)
    (hv : v.head? = some '\n' ∨ v = []) :
    ∃ s', result = (some ⟨.error, m, front.endPosition, (front ++ m).endPosition⟩, s') ∧
      s'.seen = front ++ m := by
  obtain ⟨n, s, before, r, more, hinside, hahead, hn, rfl⟩ := h
  obtain ⟨n, rfl⟩ := Nat.exists_eq_add_one.2 (Nat.zero_lt_of_lt hn)
  have hbody : body q r = .broken [] r := by
    rcases hv with hfeed | rfl
    · obtain ⟨v, rfl⟩ := List.head?_eq_some_iff.1 hfeed
      obtain ⟨rfl, -⟩ := hinside.row_eq List.not_mem_nil hahead
      simp [body, htripled]
    · obtain ⟨rfl, -⟩ := List.append_eq_nil_iff.1 hahead
      simp [body, htripled]
  obtain ⟨hstop, hslice⟩ := hinside.stop
  rw [stringRows, hinside.current]
  dsimp only
  rw [hbody]
  dsimp only
  rw [List.append_nil, hstop, hslice]
  exact ⟨_, rfl, hinside.seen⟩

/-- The source runs out in the string. -/
theorem runsOut (h : Faces t c p front q result m v) (hnull : '\x00' ∉ v) (hout : q.RunsOut v) :
    RunsDry c result := by
  rcases hout with ⟨htripled, hreads⟩ | ⟨u, v, rfl, hv, hreads⟩
  · rcases reads hreads hnull (by rwa [List.append_nil]) with h | ⟨-, -, hdry⟩
    · exact h.leaveLast (by simp) (by simp [body, htripled])
    · exact hdry
  · have hnull' : '\x00' ∉ u := fun hmem ↦ hnull (List.mem_append_left _ hmem)
    rcases reads hreads hnull' h with h | ⟨hnil, -⟩
    · rcases List.mem_cons.1 hv with rfl | hv
      · exact h.leaveLast (by simp) (by simp [body])
      · obtain ⟨lead, hlead, hsplit, hbody⟩ := q.exists_lead hv
        rw [hsplit] at h
        exact (h.leaveRow hlead hbody).2 rfl
    · exact absurd hnil (by simp)

end Faces

/-! ### Reaching a string -/

/-- The scan of `t` gets to a string: behind `gap` the row at hand goes on with the word `word`, which announces
no replacement fields, and the quotes `q`, and the text goes on with `rest`. Nothing is due, and the margin
neither opens nor closes a block. -/
structure Meets (t : Text) (s : Scan) (gap word : Text) (q : Quotes) (rest : Text) : Prop where
  idle : s.queued = []
  awake : s.exhausted = false
  plain : s.context.inLiteral = false
  margin : s.atStart = true → ∀ before row, s.load.current = some (before, row) → (s.load.indentation row).1 = none
  text : t = s.seen ++ gap ++ word ++ q.text ++ rest
  row : ∃ before r, s.load.current = some (before, gap ++ word ++ q.text ++ r)
  gaps : ∀ c ∈ gap, isGap c = true
  word : word = [] ∨ isStringMark word = true ∧ marksFields word = false
  quotes : Quotes.of? (q.text ++ rest) = some q

/-- A margin that gives no lexeme changes nothing. -/
theorem indentation_none {row : Text} (h : (s.indentation row).1 = none) :
    s.indentation row = (none, { s with atStart := false }) := by
  revert h
  unfold indentation
  generalize row.span isGap = parts
  obtain ⟨margin, text⟩ := parts
  dsimp only
  split
  · exact fun _ ↦ rfl
  split
  · exact fun h ↦ absurd h (by simp)
  split
  · rename_i hnone
    intro _
    rw [List.append_eq_nil_iff, List.map_eq_nil_iff] at hnone
    have hlevels := List.takeWhile_append_dropWhile (p := (marginWidth margin < ·)) (l := s.levels)
    rw [hnone.1, List.nil_append] at hlevels
    rw [hlevels]
  · exact fun h ↦ absurd h (by simp)

/-- Outside literal text a step reads what stands at the reading point, if the margin gives no lexeme. -/
theorem step_eq_plain {before row : Text} (hidle : s.queued = []) (hawake : s.exhausted = false)
    (hplain : s.context.inLiteral = false) (hload : s.load.current = some (before, row))
    (hmargin : s.atStart = true → (s.load.indentation row).1 = none) :
    ∃ atStart, s.step = ({ s.load with atStart } : Scan).plain before row := by
  rw [← context_load] at hplain
  unfold step
  rw [hidle, hawake]
  dsimp only
  rw [if_neg (by simp)]
  split
  · rename_i hnone
    exact absurd (hload.symm.trans hnone) (by simp)
  · rename_i hcur hframes
    obtain ⟨rfl, rfl⟩ := Prod.mk.inj (Option.some.inj (hload.symm.trans hcur))
    rw [if_neg (by simpa [Context.inLiteral, context, hframes] using hplain)]
    exact ⟨_, rfl⟩
  · rename_i hcur _
    obtain ⟨rfl, rfl⟩ := Prod.mk.inj (Option.some.inj (hload.symm.trans hcur))
    split
    · rename_i hat
      rw [load_atStart] at hat
      rw [indentation_none (hmargin hat)]
      exact ⟨_, rfl⟩
    · exact ⟨_, rfl⟩

theorem eq_of_toLower {c d : Char} (h : c.toLower = d) : c = d ∨ c.toNat + 32 = d.toNat := by
  unfold Char.toLower at h
  split at h
  · rename_i hupper
    have hlow := UInt32.le_iff_toNat_le.1 hupper.1
    have hhigh := UInt32.le_iff_toNat_le.1 hupper.2
    simp only [Char.toNat_val, Char.reduceToNat] at hlow hhigh
    rw [← h]
    simp only [Char.toNat, UInt32.toNat_add]
    simp
    omega
  · exact .inl h

/-- The letters that announce a string, but no replacement fields. -/
theorem mem_of_isStringMark {word : Text} (hmark : isStringMark word = true) (hfields : marksFields word = false) :
    word ≠ [] ∧ ∀ c ∈ word, c ∈ ['r', 'R', 'u', 'U', 'b', 'B'] := by
  have hmem : word.map Char.toLower ∈ ["r".toList, "u".toList, "b".toList, "f".toList, "br".toList, "rb".toList,
      "fr".toList, "rf".toList] := by
    simpa only [isStringMark, List.contains_iff_mem] using hmark
  have hmarks : ∀ mark ∈ ["r".toList, "u".toList, "b".toList, "f".toList, "br".toList, "rb".toList,
      "fr".toList, "rf".toList], mark ≠ [] ∧ ∀ d ∈ mark, d ∈ ['r', 'u', 'b', 'f'] := by decide
  obtain ⟨hne, hletters⟩ := hmarks _ hmem
  refine ⟨by simpa using hne, fun c hc ↦ ?_⟩
  have hlower := hletters _ (List.mem_map_of_mem hc)
  have hnot : c ≠ 'f' ∧ c ≠ 'F' := by
    simpa [marksFields] using List.any_eq_false.1 hfields c hc
  rcases eq_of_toLower rfl with heq | hcase
  · rw [← heq] at hlower
    simp only [List.mem_cons, List.not_mem_nil, or_false] at hlower ⊢
    tauto
  · have hupper : c = Char.ofNat (c.toLower.toNat - 32) := by
      rw [← hcase, Nat.add_sub_cancel, Char.ofNat_toNat]
    generalize c.toLower = d at hlower hupper
    simp only [List.mem_cons, List.not_mem_nil, or_false] at hlower
    rcases hlower with rfl | rfl | rfl | rfl
    · rw [hupper]
      decide
    · rw [hupper]
      decide
    · rw [hupper]
      decide
    · exact absurd hupper hnot.2

/-- Behind a gap, a word that announces a string, and quotes, a string is read. -/
theorem plain_eq_string {gap word : Text} (hgap : ∀ c ∈ gap, isGap c = true)
    (hword : word = [] ∨ isStringMark word = true ∧ marksFields word = false)
    (hquotes : Quotes.of? (q.text ++ r) = some q) :
    s.plain before (gap ++ word ++ q.text ++ r) = s.string (before ++ gap) word q r := by
  obtain ⟨hchar, ⟨w, hw⟩, -⟩ := Quotes.of?_eq_some hquotes
  have hspan : ∀ {c : Char} {u : Text}, isGap c = false → (gap ++ c :: u).span isGap = (gap, c :: u) := by
    intro c u hc
    rw [List.span_eq_takeWhile_dropWhile, List.takeWhile_append_of_pos hgap, List.dropWhile_append_of_pos hgap]
    simp [hc]
  have hnot : isGap q.char = false ∧ isBreak q.char = false ∧ q.char.isDigit = false ∧ isNamePart q.char = false ∧
      q.char ≠ '#' ∧ q.char ≠ '\\' ∧ q.char ≠ '.' := by
    rcases hchar with h | h <;> rw [h] <;> decide
  obtain ⟨hgapQ, hbreakQ, hdigitQ, hpartQ, hhash, hslash, hdot⟩ := hnot
  rcases hword with rfl | ⟨hmark, hfields⟩
  · have hrest : gap ++ [] ++ q.text ++ r = gap ++ q.char :: (w ++ r) := by simp [hw]
    have hquotes' : Quotes.of? (q.char :: (w ++ r)) = some q := by
      rwa [hw] at hquotes
    rw [plain, hrest, hspan hgapQ]
    simp only [isBreak, Bool.or_eq_false_iff, decide_eq_false_iff_not] at hbreakQ
    simp only [hhash, hbreakQ, hslash, hdigitQ, hdot, hquotes', if_false, decide_false, Bool.false_and, Bool.or_false,
      Bool.false_eq_true]
    rw [← List.cons_append, ← hw, List.drop_left]
  · obtain ⟨hne, hletters⟩ := mem_of_isStringMark hmark hfields
    obtain ⟨c, word, rfl⟩ := List.exists_cons_of_ne_nil hne
    have hletter : ∀ c ∈ ['r', 'R', 'u', 'U', 'b', 'B'], isGap c = false ∧ isBreak c = false ∧
        c.isDigit = false ∧ isNameStart c = true ∧ isNamePart c = true ∧ c ≠ '#' ∧ c ≠ '\\' ∧ c ≠ '.' ∧ c ≠ '"' ∧
        c ≠ '\'' := by decide
    obtain ⟨hgapC, hbreakC, hdigitC, hstart, -, hhash, hslash, hdot, hdouble, hsingle⟩ :=
      hletter c (hletters c (by simp))
    have hquotesC : Quotes.of? (c :: (word ++ (q.text ++ r))) = none := by simp [Quotes.of?, hdouble, hsingle]
    have hword : (c :: (word ++ (q.text ++ r))).span isNamePart = (c :: word, q.text ++ r) := by
      have hall : ∀ d ∈ c :: word, isNamePart d = true := fun d hd ↦ (hletter d (hletters d hd)).2.2.2.2.1
      rw [← List.cons_append, List.span_eq_takeWhile_dropWhile, List.takeWhile_append_of_pos hall,
        List.dropWhile_append_of_pos hall, hw]
      simp [hpartQ]
    rw [plain, show gap ++ c :: word ++ q.text ++ r = gap ++ c :: (word ++ (q.text ++ r)) by simp, hspan hgapC]
    simp only [isBreak, Bool.or_eq_false_iff, decide_eq_false_iff_not] at hbreakC
    simp only [hhash, hbreakC, hslash, hdigitC, hdot, hquotesC, hstart, hword, hquotes, hmark, if_false, if_true,
      decide_false, Bool.false_and, Bool.or_false, Bool.false_eq_true, List.drop_left]

namespace Meets

variable {gap word rest : Text}

/-- The row of the string, and the rows behind it. -/
theorem rows (h : Meets t s gap word q rest) (hsupply : s.supply = (Document.ofText t).source) :
    ∃ before r more, s.load.current = some (before, gap ++ word ++ q.text ++ r) ∧
      s.seen = s.load.past.flatten ++ before ∧ s.load.feed.upcoming = more.map some ∧
      Text.rows t = s.load.past ++ (before ++ gap ++ word ++ q.text ++ r) :: more ∧ r ++ more.flatten = rest := by
  obtain ⟨before, r, hload⟩ := h.row
  have hseen := seen_of_load hload
  obtain ⟨more, hdoc, hup⟩ := Document.exists_append_of_source ((load_supply hload).trans hsupply)
  have hrows : Text.rows t = s.load.past ++ (before ++ gap ++ word ++ q.text ++ r) :: more := by
    rw [show Text.rows t = s.load.rows ++ more from hdoc]
    simp [Scan.rows, hload]
  refine ⟨before, r, more, hload, hseen, hup, hrows, ?_⟩
  have htext := h.text
  rw [← Text.flatten_rows t, hrows, hseen] at htext
  simpa using htext

/-- From there on a string is read. -/
theorem step_eq {before r u : Text} (h : Meets t s gap word q rest)
    (hload : s.load.current = some (before, gap ++ word ++ q.text ++ r)) (hrest : r ++ u = rest) :
    ∃ atStart, s.step = stringRows q (s.load.position (before ++ gap)) (s.load.feed.upcoming.length + 2)
      { s.load with atStart, current := some (before ++ gap ++ word ++ q.text, r) } := by
  have hfields : marksFields word = false := by
    rcases h.word with rfl | ⟨-, hfields⟩
    · rfl
    · exact hfields
  obtain ⟨atStart, hstep⟩ := step_eq_plain h.idle h.awake h.plain hload fun hat ↦ h.margin hat _ _ hload
  rw [plain_eq_string h.gaps h.word (Quotes.of?_of_append (hrest ▸ h.quotes)), Scan.string,
    if_neg (by simp [hfields])] at hstep
  exact ⟨atStart, hstep⟩

theorem faces (h : Meets t s gap word q rest) (hsupply : s.supply = (Document.ofText t).source) :
    Faces t s.context (s.seen ++ gap).endPosition (s.seen ++ gap) q s.step (word ++ q.text) rest := by
  obtain ⟨before, r, more, hload, hseen, hup, hrows, hrest⟩ := h.rows hsupply
  obtain ⟨atStart, hstep⟩ := h.step_eq hload hrest
  have hquotes := q.feed_notMem_text (Quotes.of?_eq_some h.quotes).1
  have hfeed : '\n' ∉ before ++ gap ++ word ++ q.text := by
    intro hmem
    obtain ⟨u, v, hsplit⟩ := List.append_of_mem hmem
    have hrow : before ++ gap ++ word ++ q.text ++ r ∈ Text.rows t := by simp [hrows]
    obtain ⟨rfl, -⟩ := List.append_eq_nil_iff.1
      ((Text.rows_lined t).1 _ hrow (u := u) (v := v ++ r) (by rw [hsplit]; simp))
    have hlast := congrArg List.getLast? hsplit
    rw [List.getLast?_append_of_ne_nil _ q.text_ne_nil, List.getLast?_concat] at hlast
    exact hquotes (List.mem_of_getLast? hlast)
  have hfeed' : '\n' ∉ before ++ gap := fun hmem ↦ hfeed (by
    rw [List.append_assoc]
    exact List.mem_append_left _ hmem)
  have hplace : (s.seen ++ gap).endPosition = s.load.position (before ++ gap) := by
    have hrows' : Text.rows t = s.load.past ++ (before ++ gap ++ (word ++ q.text ++ r)) :: more := by simp [hrows]
    rw [hseen, List.append_assoc, Text.endPosition_of_rows hrows' hfeed']
    rfl
  refine ⟨_, { s.load with atStart, current := some (before ++ gap ++ word ++ q.text, r) }, _, r, more,
    ⟨rfl, ?_, hrows, hup, hfeed, ?_, ?_⟩, hrest, ?_, hplace ▸ hstep.symm⟩
  · exact context_load s
  · refine ⟨s.load.past, before ++ gap, word ++ q.text ++ r, [], by simp [Scan.rows], hplace, ?_⟩
    rw [hseen, List.append_assoc]
  · rw [hseen]
    simp
  · rw [hup, List.length_map]
    omega

end Meets

/-- The source runs out, and the open blocks are closed. -/
theorem RunsDry.tag_after (h : RunsDry c s.step) (hidle : c.queued = []) (n : Nat) :
    (s.after n).next.1.tag = if n < c.levels.length then .dedent else .endMarker := by
  obtain ⟨s₁, hcur, hup, rfl, hstep⟩ := h
  obtain ⟨x, s', hfinish, hends, -⟩ := ends_finish hidle hcur hup
  rw [hfinish] at hstep
  obtain ⟨htag, hqueued⟩ : (x.tag = if 0 < s₁.levels.length then .dedent else .endMarker) ∧
      s'.queued.length = s₁.levels.length - 1 := by
    have hidle' : s₁.queued = [] := hidle
    cases hlevels : s₁.levels with
    | nil =>
      rw [finish, hlevels] at hfinish
      obtain ⟨hx, rfl⟩ := Prod.mk.inj hfinish
      obtain rfl := Option.some.inj hx
      simp [mark, hidle']
    | cons level outer =>
      rw [finish, hlevels] at hfinish
      obtain ⟨hx, rfl⟩ := Prod.mk.inj hfinish
      obtain rfl := Option.some.inj hx
      simp [mark]
  have hnext := next_of_step hstep.symm
  cases n with
  | zero =>
    rw [after, Function.iterate_zero_apply, hnext]
    exact htag
  | succ n =>
    rw [after, Function.iterate_succ_apply, hnext, ← after, hends.spent.tag_after n, hqueued]
    simp only [Nat.lt_sub_iff_add_lt]
    rfl

/-- The next lexeme is `text`, which stands behind `front`, and the scan comes to stand behind it. -/
structure Takes (s : Scan) (tag : Tag) (front text : Text) : Prop where
  lexeme : s.next.1 = ⟨tag, text, front.endPosition, (front ++ text).endPosition⟩
  seen : s.next.2.seen = front ++ text

theorem Takes.of_step {tag : Tag} {text : Text}
    (h : ∃ s', s.step = (some ⟨tag, text, front.endPosition, (front ++ text).endPosition⟩, s') ∧
      s'.seen = front ++ text) : s.Takes tag front text := by
  obtain ⟨s', hstep, hseen⟩ := h
  have hnext := next_of_step hstep
  exact ⟨by rw [hnext], by rw [hnext, hseen]⟩

end Scan

namespace Lexeme

open Scan

/-- **Strings end at the first closing quotes.** Where a scan of a text gets to a string that is not one with
replacement fields, the next lexeme is the string up to its first closing quotes, on whatever row these stand. If
its row ends before, and the quotes are not tripled, the next lexeme is an error that ends in front of the line
feed. If the text ends before, inside tripled quotes or behind a backslash, then nothing follows but the dedents
of the open blocks and the end marker. There is no other case. -/
theorem string_ends {t gap word rest : Text} {q : Quotes} {xs : List Lexeme} {s : Scan} (hnull : '\x00' ∉ t)
    (hpaired : ∀ {u v}, t = u ++ '\r' :: v → v.head? = some '\n')
    (hrun : Run (Document.ofText t).source 0 xs s) (hmeets : s.Meets t gap word q rest) :
    (∀ u, q.Closes u rest → s.Takes .string (s.seen ++ gap) (word ++ q.text ++ u ++ q.text)) ∧
    (∀ u, q.Breaks u rest → s.Takes .error (s.seen ++ gap) (word ++ q.text ++ u)) ∧
    (q.RunsOut rest → ∀ n, (s.after n).next.1.tag = if n < s.levels.length then .dedent else .endMarker) ∧
    ((∃ u, q.Closes u rest) ∨ (∃ u, q.Breaks u rest) ∨ q.RunsOut rest) := by
  have hfaces := hmeets.faces (hrun.supply hmeets.awake)
  have hnull' : '\x00' ∉ rest := fun hmem ↦ hnull (hmeets.text ▸ List.mem_append_right _ hmem)
  refine ⟨?_, ?_, fun hout n ↦ ?_, ?_⟩
  · rintro u ⟨v, hrest, hreads⟩
    rw [hrest, List.append_assoc] at hfaces hnull'
    rcases hfaces.reads hreads (fun hmem ↦ hnull' (List.mem_append_left _ hmem)) with hfaces | ⟨hnil, -⟩
    · exact .of_step (hfaces.closed (Quotes.of?_eq_some hmeets.quotes).1)
    · exact absurd (List.append_eq_nil_iff.1 hnil).1 q.text_ne_nil
  · rintro u ⟨htripled, v, rfl, hreads, hend⟩
    rcases hfaces.reads hreads (fun hmem ↦ hnull' (List.mem_append_left _ hmem)) with hfaces | ⟨rfl, hout, -⟩
    · exact .of_step (hfaces.broken htripled (hend.imp_right And.left))
    · exact absurd hout (hend.resolve_left (by simp)).2
  · exact (hfaces.runsOut hnull' hout).tag_after hmeets.idle n
  · refine q.exists_end fun {u v} h ↦ hpaired (u := s.seen ++ gap ++ word ++ q.text ++ u) ?_
    rw [hmeets.text, h]
    simp

/-- A string with a line break of two characters and a quote, each behind a backslash. -/
theorem string_ends_joined :
    let t := "x = b'a\\\r\n\\'c' + d\n".toList
    let s := (Scan.start (Document.ofText t).source 0).after 2
    '\x00' ∉ t ∧ (∃ xs, Run (Document.ofText t).source 0 xs s) ∧
      s.Meets t [' '] ['b'] ⟨'\'', false⟩ "a\\\r\n\\'c' + d\n".toList ∧
      (⟨'\'', false⟩ : Quotes).Closes "a\\\r\n\\'c".toList "a\\\r\n\\'c' + d\n".toList ∧
      s.next.1 = ⟨.string, "b'a\\\r\n\\'c'".toList, ⟨0, 4⟩, ⟨1, 4⟩⟩ := by
  intro t s
  have hnull : '\x00' ∉ t := by decide
  have hpaired : ∀ {u v}, t = u ++ '\r' :: v → v.head? = some '\n' := Text.head?_of_getElem? (by decide)
  have hrun : Run (Document.ofText t).source 0 _ s := Run.start.next.next
  have hmeets : s.Meets t [' '] ['b'] ⟨'\'', false⟩ "a\\\r\n\\'c' + d\n".toList :=
    { idle := by rfl
      awake := by rfl
      plain := by rfl
      margin := fun hat ↦ absurd hat (by decide +kernel)
      text := by decide +kernel
      row := ⟨"x =".toList, "a\\\r\n".toList, by decide +kernel⟩
      gaps := by decide
      word := .inr (by decide)
      quotes := by rfl }
  have hcloses : (⟨'\'', false⟩ : Quotes).Closes "a\\\r\n\\'c".toList "a\\\r\n\\'c' + d\n".toList := by
    refine ⟨" + d\n".toList, by rfl, ?_⟩
    refine .char (by decide) (by decide) (by decide) (.joined (e := ['\r', '\n']) (by simp) ?_)
    exact .escaped (by decide) (.char (by decide) (by decide) (by decide) .nil)
  have hlexeme := ((string_ends hnull hpaired hrun hmeets).1 _ hcloses).lexeme
  rw [show s.seen = "x =".toList by decide +kernel] at hlexeme
  exact ⟨hnull, ⟨_, hrun⟩, hmeets, hcloses, hlexeme⟩

end Lexeme

end HeaderHints
