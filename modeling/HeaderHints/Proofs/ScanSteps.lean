import Mathlib.Data.List.TakeWhile
import HeaderHints.Proofs.Places
import HeaderHints.Proofs.Shapes

/-!
# Steps of a scan

What one step of a scan can do, said once (`Scan.step_outcome`). A step that does not run out of
source either leaves a row at a joined line end, or produces a lexeme of the margin, or advances: it
skips a gap, takes the text of a lexeme, and lands right behind it or, after a line break, at the
start of the next row.

Proofs about readers of lexemes go by these outcomes and never open the scan. A `Spot` is what they
have to know of the scan before the step.
-/

namespace HeaderHints

open Lexeme

/-- No further line follows. -/
def Source.Dry (source : Source) : Prop :=
  ∀ (c : Char) (t : Text) (more : Source), source ≠ some (c :: t) :: more

/-- The lexeme that says of a margin that it fits none of the open blocks. -/
def Lexeme.Misfits (x : Lexeme) : Prop :=
  x.tag = .error ∧ x.start = x.stop ∧ x.text = "unindent does not match any outer indentation level".toList

/-- Where a scan stands in a row: the rows before, the row before and after the reading point, and
the source of further rows. -/
structure Spot where
  /-- The rows that have been left. -/
  past : List Text
  /-- The row before the reading point. -/
  behind : Text
  /-- The row after the reading point. -/
  ahead : Text
  /-- Where rows come from. -/
  feed : Feed

namespace Spot

/-- The rows that have been read. -/
def rows (w : Spot) : List Text :=
  w.past ++ [w.behind ++ w.ahead]

/-- The text before the reading point. -/
def seen (w : Spot) : Text :=
  w.past.flatten ++ w.behind

/-- The rows that have been read and those to come. -/
def supply (w : Spot) : Source :=
  w.rows.map some ++ w.feed.upcoming

theorem place_of_ahead {w : Spot} {t r : Text} (h : w.ahead = t ++ r) :
    Place w.rows ⟨w.past.length, Text.bytes (w.behind ++ t)⟩ (w.seen ++ t) :=
  ⟨w.past, w.behind ++ t, r, [], by simp [rows, h], rfl, by simp [seen]⟩

end Spot

/-- What a request comes to: a line that is not empty, or the end of the source. -/
theorem Feed.ask_eq (f : Feed) :
    (∃ c t more, f.upcoming = some (c :: t) :: more ∧
      f.ask = (some (c :: t), ⟨more, f.index + 1, f.asked ++ [f.index]⟩)) ∨
    (f.upcoming.Dry ∧ f.ask = (none, ⟨[], f.index + 1, f.asked ++ [f.index]⟩)) := by
  unfold ask
  split
  · rename_i c t more hup
    exact .inl ⟨c, t, more, hup, rfl⟩
  · rename_i hdry
    exact .inr ⟨hdry, rfl⟩

/-- A string with replacement fields stands in quotes. -/
def Frame.Quoted (f : Frame) : Prop :=
  f.quotes.char = '"' ∨ f.quotes.char = '\''

namespace Scan

/-- The row before the reading point. -/
def behind (s : Scan) : Text :=
  (s.current.map Prod.fst).getD []

/-- The text before the reading point. -/
def seen (s : Scan) : Text :=
  s.past.flatten ++ s.behind

/-- The rows that have been read and those to come. -/
def supply (s : Scan) : Source :=
  s.rows.map some ++ s.feed.upcoming

/-- The parts of a scan go together: a logical line can start only at the start of a row and outside
strings, and the strings that are open stand in quotes. -/
structure Formed (s : Scan) : Prop where
  fresh : s.atStart = true → s.behind = [] ∧ s.frames = []
  quoted : ∀ f ∈ s.frames, f.Quoted

theorem formed_start (source : Source) (first : Nat) : (start source first).Formed :=
  ⟨fun _ ↦ ⟨rfl, rfl⟩, by simp [start]⟩

/-- A row that is left at the end of `text`, with `drop` behind it: either nothing is dropped, or
the text ends in a line break. -/
def Cut (text drop : Text) : Prop :=
  drop = [] ∨ text.getLast? = some '\n' ∨ (text.getLast? = some '\r' ∧ drop.head? ≠ some '\n')

/-! ### Outcomes -/

/-- From `w` the scan skips `gap`, takes the lexeme `x` and comes to `s'`; if it leaves the row,
`drop` is what it leaves unread there. -/
structure Advance (w : Spot) (gap : Text) (x : Lexeme) (drop : Text) (s' : Scan) : Prop where
  gaps : ∀ c ∈ gap, isGap c = true
  ahead : ∃ r, w.ahead = gap ++ r
  start_eq : x.start = ⟨w.past.length, Text.bytes (w.behind ++ gap)⟩
  grows : w.rows <+: s'.rows
  supply : s'.supply = w.supply
  stop : Place s'.rows x.stop (w.seen ++ gap ++ x.text)
  seen : s'.seen = w.seen ++ gap ++ x.text ++ drop
  cut : Cut x.text drop
  lands : (∃ b r, s'.current = some (b, r) ∧ x.stop = ⟨s'.past.length, Text.bytes b⟩ ∧
      drop = [] ∧ x.tag ≠ .newline ∧ x.tag ≠ .nl) ∨
    (∃ b, s'.current = none ∧ s'.past = w.past ++ [b ++ drop] ∧
      x.stop = ⟨w.past.length, Text.bytes b⟩ ∧
      (x.tag = .newline ∨ x.tag = .nl ∨ x.tag = .fstringMiddle))
  level : x.tag = .op → s'.past = w.past
  idle : s'.queued = []
  awake : s'.exhausted = false
  formed : s'.Formed

/-- A lexeme of the margin of the row at hand: the margin itself, where it opens a block, or a lexeme behind
it that closes a block or says that no block fits. -/
def Marginal (past : List Text) (row : Text) (x : Lexeme) : Prop :=
  x.stop = ⟨past.length, Text.bytes (row.takeWhile isGap)⟩ ∧
    ((x.tag = .indent ∧ x.start = ⟨past.length, 0⟩ ∧ x.text = row.takeWhile isGap) ∨
      x.tag = .dedent ∧ x.start = x.stop ∧ x.text = [] ∨ x.Misfits)

/-- A lexeme of the margin, up to the difference between its classes. -/
theorem Marginal.exists_split {past : List Text} {row : Text} {x : Lexeme} (h : Marginal past row x) :
    ∃ margin text, row = margin ++ text ∧ (∀ c ∈ margin, isGap c = true) ∧
      x.stop = ⟨past.length, Text.bytes margin⟩ ∧
      (x.tag = .indent ∨ x.tag = .dedent ∨ x.tag = .error) := by
  refine ⟨row.takeWhile isGap, row.dropWhile isGap, List.takeWhile_append_dropWhile.symm,
    fun c hc ↦ List.mem_takeWhile_imp hc, h.1, ?_⟩
  exact h.2.imp And.left (Or.imp And.left And.left)

/-- A lexeme behind the margin has no text of the row. -/
theorem Marginal.behind {past : List Text} {row : Text} {x : Lexeme} (h : Marginal past row x)
    (htag : x.tag ≠ .indent) : x.start = x.stop ∧ (x.text = [] ∨ x.Misfits) := by
  rcases h.2 with ⟨hindent, -⟩ | ⟨-, hstart, htext⟩ | hx
  · exact absurd hindent htag
  · exact ⟨hstart, .inl htext⟩
  · exact ⟨hx.2.1, .inr hx⟩

theorem Marginal.tag_ne {past : List Text} {row : Text} {x : Lexeme} (h : Marginal past row x) :
    x.tag ≠ .endMarker := by
  obtain ⟨-, -, -, -, -, htag⟩ := h.exists_split
  rcases htag with htag | htag | htag <;> simp [htag]

/-- The scan is at its end: no line is left, and what it still produces are dedents and end markers behind
the last row. -/
structure Spent (s : Scan) : Prop where
  exhausted : s.exhausted = true
  current : s.current = none
  upcoming : s.feed.upcoming = []
  queued : ∀ y ∈ s.queued, y = s.mark .dedent []

/-- At the end of the source the scan produces `x` and comes to `s`. Nothing is due after the end marker. -/
structure Ends (x : Lexeme) (s : Scan) : Prop where
  spent : s.Spent
  lexeme : x = s.mark .dedent [] ∨ x = s.mark .endMarker [] ∧ s.queued = []

theorem Ends.tag {x : Lexeme} {s : Scan} (h : Ends x s) : x.tag = .dedent ∨ x.tag = .endMarker := by
  obtain rfl | ⟨rfl, -⟩ := h.lexeme
  · exact .inl rfl
  · exact .inr rfl

/-- What a step from `w` can come to. -/
inductive Outcome (w : Spot) : Option Lexeme × Scan → Prop
  /-- A joined line end, or the end of a row without a line break, is left behind. -/
  | quiet {s' : Scan} {u r : Text} : w.ahead = u ++ r → (∀ c ∈ u, isGap c = true) →
      (r = [] ∨ ∃ b t, r = '\\' :: b :: t ∧ isBreak b = true) → s'.past = w.rows →
      s'.current = none → s'.feed = w.feed → s'.queued = [] → s'.exhausted = false → s'.Formed →
      Outcome w (none, s')
  /-- A lexeme is taken. -/
  | advance {gap drop : Text} {x : Lexeme} {s' : Scan} : Advance w gap x drop s' → x.Fits →
      x.tag ≠ .indent → x.tag ≠ .dedent → x.tag ≠ .endMarker → Outcome w (some x, s')
  /-- The margin of the row is compared with the open blocks. -/
  | margin {x : Lexeme} {s' : Scan} : w.behind = [] → Marginal w.past w.ahead x →
      (∀ y ∈ s'.queued, Marginal w.past w.ahead y ∧ y.tag ≠ .indent) → s'.past = w.past →
      s'.current = some ([], w.ahead) → s'.feed = w.feed → s'.exhausted = false → s'.frames = [] →
      s'.atStart = false → Outcome w (some x, s')
  /-- The source runs out, in a string that is not closed. -/
  | spent {x : Lexeme} {s' : Scan} {left : Source} : Ends x s' → w.rows <+: s'.past → left.Dry →
      s'.past.map some ++ left = w.supply → Outcome w (some x, s')

variable {w : Spot} {s : Scan}

/-! ### Lexemes of one row -/

/-- The state of a scan that is about to produce: it stands at the spot, up to what spots leave
out. -/
structure At (s : Scan) (w : Spot) : Prop where
  past : s.past = w.past
  feed : s.feed = w.feed
  idle : s.queued = []
  awake : s.exhausted = false
  begun : s.atStart = false
  quoted : ∀ f ∈ s.frames, f.Quoted

/-- Behind the start of a logical line the parts of a scan go together. -/
theorem formed_of_begun {s : Scan} (hbegun : s.atStart = false)
    (hquoted : ∀ f ∈ s.frames, f.Quoted) : s.Formed :=
  ⟨fun hat ↦ absurd hat (by simp [hbegun]), hquoted⟩

theorem outcome_produce (h : s.At w) {tag : Tag} {gap text rest : Text}
    (ha : w.ahead = gap ++ text ++ rest) (hg : ∀ c ∈ gap, isGap c = true)
    (hfit : ∀ p q, Fits ⟨tag, text, p, q⟩)
    (htag : tag ∉ [.newline, .nl, .indent, .dedent, .endMarker]) :
    Outcome w (s.produce tag (w.behind ++ gap) text rest) := by
  have hrows : w.rows = (s.produce tag (w.behind ++ gap) text rest).2.rows := by
    simp [produce, rows, Spot.rows, h.past, ha]
  simp only [List.mem_cons, List.not_mem_nil, or_false, not_or] at htag
  obtain ⟨hnewline, hnl, hindent, hdedent, hend⟩ := htag
  refine .advance (show Advance w gap _ [] _ from ?_) (hfit _ _) hindent hdedent hend
  refine
    { gaps := hg
      ahead := ⟨text ++ rest, by simp [ha]⟩
      start_eq := by simp [position, h.past]
      grows := hrows ▸ List.prefix_rfl
      supply := by
        show (s.produce tag (w.behind ++ gap) text rest).2.rows.map some ++ s.feed.upcoming =
          w.supply
        rw [← hrows, h.feed, Spot.supply]
      stop := ?_
      seen := by simp [seen, behind, Spot.seen, h.past]
      cut := .inl rfl
      lands := .inl ⟨_, rest, rfl, by simp [position], rfl, hnewline, hnl⟩
      level := fun _ ↦ h.past
      idle := h.idle
      awake := h.awake
      formed := formed_of_begun h.begun h.quoted }
  have hplace := Spot.place_of_ahead (w := w) (t := gap ++ text) (r := rest) ha
  rw [hrows] at hplace
  simpa [position, produce, h.past, List.append_assoc] using hplace

/-- A lexeme that ends in a line break leaves the row. -/
theorem advance_leave {s' : Scan} {x : Lexeme} {gap drop : Text}
    (hpast : s'.past = w.past ++ [w.behind ++ gap ++ x.text ++ drop]) (hcur : s'.current = none)
    (hfeed : s'.feed = w.feed) (hidle : s'.queued = []) (hawake : s'.exhausted = false)
    (hformed : s'.Formed) (ha : w.ahead = gap ++ x.text ++ drop) (hg : ∀ c ∈ gap, isGap c = true)
    (hstart : x.start = ⟨w.past.length, Text.bytes (w.behind ++ gap)⟩)
    (hstop : x.stop = ⟨w.past.length, Text.bytes (w.behind ++ gap ++ x.text)⟩)
    (hcut : Cut x.text drop) (htag : x.tag = .newline ∨ x.tag = .nl ∨ x.tag = .fstringMiddle) :
    Advance w gap x drop s' := by
  have hrows : s'.rows = w.rows := by simp [rows, Spot.rows, hpast, hcur, ha]
  refine
    { gaps := hg
      ahead := ⟨x.text ++ drop, by simp [ha]⟩
      start_eq := hstart
      grows := hrows ▸ List.prefix_rfl
      supply := by rw [supply, Spot.supply, hrows, hfeed]
      stop := ?_
      seen := by simp [seen, behind, Spot.seen, hpast, hcur]
      cut := hcut
      lands := .inr ⟨w.behind ++ gap ++ x.text, hcur, hpast, hstop, htag⟩
      level := fun hop ↦ by simp [hop] at htag
      idle := hidle
      awake := hawake
      formed := hformed }
  have hplace := Spot.place_of_ahead (w := w) (t := gap ++ x.text) (r := drop) ha
  rw [hrows, hstop]
  simpa [List.append_assoc] using hplace

theorem outcome_lineBreak (h : s.At w) {gap text rest : Text}
    (ha : w.ahead = gap ++ text ++ rest) (hg : ∀ c ∈ gap, isGap c = true)
    (ht : text ∈ [[], ['\n'], ['\r'], ['\r', '\n']]) (hcut : Cut text rest) :
    Outcome w (s.lineBreak (w.behind ++ gap) text rest) := by
  have htag : ∀ b : Bool, (if b then Tag.newline else Tag.nl) = .newline ∨
      (if b then Tag.newline else Tag.nl) = .nl := by simp
  refine .advance (show Advance w gap _ rest _ from ?_) ?_ ?_ ?_ ?_
  · refine advance_leave ?_ rfl h.feed h.idle h.awake ?_ ha hg ?_ ?_ hcut ?_
    · simp [h.past]
    · refine ⟨fun hat ↦ ?_, h.quoted⟩
      have : s.depth = 0 ∧ s.frames = [] := by simpa [lineBreak] using hat
      exact ⟨rfl, this.2⟩
    · simp [position, h.past]
    · simp [position, h.past]
    · exact (htag _).imp_right .inl
  · show Fits ⟨if _ then _ else _, text, _, _⟩
    split <;> exact ht
  · show (if _ then _ else _) ≠ _
    split <;> simp
  · show (if _ then _ else _) ≠ _
    split <;> simp
  · show (if _ then _ else _) ≠ _
    split <;> simp

/-! ### The end of the source -/

theorem ends_finish (h : s.queued = []) (hcur : s.current = none) (hup : s.feed.upcoming = []) :
    ∃ x s', s.finish = (some x, s') ∧ Ends x s' ∧ s'.past = s.past := by
  unfold finish
  split
  · exact ⟨_, _, rfl, ⟨⟨rfl, hcur, hup, by simp [h]⟩, .inr ⟨rfl, h⟩⟩, rfl⟩
  · refine ⟨_, _, rfl, ⟨⟨rfl, hcur, hup, fun y hy ↦ ?_⟩, .inl rfl⟩, rfl⟩
    obtain ⟨_, _, rfl⟩ := List.mem_map.1 hy
    rfl

/-- From its end the scan goes nowhere. -/
theorem Spent.step (h : s.Spent) :
    ∃ x s', s.step = (some x, s') ∧ Ends x s' ∧ s'.past = s.past ∧ s'.feed = s.feed := by
  unfold Scan.step
  split
  · rename_i y queued hq
    have hy : y = s.mark .dedent [] := h.queued y (by simp [hq])
    refine ⟨y, _, rfl, ⟨⟨h.exhausted, h.current, h.upcoming, fun z hz ↦ ?_⟩, .inl hy⟩, rfl, rfl⟩
    exact h.queued z (by simp [hq, hz])
  · rename_i hq
    rw [if_pos h.exhausted]
    exact ⟨_, _, rfl, ⟨h, .inr ⟨rfl, hq⟩⟩, rfl, rfl⟩

/-! ### Getting hold of a row -/

theorem load_of_some {b r : Text} (h : s.current = some (b, r)) : s.load = s := by
  simp [load, h]

theorem load_eq_ask (h : s.current = none) :
    s.load = { s with feed := s.feed.ask.2, current := s.feed.ask.1.map fun row ↦ ([], row) } := by
  simp only [load, h]
  split <;> rename_i hask <;> rw [hask] <;> rfl

/-- A row that is asked for is the next one of the supply. -/
theorem load_of_none {b r : Text} (hnone : s.current = none)
    (h : s.load.current = some (b, r)) :
    b = [] ∧ s.load.past = s.past ∧ s.load.supply = s.supply ∧ s.load.rows = s.rows ++ [r] ∧
      s.feed.upcoming = some r :: s.load.feed.upcoming ∧ r ≠ [] := by
  rw [load_eq_ask hnone] at h ⊢
  rcases s.feed.ask_eq with ⟨c, t, more, hup, hask⟩ | ⟨-, hask⟩ <;> rw [hask] at h ⊢
  · obtain ⟨rfl, rfl⟩ := Prod.mk.inj (Option.some.inj h)
    simp [supply, rows, hnone, hup]
  · exact absurd h (by simp)

theorem load_supply {b r : Text} (h : s.load.current = some (b, r)) : s.load.supply = s.supply := by
  cases hc : s.current with
  | none => exact (load_of_none hc h).2.2.1
  | some p => rw [load_of_some hc]

/-- No row is got hold of only where no line follows. -/
theorem dry_of_load (h : s.load.current = none) :
    s.current = none ∧ s.feed.upcoming.Dry ∧ s.load.past = s.past ∧ s.load.feed.upcoming = [] := by
  have hnone : s.current = none := by
    by_contra hsome
    obtain ⟨p, hp⟩ := Option.ne_none_iff_exists'.1 hsome
    rw [load_of_some hp, hp] at h
    exact absurd h (by simp)
  rw [load_eq_ask hnone] at h ⊢
  rcases s.feed.ask_eq with ⟨c, t, more, -, hask⟩ | ⟨hdry, hask⟩
  · rw [hask] at h
    exact absurd h (by simp)
  · exact ⟨hnone, hdry, rfl, by rw [hask]⟩

theorem load_queued : s.load.queued = s.queued := by
  unfold load
  split
  · rfl
  · split <;> rfl

theorem load_exhausted : s.load.exhausted = s.exhausted := by
  unfold load
  split
  · rfl
  · split <;> rfl

theorem load_atStart : s.load.atStart = s.atStart := by
  unfold load
  split
  · rfl
  · split <;> rfl

theorem load_frames : s.load.frames = s.frames := by
  unfold load
  split
  · rfl
  · split <;> rfl

/-- At its end a scan gets hold of no row. -/
theorem Spent.load_current (h : s.Spent) : s.load.current = none := by
  rw [load_eq_ask h.current]
  rcases s.feed.ask_eq with ⟨c, t, more, hup, -⟩ | ⟨-, hask⟩
  · exact absurd (h.upcoming.symm.trans hup) (by simp)
  · rw [hask]
    rfl

/-! ### Strings -/

/-- The scan is in a string that starts with `c` behind a gap of the spot. It has taken `m` of it, and stands
in the row at hand before `rest`. -/
structure InString (w : Spot) (gap : Text) (c : Char) (s : Scan) (before rest m : Text) : Prop where
  current : s.current = some (before, rest)
  idle : s.queued = []
  awake : s.exhausted = false
  begun : s.atStart = false
  quoted : ∀ f ∈ s.frames, f.Quoted
  grows : w.rows <+: s.rows
  supply : s.supply = w.supply
  seen : s.seen = w.seen ++ gap ++ m
  opens : ∃ t, m = c :: t

section Strings

variable {q : Quotes} {gap r before rest m : Text} {c : Char}

/-- The string ends in the row at hand, or breaks off in it. -/
theorem InString.outcome (h : InString w gap c s before rest m) (hg : ∀ c ∈ gap, isGap c = true)
    (ha : w.ahead = gap ++ r) (hc : isNameStart c ∨ c = '"' ∨ c = '\'')
    (hq : q.char = '"' ∨ q.char = '\'') {tag : Tag} {text rest' : Text} {hasContent : Bool}
    (htag : (tag = .string ∧ text.getLast? = some q.char) ∨ tag = .error) (happ : text ++ rest' = rest) :
    Outcome w (some ⟨tag, slice s.rows ⟨w.past.length, Text.bytes (w.behind ++ gap)⟩
        (s.position (before ++ text)), ⟨w.past.length, Text.bytes (w.behind ++ gap)⟩,
        s.position (before ++ text)⟩,
      { s with current := some (before ++ text, rest'), hasContent }) := by
  have hgrows := h.grows
  have hopening : Place s.rows ⟨w.past.length, Text.bytes (w.behind ++ gap)⟩ (w.seen ++ gap) :=
    (Spot.place_of_ahead ha).mono hgrows
  have hrows : s.rows = s.past ++ [before ++ text ++ rest'] := by
    simp [rows, h.current, ← happ]
  have hbefore : s.past.flatten ++ before = w.seen ++ gap ++ m := by
    rw [← h.seen]
    simp [Scan.seen, behind, h.current]
  have hstop : Place s.rows (s.position (before ++ text)) (w.seen ++ gap ++ (m ++ text)) := by
    refine ⟨s.past, before ++ text, rest', [], hrows, rfl, ?_⟩
    rw [← List.append_assoc, ← List.append_assoc, hbefore]
  have hslice := hopening.slice_eq hstop
  obtain ⟨t, rfl⟩ := h.opens
  simp only [hslice]
  refine .advance (show Advance w gap _ [] _ from ?_) ?_ ?_ ?_ ?_
  · exact
      { gaps := hg
        ahead := ⟨r, ha⟩
        start_eq := rfl
        grows := by
          rw [hrows] at hgrows
          simpa [rows] using hgrows
        supply := by
          rw [← h.supply]
          simp [Scan.supply, rows, h.current, ← happ]
        stop := by
          rw [hrows] at hstop
          simpa [rows, List.append_assoc] using hstop
        seen := by
          simp only [Scan.seen, behind, Option.map_some, Option.getD_some, List.append_nil]
          rw [← List.append_assoc, hbefore]
          simp
        cut := .inl rfl
        lands := .inl ⟨_, _, rfl, rfl, rfl, by rcases htag with ⟨rfl, -⟩ | rfl <;> simp,
          by rcases htag with ⟨rfl, -⟩ | rfl <;> simp⟩
        level := fun hop ↦ absurd hop (by rcases htag with ⟨rfl, -⟩ | rfl <;> simp)
        idle := h.idle
        awake := h.awake
        formed := formed_of_begun h.begun h.quoted }
  · rcases htag with ⟨rfl, hlast⟩ | rfl
    · refine ⟨⟨c, t ++ text, rfl, hc⟩, ?_⟩
      show (c :: t ++ text).getLast? ∈ _
      rw [List.getLast?_append, hlast]
      simpa using hq
    · trivial
  all_goals rcases htag with ⟨rfl, -⟩ | rfl <;> simp

/-- The string goes on in the next row. -/
theorem InString.nextRow (h : InString w gap c s before rest m) {b r : Text}
    (hload : s.leaveRow.load.current = some (b, r)) :
    InString w gap c s.leaveRow.load [] r (m ++ rest) ∧
      s.feed.upcoming.length = s.leaveRow.load.feed.upcoming.length + 1 := by
  have hrows : s.leaveRow.rows = s.rows := by simp [leaveRow, rows]
  obtain ⟨rfl, hpast, hsup, hrow, hup, -⟩ := load_of_none (s := s.leaveRow) rfl hload
  refine ⟨⟨hload, ?_, ?_, ?_, ?_, ?_, ?_, ?_, ?_⟩, congrArg List.length hup⟩
  · rw [load_queued]
    exact h.idle
  · rw [load_exhausted]
    exact h.awake
  · rw [load_atStart]
    exact h.begun
  · rw [load_frames]
    exact h.quoted
  · rw [hrow, hrows]
    exact h.grows.trans (List.prefix_append _ _)
  · rw [hsup, ← h.supply, Scan.supply, Scan.supply, hrows]
    rfl
  · have hbehind : s.leaveRow.load.behind = [] := by simp [behind, hload]
    have hflatten : s.rows.flatten = s.seen ++ rest := by
      simp [rows, Scan.seen, behind, h.current]
    rw [Scan.seen, hbehind, hpast, show s.leaveRow.past = s.rows from rfl, List.append_nil, hflatten, h.seen]
    simp
  · obtain ⟨t, rfl⟩ := h.opens
    exact ⟨t ++ rest, rfl⟩

/-- **The rows of a string**, one after another. -/
theorem outcome_stringRows (hg : ∀ c ∈ gap, isGap c = true) (ha : w.ahead = gap ++ r)
    (hc : isNameStart c ∨ c = '"' ∨ c = '\'') (hq : q.char = '"' ∨ q.char = '\'') (n : Nat) :
    ∀ {s : Scan} {before rest m : Text}, InString w gap c s before rest m →
      s.feed.upcoming.length + 1 < n →
      Outcome w (stringRows q ⟨w.past.length, Text.bytes (w.behind ++ gap)⟩ n s) := by
  induction n with
  | zero => exact fun _ hleft ↦ absurd hleft (Nat.not_lt_zero _)
  | succ n ih =>
    intro s before rest m h hleft
    rw [stringRows, h.current]
    dsimp only
    split
    · exact h.outcome hg ha hc hq (.inl ⟨rfl, getLast?_of_body_eq_closed ‹_›⟩) (append_of_body_eq_closed ‹_›)
    · exact h.outcome hg ha hc hq (.inr rfl) (append_of_body_eq_broken ‹_›)
    cases hload : s.leaveRow.load.current with
    | none =>
      -- the source runs out, in the string
      obtain ⟨n, rfl⟩ : ∃ k, n = k + 1 := Nat.exists_eq_add_one.2 (by omega)
      obtain ⟨-, hdry, hpast, hup⟩ := dry_of_load hload
      obtain ⟨x, s', hfin, hends, hpast'⟩ :=
        ends_finish (s := s.leaveRow.load) (by rw [load_queued]; exact h.idle) hload hup
      rw [stringRows, hload, hfin]
      rw [hpast, show s.leaveRow.past = s.rows from rfl] at hpast'
      refine .spent hends (hpast' ▸ h.grows) hdry ?_
      rw [hpast', ← h.supply]
      rfl
    | some p =>
      obtain ⟨h', hup⟩ := h.nextRow hload
      exact ih h' (by omega)

end Strings

theorem outcome_string (h : s.At w) {gap word rest : Text} {q : Quotes} {c : Char} {t : Text}
    (hg : ∀ c ∈ gap, isGap c = true) (ha : w.ahead = gap ++ (word ++ q.text) ++ rest)
    (hword : word ++ q.text = c :: t) (hc : isNameStart c ∨ c = '"' ∨ c = '\'')
    (hq : q.char = '"' ∨ q.char = '\'') :
    Outcome w (s.string (w.behind ++ gap) word q rest) := by
  unfold string
  split
  · have h' : ({ s with frames := ⟨q, []⟩ :: s.frames } : Scan).At w :=
      ⟨h.past, h.feed, h.idle, h.awake, h.begun, List.forall_mem_cons.2 ⟨hq, h.quoted⟩⟩
    exact outcome_produce h' ha hg (fun _ _ ↦ ⟨c, t, hword, hc⟩) (by simp)
  · have hrows : w.past ++ [w.behind ++ gap ++ word ++ q.text ++ rest] = w.rows := by
      simp [Spot.rows, ha]
    rw [position, h.past]
    refine outcome_stringRows hg (r := word ++ q.text ++ rest) (by simp [ha]) hc hq _
      (m := word ++ q.text) ⟨rfl, h.idle, h.awake, h.begun, h.quoted, ?_, ?_, ?_, t, hword⟩
      (Nat.lt_succ_self _)
    · rw [← hrows]
      simp [rows]
    · rw [Spot.supply, ← hrows]
      simp [supply, rows, h.feed]
    · simp [seen, behind, Spot.seen]

/-! ### Literal text -/

theorem at_closeFrame (h : s.At w) : s.closeFrame.At w :=
  ⟨h.past, h.feed, h.idle, h.awake, h.begun, fun f hf ↦ h.quoted f (List.mem_of_mem_tail hf)⟩

/-- The fields of the innermost string change, and its quotes do not. -/
theorem At.quoted_modifyHead (h : s.At w) {change : Frame → Frame}
    (hc : ∀ f, (change f).quotes = f.quotes) :
    ∀ f ∈ s.frames.modifyHead change, f.Quoted := by
  have hquoted := h.quoted
  cases hframes : s.frames with
  | nil => simp
  | cons f fs =>
    rw [hframes, List.forall_mem_cons] at hquoted
    rw [List.modifyHead_cons, List.forall_mem_cons, Frame.Quoted, hc]
    exact hquoted

theorem at_openField (h : s.At w) : s.openField.At w :=
  ⟨h.past, h.feed, h.idle, h.awake, h.begun, h.quoted_modifyHead fun _ ↦ rfl⟩

theorem at_closeField (h : s.At w) : s.closeField.At w :=
  ⟨h.past, h.feed, h.idle, h.awake, h.begun, h.quoted_modifyHead fun _ ↦ rfl⟩

/-- Literal text that is empty stops at a line break, at a brace, or at the closing quotes, which have no
meaning in a format specification. -/
theorem splitLiteral_nil_cons {q : Quotes} {inSpec : Bool} {t : Text} {c : Char} {r : Text}
    (h : splitLiteral q inSpec t = ([], c :: r)) :
    c = '\n' ∨ c = '{' ∨ c = '}' ∨ inSpec = false ∧ q.text <+: c :: r := by
  revert h
  fun_cases splitLiteral q inSpec t <;> intro h
  case case5 =>
    obtain ⟨rfl, -⟩ := List.cons_eq_cons.1 (Prod.mk.inj h).2
    simp
  case case7 =>
    obtain ⟨rfl, -⟩ := List.cons_eq_cons.1 (Prod.mk.inj h).2
    simp
  case case9 hstop =>
    obtain ⟨rfl, -⟩ := List.cons_eq_cons.1 (Prod.mk.inj h).2
    simp only [Bool.or_eq_true, decide_eq_true_eq] at hstop
    tauto
  case case10 hquote =>
    obtain ⟨rfl, rfl⟩ := List.cons_eq_cons.1 (Prod.mk.inj h).2
    simp only [Bool.and_eq_true, Bool.or_eq_true, decide_eq_true_eq, Bool.not_eq_true',
      List.isPrefixOf_iff_prefix] at hquote
    obtain ⟨⟨rfl, hspec⟩, hquote⟩ := hquote
    refine .inr (.inr (.inr ⟨hspec, ?_⟩))
    unfold Quotes.text
    split
    · obtain ⟨rest, rfl⟩ := hquote.resolve_left (by simp [*])
      exact ⟨rest, rfl⟩
    · exact ⟨_, rfl⟩
  all_goals simp [preceded] at h

theorem outcome_literal (h : s.At w) {frame : Frame} (hframe : frame ∈ s.frames)
    (hcur : s.current = some (w.behind, w.ahead)) :
    Outcome w (s.literal frame w.behind w.ahead) := by
  have happ := splitLiteral_append frame.quotes (!frame.fields.isEmpty) w.ahead
  have hstop := @splitLiteral_nil_cons frame.quotes (!frame.fields.isEmpty) w.ahead
  have hbehind : w.behind = w.behind ++ [] := (List.append_nil _).symm
  have hgap : ∀ c ∈ ([] : Text), isGap c = true := by simp
  -- every lexeme of literal text starts at the reading point
  have hproduce : ∀ {s' : Scan} {tag : Tag} {text rest : Text}, s'.At w →
      text ++ rest = w.ahead → (∀ p q, Fits ⟨tag, text, p, q⟩) →
      tag ∉ [.newline, .nl, .indent, .dedent, .endMarker] →
      Outcome w (s'.produce tag w.behind text rest) := by
    intro s' tag text rest hat hsplit hfit htag
    rw [hbehind]
    exact outcome_produce hat (by simp [← hsplit]) hgap hfit htag
  unfold literal
  simp only
  generalize splitLiteral frame.quotes (!frame.fields.isEmpty) w.ahead = parts at happ hstop
  split
  · rename_i text after
    split
    · -- the line break is taken too, and the row is left
      refine .advance (show Advance w [] _ after _ from ?_) trivial (by simp) (by simp) (by simp)
      refine advance_leave ?_ rfl h.feed h.idle h.awake ?_ (by simp [← happ]) hgap ?_ ?_ ?_
        (.inr (.inr rfl))
      · simp [produce, leaveRow, rows, h.past]
      · exact formed_of_begun h.begun h.quoted
      · simp [position, h.past]
      · simp [position, h.past]
      · exact .inr (.inl (by simp))
    · split
      · exact hproduce h happ (fun _ _ ↦ trivial) (by simp)
      · rename_i hempty
        obtain rfl : text = [] := by simpa using hempty
        exact hproduce (at_closeFrame h) happ (fun _ _ ↦ trivial) (by simp)
  · exact hproduce h happ (fun _ _ ↦ trivial) (by simp)
  · split
    · refine .quiet (u := []) (r := []) happ.symm hgap (.inl rfl) ?_ rfl h.feed h.idle h.awake ?_
      · simp [leaveRow, rows, hcur, h.past, Spot.rows]
      · exact formed_of_begun h.begun h.quoted
    · exact hproduce (at_closeFrame h) happ (fun _ _ ↦ trivial) (by simp)
  · exact hproduce (at_openField h) happ (fun _ _ ↦ by simp [Fits, operators]) (by simp)
  · split
    · exact hproduce (at_closeField h) happ (fun _ _ ↦ by simp [Fits, operators]) (by simp)
    · exact hproduce h happ (fun _ _ ↦ trivial) (by simp)
  · rename_i after hnl hnil hopen hclose
    have hq : frame.quotes.text <+: after := by
      cases after with
      | nil => exact (hnil rfl).elim
      | cons c r =>
        rcases hstop (c := c) (r := r) rfl with rfl | rfl | rfl | ⟨-, hq⟩
        · exact (hnl _ rfl).elim
        · exact (hopen _ rfl).elim
        · exact (hclose _ rfl).elim
        · exact hq
    obtain ⟨rest, rfl⟩ := hq
    refine hproduce (at_closeFrame h) ?_ (fun _ _ ↦ ?_) (by simp)
    · simpa using happ
    · show frame.quotes.text.getLast? ∈ _
      unfold Quotes.text
      split <;> simpa [Frame.Quoted] using h.quoted frame hframe

/-! ### Steps -/

theorem span_isGap (t : Text) : ∃ gap rest, t.span isGap = (gap, rest) ∧ t = gap ++ rest ∧
    ∀ c ∈ gap, isGap c = true := by
  refine ⟨t.takeWhile isGap, t.dropWhile isGap, List.span_eq_takeWhile_dropWhile _ _,
    List.takeWhile_append_dropWhile.symm, ?_⟩
  exact fun c hc ↦ List.mem_takeWhile_imp hc

theorem span_isNamePart {c : Char} (t : Text) (hc : isNameStart c = true) :
    ∃ word rest, (c :: t).span isNamePart = (c :: word, rest) ∧ c :: word ++ rest = c :: t ∧
      ∀ e ∈ word, isNamePart e = true := by
  have hword : (c :: t).takeWhile isNamePart = c :: t.takeWhile isNamePart := by
    simp [isNamePart_of_isNameStart hc]
  refine ⟨t.takeWhile isNamePart, (c :: t).dropWhile isNamePart, ?_, ?_, fun _ he ↦ List.mem_takeWhile_imp he⟩
  · rw [List.span_eq_takeWhile_dropWhile, hword]
  · rw [← hword]
    exact List.takeWhile_append_dropWhile

/-- A word is a name, or it belongs to the string that follows it. -/
theorem outcome_word (h : s.At w) {gap t : Text} {c : Char} (ha : w.ahead = gap ++ c :: t)
    (hg : ∀ c ∈ gap, isGap c = true) (hc : isNameStart c = true) :
    Outcome w (match (c :: t).span isNamePart with
      | (word, rest) =>
        match Quotes.of? rest with
        | some q =>
          if isStringMark word then s.string (w.behind ++ gap) word q (rest.drop q.text.length)
          else s.produce .name (w.behind ++ gap) word rest
        | none => s.produce .name (w.behind ++ gap) word rest) := by
  obtain ⟨word, rest, hspan, happ, hword⟩ := span_isNamePart t hc
  rw [hspan]
  have hname : Outcome w (s.produce .name (w.behind ++ gap) (c :: word) rest) :=
    outcome_produce h (by rw [ha, List.append_assoc, happ]) hg
      (fun _ _ ↦ ⟨c, _, rfl, hc, hword⟩) (by simp)
  dsimp only
  split
  · rename_i q hq
    split
    · obtain ⟨hchar, -, hrest⟩ := Quotes.of?_eq_some hq
      refine outcome_string h hg ?_ (c := c) rfl (.inl hc) hchar
      rw [ha, List.append_assoc, List.append_assoc, ← hrest, happ]
    · exact hname
  · exact hname

theorem outcome_operator (h : s.At w) {gap op rest : Text} (ha : w.ahead = gap ++ op ++ rest)
    (hg : ∀ c ∈ gap, isGap c = true) (hop : op ∈ operators) :
    Outcome w (s.operator (w.behind ++ gap) op rest) := by
  unfold operator
  refine outcome_produce ?_ ha hg (fun _ _ ↦ hop) (by simp)
  refine ⟨h.past, h.feed, h.idle, h.awake, h.begun, h.quoted_modifyHead fun f ↦ ?_⟩
  unfold Frame.after
  split
  · rfl
  · split <;> rfl

/-- Outside literal text, a step skips a gap and reads what stands there. -/
theorem outcome_plain (h : s.At w) (hcur : s.current = some (w.behind, w.ahead)) :
    Outcome w (s.plain w.behind w.ahead) := by
  obtain ⟨gap, rest, hspan, ha, hg⟩ := span_isGap w.ahead
  unfold plain
  rw [hspan]
  dsimp only
  match rest, ha with
  | [], ha =>
    exact outcome_lineBreak h (by simpa using ha) hg (by simp) (.inl rfl)
  | c :: t, ha =>
    dsimp only
    split
    · -- a comment
      rename_i hcomment
      subst hcomment
      rw [List.span_eq_takeWhile_dropWhile]
      refine outcome_produce h ?_ hg ?_ (by simp)
      · simp [ha]
      · intro p q
        exact ⟨t.takeWhile (!isBreak ·), by simp [isBreak]⟩
    split
    · rename_i hlf
      subst hlf
      exact outcome_lineBreak h (by simp [ha]) hg (by simp) (.inr (.inl rfl))
    split
    · rename_i hcr
      subst hcr
      split
      · rename_i hcrlf
        obtain ⟨r, rfl⟩ : ∃ r, t = '\n' :: r := by
          cases t with
          | nil => simp at hcrlf
          | cons d r => simpa using hcrlf
        exact outcome_lineBreak h (by simp [ha]) hg (by simp) (.inr (.inl rfl))
      · rename_i hcrlf
        exact outcome_lineBreak h (by simp [ha]) hg (by simp) (.inr (.inr ⟨rfl, hcrlf⟩))
    split
    · -- a joined line end
      rename_i hjoin
      simp only [Bool.and_eq_true, decide_eq_true_eq] at hjoin
      obtain ⟨rfl, hbreak⟩ := hjoin
      obtain ⟨b, r, rfl, hb⟩ : ∃ b r, t = b :: r ∧ isBreak b = true := by
        cases t with
        | nil => simp at hbreak
        | cons d r => exact ⟨d, r, rfl, by simpa using hbreak⟩
      refine .quiet ha hg (.inr ⟨b, r, rfl, hb⟩) ?_ rfl h.feed h.idle h.awake ?_
      · simp [leaveRow, rows, hcur, h.past, Spot.rows]
      · exact formed_of_begun h.begun h.quoted
    split
    · -- a number
      rename_i hnumber
      have happ := splitNumber_append (c :: t)
      obtain ⟨digits, hw⟩ := head_splitNumber hnumber
      refine outcome_produce h ?_ hg ?_ (by simp)
      · rw [List.append_assoc, happ, ha]
      · intro p q
        refine ⟨⟨c, digits, hw, ?_⟩, feed_notMem_splitNumber _⟩
        simp only [Bool.or_eq_true, Bool.and_eq_true, decide_eq_true_eq] at hnumber
        tauto
    split
    · -- a string without a word before it
      rename_i q hq
      obtain ⟨hchar, ⟨more, hmore⟩, hrest⟩ := Quotes.of?_eq_some hq
      exact outcome_string h hg (by rw [List.nil_append, List.append_assoc, ← hrest, ha])
        (by rw [List.nil_append, hmore]) (.inr hchar) hchar
    split
    · exact outcome_word h ha hg ‹_›
    split
    · rename_i op hop
      obtain ⟨hmem, hrest⟩ := operator?_eq_some hop
      exact outcome_operator h (by rw [List.append_assoc, ← hrest, ha]) hg hmem
    · exact outcome_produce h (by simp [ha]) hg (fun _ _ ↦ trivial) (by simp)

/-- The margin of a row that starts a logical line gives lexemes of the margin, or nothing and the
scan stays where it is. -/
theorem indentation_cases (hpast : s.past = w.past) (hfeed : s.feed = w.feed)
    (hidle : s.queued = []) (hawake : s.exhausted = false) (hframes : s.frames = [])
    (hcur : s.current = some ([], w.ahead)) (hbehind : w.behind = []) :
    (∃ s', s.indentation w.ahead = (none, s') ∧ s'.At w ∧ s'.current = s.current) ∨
      ∃ x s', s.indentation w.ahead = (some x, s') ∧ Outcome w (some x, s') := by
  have hspan := List.span_eq_takeWhile_dropWhile isGap w.ahead
  have hstop : s.position (w.ahead.takeWhile isGap) =
      ⟨w.past.length, Text.bytes (w.ahead.takeWhile isGap)⟩ := by
    simp [position, hpast]
  have hquoted : ∀ f ∈ s.frames, f.Quoted := by simp [hframes]
  unfold indentation
  rw [hspan]
  dsimp only
  set margin := w.ahead.takeWhile isGap
  split
  · exact .inl ⟨_, rfl, ⟨hpast, hfeed, hidle, hawake, rfl, hquoted⟩, rfl⟩
  split
  · refine .inr ⟨_, _, rfl, ?_⟩
    exact .margin hbehind ⟨hstop, .inl ⟨rfl, by simp [position, hpast], rfl⟩⟩ (by simp [hidle])
      hpast hcur hfeed hawake hframes rfl
  · -- all lexemes that close blocks stand behind the margin
    have hall : ∀ y ∈ (s.levels.takeWhile (marginWidth margin < ·)).map
          (fun _ ↦ s.mark .dedent margin) ++
        (if (s.levels.dropWhile (marginWidth margin < ·)).headD 0 = marginWidth margin then []
          else [{ s.mark .error margin with
            text := "unindent does not match any outer indentation level".toList }]),
        Marginal w.past w.ahead y ∧ y.tag ≠ .indent := by
      intro y hy
      rcases List.mem_append.1 hy with hy | hy
      · obtain ⟨_, -, rfl⟩ := List.mem_map.1 hy
        exact ⟨⟨hstop, .inr (.inl ⟨rfl, rfl, rfl⟩)⟩, by simp [mark]⟩
      · split at hy
        · exact absurd hy (by simp)
        · obtain rfl := List.mem_singleton.1 hy
          exact ⟨⟨hstop, .inr (.inr ⟨rfl, rfl, rfl⟩)⟩, by simp [mark]⟩
    split
    · exact .inl ⟨_, rfl, ⟨hpast, hfeed, hidle, hawake, rfl, hquoted⟩, rfl⟩
    · rename_i lexeme queued hlist
      refine .inr ⟨_, _, rfl, ?_⟩
      have hall' : ∀ y ∈ lexeme :: queued, Marginal w.past w.ahead y ∧ y.tag ≠ .indent := by
        rw [← hlist]
        exact hall
      exact .margin hbehind (hall' _ (by simp)).1 (fun y hy ↦ hall' y (by simp [hy])) hpast hcur
        hfeed hawake hframes rfl

/-- A lexeme that is due is produced first. -/
theorem step_of_queued {x : Lexeme} {queued : List Lexeme} (h : s.queued = x :: queued) :
    s.step = (some x, { s with queued }) := by
  simp [step, h]

/-- Where there is no row left, a step finishes the scan. -/
theorem step_eq_finish (hidle : s.queued = []) (hawake : s.exhausted = false) (hcur : s.load.current = none) :
    s.step = s.load.finish := by
  simp [step, hidle, hawake, hcur]

theorem step_ends (hidle : s.queued = []) (hawake : s.exhausted = false)
    (hcur : s.load.current = none) :
    ∃ x s', s.step = (some x, s') ∧ Ends x s' ∧ s'.past = s.past := by
  obtain ⟨-, -, hpast, hup⟩ := dry_of_load hcur
  rw [step_eq_finish hidle hawake hcur, ← hpast]
  exact ends_finish (by rw [load_queued, hidle]) hcur hup

/-- **One step of a scan** that has a row before it. -/
theorem step_outcome {b r : Text} (hformed : s.Formed) (hidle : s.queued = [])
    (hawake : s.exhausted = false) (hload : s.load.current = some (b, r)) :
    Outcome ⟨s.load.past, b, r, s.load.feed⟩ s.step := by
  set w : Spot := ⟨s.load.past, b, r, s.load.feed⟩ with hw
  have hidle' : s.load.queued = [] := by rw [load_queued, hidle]
  have hawake' : s.load.exhausted = false := by rw [load_exhausted, hawake]
  have hquoted : ∀ f ∈ s.load.frames, f.Quoted := by
    rw [load_frames]
    exact hformed.quoted
  unfold step
  rw [hidle, hawake]
  dsimp only
  rw [if_neg (by simp)]
  split
  · rename_i hnone
    rw [hload] at hnone
    exact absurd hnone (by simp)
  · -- inside a string with replacement fields
    rename_i before rest frame _ hcur hframes
    obtain ⟨rfl, rfl⟩ := Prod.mk.inj (Option.some.inj (hload.symm.trans hcur))
    have hbegun : s.load.atStart = false := by
      rw [load_atStart]
      by_contra hat
      have := (hformed.fresh (by simpa using hat)).2
      rw [load_frames, this] at hframes
      exact absurd hframes (by simp)
    have hat : s.load.At w := ⟨rfl, rfl, hidle', hawake', hbegun, hquoted⟩
    split
    · exact outcome_literal hat (by simp [hframes]) hload
    · exact outcome_plain hat hload
  · rename_i before rest hcur hframes
    obtain ⟨rfl, rfl⟩ := Prod.mk.inj (Option.some.inj (hload.symm.trans hcur))
    split
    · rename_i hat
      have hb : b = [] := by
        have hbehind := (hformed.fresh (by rw [← load_atStart]; exact hat)).1
        cases hc : s.current with
        | none => exact (load_of_none hc hload).1
        | some p =>
          obtain ⟨b', r'⟩ := p
          rw [load_of_some hc, hc] at hload
          obtain ⟨rfl, rfl⟩ := Prod.mk.inj (Option.some.inj hload)
          simpa [behind, hc] using hbehind
      subst hb
      rcases indentation_cases (w := w) (s := s.load) rfl rfl hidle' hawake' hframes hload rfl with
        ⟨s', hind, hat', hcur'⟩ | ⟨x, s', hind, hout⟩
      · rw [hind]
        exact outcome_plain hat' (by rw [hcur', hload])
      · rw [hind]
        exact hout
    · rename_i hat
      exact outcome_plain ⟨rfl, rfl, hidle', hawake', by simpa using hat, hquoted⟩ hload

end Scan

end HeaderHints
