import Mathlib.Logic.Function.Iterate
import HeaderHints.Proofs.Lossless
import HeaderHints.Proofs.ScanProgress

/-!
# Runs of a scan

The lexemes that a scan produces one after another are pieces of the rows that it has read: each of
them spells out what stands between its start and its stop (`Lexeme.Verbatim`), and none starts before
the last one stopped. This holds of every source (`Scan.next_verbatim`).

What stands between two lexemes is passed over. In a text in which each carriage return stands before a
line feed these are gaps and joined line ends (`Lexeme.ofText_spaced`). Another carriage return ends its
line for the scan and not for the source, and the rest of the row is lost.

`Between` is the invariant behind both: where the scan can stand when the last lexeme stopped at `p`.
-/

namespace HeaderHints

open Lexeme

/-! ### Places of lexemes -/

/-- A position between two characters of one of the rows, or behind the last row. -/
def Position.Within (rows : List Text) (p : Position) : Prop :=
  (∃ before after, rows[p.row]? = some (before ++ after) ∧ p.col = Text.bytes before) ∨
    p = ⟨rows.length, 0⟩

/-- A lexeme that spells out what stands in the rows between its start and its stop. The one that says of
a margin that it fits no block carries a message instead. -/
structure Lexeme.Verbatim (rows : List Text) (x : Lexeme) : Prop where
  ordered : x.stop.before x.start = false
  start : x.start.Within rows
  stop : x.stop.Within rows
  text : x.text = slice rows x.start x.stop ∨ x.Misfits

/-- What a scan may pass over: gaps, and backslashes with the line break that follows them. -/
inductive Text.Skippable : Text → Prop
  | nil : Skippable []
  | gap {c : Char} {t : Text} : isGap c = true → Skippable t → Skippable (c :: t)
  | joined {e t : Text} : e ∈ [['\n'], ['\r'], ['\r', '\n']] → Skippable t → Skippable ('\\' :: e ++ t)

/-- Nothing but gaps and joined line ends stands between two places. -/
def Adjoins (rows : List Text) (p q : Position) : Prop :=
  ∃ done skipped, Place rows p done ∧ Place rows q (done ++ skipped) ∧ skipped.Skippable

/-- Each of the lexemes adjoins the one before it, and the first of them adjoins `p`. This is asked of
lexemes that start in one of the rows. -/
def Spaced (rows : List Text) : Position → List Lexeme → Prop
  | _, [] => True
  | p, x :: xs => (x.start.row < rows.length → Adjoins rows p x.start) ∧ Spaced rows x.stop xs

namespace Text.Skippable

theorem append {t u : Text} (ht : Skippable t) (hu : Skippable u) : Skippable (t ++ u) := by
  induction ht with
  | nil => exact hu
  | gap hc _ ih => exact .gap hc ih
  | @joined e t he _ ih =>
    rw [List.append_assoc]
    exact .joined he ih

theorem of_gaps {t : Text} (h : ∀ c ∈ t, isGap c = true) : Skippable t := by
  induction t with
  | nil => exact .nil
  | cons c t ih => exact .gap (h c (by simp)) (ih fun e he ↦ h e (by simp [he]))

end Text.Skippable

theorem Adjoins.mono {rows rows' : List Text} {p q : Position} (h : Adjoins rows p q)
    (hrows : rows <+: rows') : Adjoins rows' p q := by
  obtain ⟨done, skipped, hp, hq, hskip⟩ := h
  exact ⟨done, skipped, hp.mono hrows, hq.mono hrows, hskip⟩

theorem Adjoins.skippable_slice {rows : List Text} {p q : Position} (h : Adjoins rows p q) :
    (slice rows p q).Skippable := by
  obtain ⟨done, skipped, hp, hq, hskip⟩ := h
  rwa [hp.slice_eq hq]

namespace Place

variable {rows : List Text} {p q : Position} {done m : Text}

theorem within (h : Place rows p done) : p.Within rows := by
  obtain ⟨past, b, r, more, rfl, rfl, -⟩ := h
  exact .inl ⟨b, r, by simp, rfl⟩

theorem row_lt (h : Place rows p done) : p.row < rows.length := by
  obtain ⟨past, b, r, more, rfl, rfl, -⟩ := h
  simp

/-- What stands after more text stands later. The same text ends one row and starts the next, so the
rows have to be compared. -/
theorem not_before (hp : Place rows p done) (hq : Place rows q (done ++ m)) (hrow : p.row ≤ q.row) :
    q.before p = false := by
  obtain ⟨past, b, r, more, hrows, rfl, rfl⟩ := hp
  obtain ⟨past', b', r', more', hrows', rfl, hdone⟩ := hq
  rcases Nat.lt_or_eq_of_le hrow with hlt | heq
  · have hlt' : past.length < past'.length := hlt
    simp [Position.before, hlt'.le.not_gt, hlt'.ne']
  · have hlen : past.length = past'.length := heq
    rw [hrows] at hrows'
    obtain ⟨rfl, -⟩ := List.append_inj hrows' hlen
    have hb : b' = b ++ m := by
      rw [List.append_assoc] at hdone
      exact (List.append_cancel_left hdone).symm
    simp [Position.before, hb]

end Place

namespace Scan

variable {source : Source} {first : Nat} {s s' : Scan} {p : Position}

/-! ### Where a scan stands between two lexemes -/

/-- The scan is in the midst of its source. It has seen the text up to the place `p` and has passed over
what follows it. Before the first row is read, that place is behind the last row. -/
structure Standing (source : Source) (first : Nat) (s : Scan) (p : Position) : Prop where
  formed : s.Formed
  idle : s.queued = []
  awake : s.exhausted = false
  supply : s.supply = source.drop first
  level : p.row ≤ s.past.length
  passed : ∃ done skipped, (Place s.rows p done ∨ (p = ⟨s.rows.length, 0⟩ ∧ done = s.rows.flatten)) ∧
    s.seen = done ++ skipped ∧ (source.Clean → skipped.Skippable)

/-- The scan behind the margin of the row at hand, with nothing due. -/
def passMargin (s : Scan) (row : Text) : Scan :=
  { s with queued := [], current := some (row.takeWhile isGap, row.dropWhile isGap) }

theorem rows_passMargin {row : Text} (hcur : s.current = some ([], row)) : (s.passMargin row).rows = s.rows := by
  simp [rows, passMargin, hcur, List.takeWhile_append_dropWhile]

/-- The scan has looked at the margin of the row at hand. The lexemes that are due stand behind the margin,
and the scan is about to pass over it. -/
structure Margined (source : Source) (first : Nat) (s : Scan) (p : Position) (row : Text) : Prop where
  current : s.current = some ([], row)
  begun : s.atStart = false
  frames : s.frames = []
  place : p = ⟨s.past.length, Text.bytes (row.takeWhile isGap)⟩
  queued : ∀ y ∈ s.queued, Marginal s.past row y ∧ y.tag ≠ .indent
  passed : Standing source first (s.passMargin row) p

/-- The rows are all that there is of the source. -/
def Whole (source : Source) (first : Nat) (rows : List Text) : Prop :=
  ∃ left : Source, left.Dry ∧ rows.map some ++ left = source.drop first

/-- Where a scan can stand when the last lexeme stopped at `p`. -/
inductive Between (source : Source) (first : Nat) (s : Scan) (p : Position) : Prop
  | standing : Standing source first s p → Between source first s p
  | margined {row : Text} : Margined source first s p row → Between source first s p
  | spent : s.Spent → p = ⟨s.past.length, 0⟩ → Whole source first s.past → Between source first s p

/-- The scan produces `x` and comes to `s` when the last lexeme stopped at `p`. -/
structure Follows (source : Source) (first : Nat) (p : Position) (x : Lexeme) (s : Scan) : Prop where
  between : Between source first s x.stop
  verbatim : x.Verbatim s.rows
  order : x.start.before p = false
  adjoins : source.Clean → Adjoins s.rows p x.start ∨
    x.start.row = s.rows.length ∧ Whole source first s.rows
  last : x.tag = .endMarker → Ends x s

theorem standing_start (source : Source) (first : Nat) :
    Standing source first (start source first) ⟨0, 0⟩ where
  formed := formed_start source first
  idle := rfl
  awake := rfl
  supply := by simp [Scan.supply, start, rows, Feed.start]
  level := Nat.le_refl _
  passed := ⟨[], [], .inr ⟨rfl, rfl⟩, rfl, fun _ ↦ .nil⟩

theorem Standing.load {b r : Text} (h : Standing source first s p)
    (hcur : s.load.current = some (b, r)) : Standing source first s.load p := by
  cases hc : s.current with
  | some q =>
    rw [load_of_some hc]
    exact h
  | none =>
    obtain ⟨rfl, hpast, hsupply, hrows, -⟩ := load_of_none hc hcur
    obtain ⟨done, skipped, hplace, hseen, hskip⟩ := h.passed
    have hseen' : s.load.seen = s.seen := by simp [seen, behind, hcur, hpast, hc]
    refine ⟨⟨fun hat ↦ ?_, ?_⟩, by rw [load_queued, h.idle], by rw [load_exhausted, h.awake],
      hsupply.trans h.supply, hpast ▸ h.level, done, skipped, .inl ?_, hseen'.trans hseen, hskip⟩
    · rw [load_atStart] at hat
      rw [load_frames]
      exact ⟨by simp [behind, hcur], (h.formed.fresh hat).2⟩
    · rw [load_frames]
      exact h.formed.quoted
    · rw [hrows]
      rcases hplace with hplace | ⟨rfl, rfl⟩
      · exact hplace.append _
      · exact ⟨s.rows, [], r, [], by simp, rfl, by simp⟩

/-- With a row at hand, the last lexeme stopped in one of the rows. -/
theorem Standing.exists_place {b r : Text} (h : Standing source first s p)
    (hcur : s.current = some (b, r)) :
    ∃ done skipped, Place s.rows p done ∧ s.seen = done ++ skipped ∧
      (source.Clean → skipped.Skippable) := by
  obtain ⟨done, skipped, hplace | ⟨rfl, -⟩, hrest⟩ := h.passed
  · exact ⟨done, skipped, hplace, hrest⟩
  · have hlevel : s.rows.length ≤ s.past.length := h.level
    simp only [rows, hcur, Option.map_some, Option.toList_some, List.length_append,
      List.length_singleton] at hlevel
    omega

/-! ### Lexemes -/

/-- A lexeme of the rows: `m` is passed over before it, and `t` is what stands between its start and its stop. -/
theorem Between.follows {x : Lexeme} {done m t : Text} (h : Between source first s x.stop)
    (hp : Place s.rows p done) (hstart : Place s.rows x.start (done ++ m))
    (hstop : Place s.rows x.stop (done ++ m ++ t)) (hfront : p.row ≤ x.start.row)
    (hback : x.start.row ≤ x.stop.row) (htext : x.text = t ∨ x.Misfits)
    (hskip : source.Clean → m.Skippable) (htag : x.tag ≠ .endMarker) : Follows source first p x s where
  between := h
  verbatim := ⟨hstart.not_before hstop hback, hstart.within, hstop.within,
    htext.imp_left fun heq ↦ heq.trans (hstart.slice_eq hstop).symm⟩
  order := hp.not_before hstart hfront
  adjoins hs := .inl ⟨done, m, hp, hstart, hskip hs⟩
  last hend := absurd hend htag

/-- At its end the scan produces lexemes behind the last row. -/
theorem Ends.follows {x : Lexeme} (h : Ends x s') (hwhole : Whole source first s'.past)
    (hp : p.row < s'.past.length ∨ p = ⟨s'.past.length, 0⟩) : Follows source first p x s' := by
  have hrows : s'.rows = s'.past := by simp [rows, h.spent.current]
  obtain ⟨htext, hstart, hstop⟩ :
      x.text = [] ∧ x.start = ⟨s'.past.length, 0⟩ ∧ x.stop = ⟨s'.past.length, 0⟩ := by
    obtain rfl | ⟨rfl, -⟩ := h.lexeme <;> exact ⟨rfl, rfl, rfl⟩
  refine ⟨.spent h.spent hstop hwhole, ?_, ?_, fun _ ↦ .inr ⟨?_, hrows ▸ hwhole⟩, fun _ ↦ h⟩
  · have hwithin : Position.Within s'.rows ⟨s'.past.length, 0⟩ := .inr (by rw [hrows])
    refine ⟨?_, hstart ▸ hwithin, hstop ▸ hwithin, .inl ?_⟩
    · simp [hstart, hstop, Position.before]
    · simp [htext, hstart, hstop, slice, Position.before]
  · rw [hstart]
    rcases hp with hp | rfl
    · simp [Position.before, hp.le.not_gt, hp.ne']
    · simp [Position.before]
  · rw [hstart, hrows]

/-- In a clean source the scan passes over gaps and joined line ends only. -/
theorem skippable_of_quiet (hs : source.Clean) {b u r : Text} (hsupply : s.supply = source.drop first)
    (hcur : s.current = some (b, u ++ r)) (hu : ∀ c ∈ u, isGap c = true)
    (hr : r = [] ∨ ∃ c t, r = '\\' :: c :: t ∧ isBreak c = true) : (u ++ r).Skippable := by
  refine (Text.Skippable.of_gaps hu).append ?_
  rcases hr with rfl | ⟨c, t, rfl, hc⟩
  · exact .nil
  · have hrow : s.rows = s.past ++ (b ++ (u ++ '\\' :: c :: t)) :: [] := by simp [rows, hcur]
    obtain ⟨pre, hpre⟩ := Header.exists_split_of_supply hsupply hrow
    simp only [isBreak, Bool.or_eq_true, decide_eq_true_eq] at hc
    rcases hc with rfl | rfl
    · obtain ⟨v, rfl⟩ : ∃ v, t = '\n' :: v := by
        refine List.head?_eq_some_iff.1 (hs.paired (t := b ++ (u ++ ['\\'])) (u := t) ?_ rfl)
        simp [hpre]
      obtain rfl : v = [] := (hs.lined hpre).1 (t := b ++ (u ++ ['\\', '\r'])) (by simp)
      exact .joined (e := ['\r', '\n']) (by simp) .nil
    · obtain rfl : t = [] := (hs.lined hpre).1 (t := b ++ (u ++ ['\\'])) (by simp)
      exact .joined (e := ['\n']) (by simp) .nil

/-- A step without a lexeme leaves a row. -/
theorem Standing.quiet {b u r : Text} (h : Standing source first s p)
    (hcur : s.current = some (b, u ++ r)) (hu : ∀ c ∈ u, isGap c = true)
    (hr : r = [] ∨ ∃ c t, r = '\\' :: c :: t ∧ isBreak c = true)
    (hpast : s'.past = s.past ++ [b ++ (u ++ r)]) (hcur' : s'.current = none)
    (hfeed : s'.feed = s.feed) (hidle : s'.queued = []) (hawake : s'.exhausted = false)
    (hformed : s'.Formed) : Standing source first s' p := by
  have hrows : s'.rows = s.rows := by simp [rows, hpast, hcur, hcur']
  obtain ⟨done, skipped, hplace, hseen, hskip⟩ := h.exists_place hcur
  refine ⟨hformed, hidle, hawake, ?_, ?_, done, skipped ++ (u ++ r), .inl (hrows ▸ hplace), ?_, fun hs ↦ ?_⟩
  · rw [Scan.supply, hrows, hfeed]
    exact h.supply
  · rw [hpast, List.length_append]
    exact h.level.trans (Nat.le_add_right _ _)
  · rw [← List.append_assoc, ← hseen]
    simp [seen, behind, hpast, hcur, hcur']
  · exact (hskip hs).append (skippable_of_quiet hs h.supply hcur hu hr)

/-- A lexeme that is taken. -/
theorem Standing.advance {b r gap drop : Text} {x : Lexeme} (h : Standing source first s p)
    (hcur : s.current = some (b, r)) (hadv : Advance ⟨s.past, b, r, s.feed⟩ gap x drop s')
    (htag : x.tag ≠ .endMarker) : Follows source first p x s' := by
  obtain ⟨done, skipped, hplace, hseen, hskip⟩ := h.exists_place hcur
  have hrows : s.rows = (Spot.mk s.past b r s.feed).rows := by simp [rows, Spot.rows, hcur]
  have hspot : (Spot.mk s.past b r s.feed).seen = done ++ skipped := by
    rw [← hseen]
    simp [seen, behind, Spot.seen, hcur]
  obtain ⟨rest, hrest⟩ := hadv.ahead
  have hstart := (Spot.place_of_ahead hrest).mono hadv.grows
  rw [← hadv.start_eq, hspot, List.append_assoc] at hstart
  have hp : Place s'.rows p done := hplace.mono (hrows ▸ hadv.grows)
  have hstop := hadv.stop
  rw [hspot, List.append_assoc done] at hstop
  have hstart_row : x.start.row = s.past.length := by rw [hadv.start_eq]
  -- the lexeme stops in the last row that has been read, or in the row that is left
  have hstop_row : s.past.length ≤ x.stop.row ∧ x.stop.row ≤ s'.past.length := by
    rcases hadv.lands with ⟨b', r', hcur', hstop, -⟩ | ⟨b', hcur', hpast, hstop, -⟩
    · have hlen := hadv.grows.length_le
      simp only [Spot.rows, rows, hcur', Option.map_some, Option.toList_some, List.length_append,
        List.length_singleton] at hlen
      rw [hstop]
      exact ⟨Nat.le_of_add_le_add_right hlen, Nat.le_refl _⟩
    · rw [hstop, hpast]
      simp
  refine Between.follows (.standing ?_) hp hstart hstop (hstart_row ▸ h.level) (hstart_row ▸ hstop_row.1)
    (.inl rfl) (fun hs ↦ (hskip hs).append (.of_gaps hadv.gaps)) htag
  have hsupply : s'.supply = source.drop first := by
    rw [hadv.supply, ← h.supply, Spot.supply, ← hrows, Scan.supply]
  refine ⟨hadv.formed, hadv.idle, hadv.awake, hsupply, hstop_row.2, _, drop, .inl hstop, ?_, fun hs ↦ ?_⟩
  · rw [hadv.seen, hspot, List.append_assoc done]
  · rcases hadv.lands with ⟨_, _, -, -, rfl, -, -⟩ | ⟨_, hcur', -, -, -⟩
    · exact .nil
    · obtain ⟨-, -, pre, hpre⟩ := Header.exists_split_of_advance h.supply hcur hadv hcur'
      rw [Header.drop_eq_nil hs hpre hadv.cut]
      exact .nil

/-- Lexemes of the margin. -/
theorem Standing.margin {row : Text} {x : Lexeme} (h : Standing source first s p)
    (hcur : s.current = some ([], row)) (hx : Marginal s.past row x)
    (hqueue : ∀ y ∈ s'.queued, Marginal s.past row y ∧ y.tag ≠ .indent) (hpast : s'.past = s.past)
    (hcur' : s'.current = some ([], row)) (hfeed : s'.feed = s.feed) (hawake : s'.exhausted = false)
    (hframes : s'.frames = []) (hbegun : s'.atStart = false) : Follows source first p x s' := by
  obtain ⟨done, skipped, hplace, hseen, hskip⟩ := h.exists_place hcur
  set margin := row.takeWhile isGap with hmargin
  have hrow : margin ++ row.dropWhile isGap = row := List.takeWhile_append_dropWhile
  have hgaps : ∀ c ∈ margin, isGap c = true := fun c hc ↦ List.mem_takeWhile_imp hc
  have hrows : s'.rows = s.rows := by rw [rows, rows, hpast, hcur, hcur']
  have hpast' : s.past.flatten = done ++ skipped := by
    rw [← hseen]
    simp [seen, behind, hcur]
  have hp : Place s'.rows p done := hrows ▸ hplace
  have hfront : Place s'.rows ⟨s.past.length, 0⟩ (done ++ skipped) :=
    ⟨s.past, [], row, [], by simp [rows, hpast, hcur'], rfl, by simp [hpast']⟩
  have hback : Place s'.rows ⟨s.past.length, Text.bytes margin⟩ (done ++ (skipped ++ margin)) :=
    ⟨s.past, margin, row.dropWhile isGap, [], by simp [rows, hpast, hcur', hrow], rfl,
      by simp [hpast']⟩
  have hbetween : Between source first s' x.stop := by
    refine .margined ⟨hcur', hbegun, hframes, by rw [hx.1, hpast], hpast ▸ hqueue, ?_⟩
    have hrows' : (s'.passMargin row).rows = s'.rows := by rw [rows_passMargin hcur']
    refine ⟨formed_of_begun hbegun (by simp [passMargin, hframes]), rfl, hawake, ?_, ?_,
      done ++ (skipped ++ margin), [], .inl ?_, ?_, fun _ ↦ .nil⟩
    · rw [Scan.supply, hrows', hrows, ← h.supply, Scan.supply]
      simp [passMargin, hfeed]
    · simp [hx.1, passMargin, hpast]
    · rw [hx.1, hrows']
      exact hback
    · simp [seen, behind, passMargin, hpast, hpast', ← hmargin]
  rw [← hx.1] at hback
  by_cases htag : x.tag = .indent
  · -- the margin itself
    obtain ⟨-, hstart, htext⟩ : x.tag = .indent ∧ x.start = ⟨s.past.length, 0⟩ ∧ x.text = margin := by
      simpa [htag, Misfits] using hx.2
    rw [← List.append_assoc] at hback
    rw [← hstart] at hfront
    refine hbetween.follows hp hfront hback ?_ ?_ (.inl htext) hskip (by simp [htag])
    · rw [hstart]
      exact h.level
    · rw [hstart, hx.1]
  · -- a lexeme behind it
    obtain ⟨hstart, htext⟩ := hx.behind htag
    refine hbetween.follows hp (hstart ▸ hback) (by rwa [List.append_nil]) ?_
      (Nat.le_of_eq (by rw [hstart])) htext (fun hs ↦ (hskip hs).append (.of_gaps hgaps)) hx.tag_ne
    rw [hstart, hx.1]
    exact h.level

/-! ### Steps -/

theorem Standing.step (h : Standing source first s p) :
    (∃ s', s.step = (none, s') ∧ Between source first s' p) ∨
      ∃ x s', s.step = (some x, s') ∧ Follows source first p x s' := by
  cases hcur : s.load.current with
  | none =>
    obtain ⟨hnone, hdry, -⟩ := dry_of_load hcur
    obtain ⟨x, s', hstep, hends, hpast⟩ := step_ends h.idle h.awake hcur
    have hrows : s.rows = s.past := by simp [rows, hnone]
    refine .inr ⟨x, s', hstep, hends.follows ⟨s.feed.upcoming, hdry, ?_⟩ ?_⟩
    · rw [hpast, ← hrows]
      exact h.supply
    · rw [hpast, ← hrows]
      obtain ⟨done, skipped, hplace | ⟨rfl, -⟩, -⟩ := h.passed
      · exact .inl hplace.row_lt
      · exact .inr rfl
  | some q =>
    obtain ⟨b, r⟩ := q
    have hload := h.load hcur
    have hout := step_outcome h.formed h.idle h.awake hcur
    generalize hstep : s.step = result at hout
    cases hout with
    | @quiet s' u r' ha hu hr hpast hcur' hfeed hidle hawake hformed =>
      obtain rfl : r = u ++ r' := ha
      exact .inl ⟨s', rfl, .standing (hload.quiet hcur hu hr hpast hcur' hfeed hidle hawake hformed)⟩
    | advance hadv _ _ _ htag => exact .inr ⟨_, _, rfl, hload.advance hcur hadv htag⟩
    | margin hb hx hqueue hpast hcur' hfeed hawake hframes hbegun =>
      obtain rfl : b = [] := hb
      exact .inr ⟨_, _, rfl, hload.margin hcur hx hqueue hpast hcur' hfeed hawake hframes hbegun⟩
    | @spent x s' left hends hgrows hdry hsupply =>
      obtain ⟨done, skipped, hplace, -⟩ := hload.exists_place hcur
      have hrows : s.load.rows = (Spot.mk s.load.past b r s.load.feed).rows := by
        simp [rows, Spot.rows, hcur]
      refine .inr ⟨_, _, rfl, hends.follows ⟨left, hdry, ?_⟩ (.inl ?_)⟩
      · rw [hsupply, Spot.supply, ← hrows]
        exact hload.supply
      · exact (hplace.mono (hrows ▸ hgrows)).row_lt

/-- Outside literal text it makes no difference whether a margin has been passed over. -/
theorem plain_passMargin {row : Text} (hcur : s.current = some ([], row)) (hidle : s.queued = []) :
    s.plain [] row = (s.passMargin row).plain (row.takeWhile isGap) (row.dropWhile isGap) := by
  have hleave : (s.passMargin row).leaveRow = s.leaveRow := by
    rw [leaveRow, leaveRow, rows_passMargin hcur]
    simp [passMargin, hidle]
  have hgap : (row.dropWhile isGap).span isGap = ([], row.dropWhile isGap) := by
    rw [List.span_eq_takeWhile_dropWhile]
    cases hrow : row.dropWhile isGap with
    | nil => rfl
    | cons c t =>
      have hc := List.head_dropWhile_not isGap (l := row) (by simp [hrow])
      simp only [hrow, List.head_cons] at hc
      simp [hc]
  unfold plain
  rw [hgap, List.span_eq_takeWhile_dropWhile]
  simp only [List.nil_append, List.append_nil, hleave]
  unfold passMargin
  rw [← hidle]
  rfl

theorem Margined.step {row : Text} (h : Margined source first s p row) :
    (∃ s', s.step = (none, s') ∧ Between source first s' p) ∨
      ∃ x s', s.step = (some x, s') ∧ Follows source first p x s' := by
  cases hq : s.queued with
  | cons y queued =>
    obtain ⟨hy, htag⟩ := h.queued y (by simp [hq])
    obtain ⟨hstart, htext⟩ := hy.behind htag
    have hstop : y.stop = p := hy.1.trans h.place.symm
    obtain ⟨done, -, hplace, -⟩ := h.passed.exists_place rfl
    rw [rows_passMargin h.current] at hplace
    have hbetween : Between source first { s with queued } y.stop := by
      refine .margined ⟨h.current, h.begun, h.frames, hy.1, ?_, hstop ▸ h.passed⟩
      exact fun z hz ↦ h.queued z (by simp [hq, hz])
    refine .inr ⟨y, _, step_of_queued hq, ?_⟩
    have hplace' : Place s.rows p (done ++ []) := by rwa [List.append_nil]
    refine hbetween.follows hplace (by rwa [hstart, hstop]) (t := []) ?_ (by rw [hstart, hstop])
      (by rw [hstart]) htext (fun _ ↦ .nil) hy.tag_ne
    rwa [hstop, List.append_nil]
  | nil =>
    have hawake : s.exhausted = false := h.passed.awake
    have hstep : s.step = (s.passMargin row).step := by
      have hcur : (s.passMargin row).current = some (row.takeWhile isGap, row.dropWhile isGap) := rfl
      have hidle : (s.passMargin row).queued = [] := rfl
      have hawake' : (s.passMargin row).exhausted = false := hawake
      have hframes : (s.passMargin row).frames = [] := h.frames
      have hbegun : (s.passMargin row).atStart = false := h.begun
      unfold Scan.step
      simp only [hq, hidle, hawake, hawake', load_of_some h.current, load_of_some hcur, h.current, hcur,
        h.frames, hframes, h.begun, hbegun, Bool.false_eq_true, if_false]
      exact plain_passMargin h.current hq
    rw [hstep]
    exact h.passed.step

/-- **One step between two lexemes.** -/
theorem Between.step (h : Between source first s p) :
    (∃ s', s.step = (none, s') ∧ Between source first s' p) ∨
      ∃ x s', s.step = (some x, s') ∧ Follows source first p x s' := by
  cases h with
  | standing h => exact h.step
  | margined h => exact h.step
  | spent h hp hwhole =>
    obtain ⟨x, s', hstep, hends, hpast, -⟩ := h.step
    exact .inr ⟨x, s', hstep, hends.follows (hpast ▸ hwhole) (.inr (by rw [hp, hpast]))⟩

/-! ### Runs -/

theorem Between.nextWithin (n : Nat) : ∀ {s : Scan}, Between source first s p → s.rowsLeft < n →
    Follows source first p (Scan.nextWithin n s).1 (Scan.nextWithin n s).2 := by
  induction n with
  | zero => exact fun _ h ↦ absurd h (Nat.not_lt_zero _)
  | succ n ih =>
    intro s h hleft
    have hprogress := step_progress s
    rw [Scan.nextWithin]
    rcases h.step with ⟨s', hstep, hbetween⟩ | ⟨x, s', hstep, hfollows⟩
    · rw [hstep] at hprogress ⊢
      have hless : s'.rowsLeft < s.rowsLeft := hprogress.quiet rfl
      exact ih hbetween (by omega)
    · rw [hstep]
      exact hfollows

theorem rowsLeft_lt (s : Scan) : s.rowsLeft < s.feed.upcoming.length + 3 := by
  have hcur : s.current.toList.length ≤ 1 := by cases s.current <;> simp
  rw [rowsLeft]
  omega

/-- **One lexeme after another.** -/
theorem Between.next (h : Between source first s p) : Follows source first p s.next.1 s.next.2 :=
  h.nextWithin _ s.rowsLeft_lt

/-- The scan after `n` lexemes. -/
def after (n : Nat) (s : Scan) : Scan :=
  (fun s ↦ s.next.2)^[n] s

theorem exists_between_after (source : Source) (first n : Nat) :
    ∃ p, Between source first ((start source first).after n) p := by
  induction n with
  | zero => exact ⟨_, .standing (standing_start source first)⟩
  | succ n ih =>
    obtain ⟨p, hp⟩ := ih
    rw [after, Function.iterate_succ_apply']
    exact ⟨_, hp.next.between⟩

theorem Between.rows_prefix (h : Between source first s p) : s.rows.map some <+: source.drop first := by
  cases h with
  | standing h => exact ⟨_, h.supply⟩
  | @margined row h =>
    have hsupply := h.passed.supply
    rw [Scan.supply, rows_passMargin h.current] at hsupply
    exact ⟨_, hsupply⟩
  | spent h _ hwhole =>
    obtain ⟨left, -, hleft⟩ := hwhole
    have hrows : s.rows = s.past := by simp [rows, h.current]
    exact ⟨left, hrows ▸ hleft⟩

/-- **Lexemes are ordered pieces of the source.** Each lexeme of a scan spells out what stands between its
start and its stop in the rows that have been read, which are rows of the source, and the next lexeme does
not start before it stopped. -/
theorem next_verbatim (source : Source) (first n : Nat) :
    let s := (start source first).after n
    s.next.2.rows.map some <+: source.drop first ∧ s.next.1.Verbatim s.next.2.rows ∧
      s.next.2.next.1.start.before s.next.1.stop = false := by
  obtain ⟨p, hp⟩ := exists_between_after source first n
  exact ⟨hp.next.between.rows_prefix, hp.next.verbatim, hp.next.between.next.order⟩

/-! ### Whole texts -/

/-- It makes no difference whether the end marker has been produced. -/
theorem Between.mark (h : Between source first s p) (ended : Bool) :
    Between source first { s with ended } p := by
  cases h with
  | standing h => exact .standing ⟨⟨h.formed.fresh, h.formed.quoted⟩, h.idle, h.awake, h.supply, h.level, h.passed⟩
  | margined h =>
    have hp := h.passed
    exact .margined ⟨h.current, h.begun, h.frames, h.place, h.queued,
      ⟨⟨hp.formed.fresh, hp.formed.quoted⟩, hp.idle, hp.awake, hp.supply, hp.level, hp.passed⟩⟩
  | spent h hp hwhole => exact .spent ⟨h.exhausted, h.current, h.upcoming, h.queued⟩ hp hwhole

variable {t : Text}

/-- The rows that are all that there is of a text are its rows. -/
theorem Whole.eq_ofText {rows : List Text} (h : Whole (Document.ofText t).source 0 rows) :
    rows = Document.ofText t := by
  obtain ⟨left, hdry, hleft⟩ := h
  obtain ⟨more, hdoc, rfl⟩ := Document.exists_append_of_source hleft
  cases more with
  | nil => rw [hdoc, List.append_nil]
  | cons row more =>
    have hmem : row ∈ Text.rows t := by
      rw [← Document.ofText, hdoc]
      simp
    obtain ⟨c, u, rfl⟩ := List.exists_cons_of_ne_nil (Text.ne_nil_of_mem_rows hmem)
    exact absurd rfl (hdry c u _)

theorem restWithin_succ (n : Nat) (h : s.ended = false) :
    (restWithin (n + 1) s).1 =
      s.next.1 :: (restWithin n { s.next.2 with ended := s.next.1.tag = .endMarker }).1 := by
  rw [restWithin, next?, if_neg (by simp [h])]

theorem restWithin_of_ended (n : Nat) (h : s.ended = true) : (restWithin n s).1 = [] := by
  cases n with
  | zero => rfl
  | succ n => rw [restWithin, next?, if_pos h]

theorem restWithin_spaced (hs : (Document.ofText t).source.Clean) (n : Nat) :
    ∀ {s : Scan} {p : Position}, Between (Document.ofText t).source 0 s p →
      Spaced (Document.ofText t) p (restWithin n s).1 := by
  induction n with
  | zero => exact fun _ ↦ trivial
  | succ n ih =>
    intro s p h
    cases hended : s.ended with
    | true =>
      rw [restWithin_of_ended _ hended]
      trivial
    | false =>
      have hnext := h.next
      rw [restWithin_succ n hended]
      refine ⟨fun hrow ↦ ?_, ih (hnext.between.mark _)⟩
      rcases hnext.adjoins hs with hadjoins | ⟨hbehind, hwhole⟩
      · obtain ⟨left, hleft⟩ := hnext.between.rows_prefix
        obtain ⟨more, hdoc, -⟩ := Document.exists_append_of_source hleft
        exact hadjoins.mono ⟨more, hdoc.symm⟩
      · rw [hbehind, hwhole.eq_ofText] at hrow
        exact absurd hrow (Nat.lt_irrefl _)

end Scan

/-- Whether carriage returns stand before line feeds can be told place by place. -/
theorem Text.head?_of_getElem? {t : Text} (h : ∀ n < t.length, t[n]? = some '\r' → t[n + 1]? = some '\n')
    {u v : Text} (ht : t = u ++ '\r' :: v) : v.head? = some '\n' := by
  have hv := h u.length (by rw [ht]; simp) (by rw [ht]; simp)
  rw [ht, List.getElem?_append_right (Nat.le_succ _)] at hv
  simpa [List.head?_eq_getElem?] using hv

namespace Lexeme

/-- **A scan passes over nothing but gaps and joined line ends**, in a text in which each carriage return
stands before a line feed. -/
theorem ofText_spaced {t : Text} (ht : ∀ {u v : Text}, t = u ++ '\r' :: v → v.head? = some '\n') :
    Spaced (Document.ofText t) ⟨0, 0⟩ (ofText t) :=
  Scan.restWithin_spaced (Document.source_clean ht) _ (.standing (Scan.standing_start _ 0))

/-- A joined line end, a line break of two characters and a block. -/
theorem ofText_spaced_block :
    (ofText "if a: \\\r\n\tb\r\n  c\n".toList).map Lexeme.text =
      ["if".toList, ['a'], [':'], ['b'], ['\r', '\n'], [' ', ' '], ['c'], ['\n'], [], []] ∧
    Spaced (Document.ofText "if a: \\\r\n\tb\r\n  c\n".toList) ⟨0, 0⟩
      (ofText "if a: \\\r\n\tb\r\n  c\n".toList) := by
  refine ⟨by rfl, ofText_spaced ?_⟩
  exact Text.head?_of_getElem? (t := "if a: \\\r\n\tb\r\n  c\n".toList) (by decide)

/-- A carriage return that stands alone ends its line for the scan. The rest of the row is passed over. -/
theorem ofText_not_spaced : ofText "a\rb\nc\n".toList =
      [⟨.name, ['a'], ⟨0, 0⟩, ⟨0, 1⟩⟩, ⟨.newline, ['\r'], ⟨0, 1⟩, ⟨0, 2⟩⟩, ⟨.name, ['c'], ⟨1, 0⟩, ⟨1, 1⟩⟩,
        ⟨.newline, ['\n'], ⟨1, 1⟩, ⟨1, 2⟩⟩, ⟨.endMarker, [], ⟨2, 0⟩, ⟨2, 0⟩⟩] ∧
    ¬ Spaced (Document.ofText "a\rb\nc\n".toList) ⟨0, 0⟩ (ofText "a\rb\nc\n".toList) := by
  have hlexemes : ofText "a\rb\nc\n".toList =
      [⟨.name, ['a'], ⟨0, 0⟩, ⟨0, 1⟩⟩, ⟨.newline, ['\r'], ⟨0, 1⟩, ⟨0, 2⟩⟩, ⟨.name, ['c'], ⟨1, 0⟩, ⟨1, 1⟩⟩,
        ⟨.newline, ['\n'], ⟨1, 1⟩, ⟨1, 2⟩⟩, ⟨.endMarker, [], ⟨2, 0⟩, ⟨2, 0⟩⟩] := by rfl
  refine ⟨hlexemes, ?_⟩
  rw [hlexemes]
  rintro ⟨-, -, hspaced, -⟩
  have hslice : slice (Document.ofText "a\rb\nc\n".toList) ⟨0, 2⟩ ⟨1, 0⟩ = ['b', '\n'] := by rfl
  have hskip := (hspaced (by decide)).skippable_slice
  rw [hslice] at hskip
  cases hskip with
  | gap hgap _ => exact absurd hgap (by decide)

end Lexeme

end HeaderHints
