import HeaderHints.Proofs.DraftSteps
import HeaderHints.Proofs.ReadingRun

/-!
# Layout between lexemes

A draft remembers where its last lexeme ended, and writes what lies between that place and the next
lexeme as layout. So what it writes there depends on where the scan stands. `Tracked` relates the
two: between lexemes the scan has not got past the place that the draft remembers, except over gaps
and ends of rows.

What a scan leaves behind at the end of a row is the rest of a joined line, or what follows a line
break that does not end the row. Both are of little interest to a header. How little is a parameter
`Q` here: `Remains` asks it of what follows a line break, `Leaves` of what one step leaves behind, and
`Residual` of both in the whole source. All layout is of that kind (`Tracked.prepared`).

Where a source hands out whole lines (`Source.Lined`), layout cannot be mistaken for punctuation, and
so the tokens of every header that is read stand in their places (`finished_of_read`).
-/

namespace HeaderHints

/-- What a source promises of its lines: each of them is a whole one, with its line feed. So a line feed ends
its line, and each line that another one follows ends in a line feed. -/
def Source.Lined (source : Source) : Prop :=
  ∀ {pre : Source} {row : Text} {post : Source}, source = pre ++ some row :: post →
    (∀ {t u : Text}, row = t ++ '\n' :: u → u = []) ∧
      ∀ {c : Char} {t : Text} {more : Source}, post = some (c :: t) :: more →
        row.getLast? = some '\n'

namespace Header

open Lexeme Scan

/-- What a scan leaves behind at the end of a row, joined lines apart, has the property `Q`. -/
structure Remains (Q : Text → Prop) (source : Source) : Prop where
  gap : ∀ {t : Text}, (∀ c ∈ t, isGap c = true) → Q t
  dropped : ∀ {pre post : Source} {b text drop : Text},
    source = pre ++ some (b ++ text ++ drop) :: post → Cut text drop → Q drop ∨ post.Dry

/-- All that a scan leaves behind at the end of a row has the property `Q`. -/
structure Residual (Q : Text → Prop) (source : Source) : Prop extends Remains Q source where
  joined : ∀ {pre post : Source} {b u t : Text} {c : Char},
    source = pre ++ some (b ++ (u ++ '\\' :: c :: t)) :: post → (∀ c ∈ u, isGap c = true) →
    isBreak c = true → Q (u ++ '\\' :: c :: t)

/-- Where the scan is about to leave its row and produces nothing, what it leaves there has the property
`Q`, unless a string with replacement fields is read. -/
def Leaves (Q : Text → Prop) (s : Scan) (d : Draft) : Prop :=
  (∀ p nesting, d.mode ≠ .fstring p nesting) → ∀ {b u v r : Text},
    s.current = some (b, u ++ v ++ r) → (∀ c ∈ u ++ v, isGap c = true) →
    (r = [] ∨ ∃ c t, r = '\\' :: c :: t ∧ isBreak c = true) → Q (v ++ r)

/-- The scan has not got past `p`, except over gaps and the end of its row. -/
def Held (Q : Text → Prop) (s : Scan) (p : Position) : Prop :=
  (∃ b u r, s.current = some (b, u ++ r) ∧ (∀ c ∈ u, isGap c = true) ∧
    p = ⟨s.past.length, Text.bytes (b ++ u)⟩) ∨
  (s.behind = [] ∧ ∃ past b r more, s.past = past ++ (b ++ r) :: more ∧
    p = ⟨past.length, Text.bytes b⟩ ∧ (Q r ∨ (s.current = none ∧ s.feed.upcoming.Dry)))

/-- Where the scan stands between two lexemes, as far as the draft has to know it. -/
def Tracked (Q : Text → Prop) (s : Scan) (d : Draft) : Prop :=
  match d.mode with
  | .plain => (s.behind = [] ∧ (d.reached = none ∨ d.broken = true)) ∨
      ∃ p, d.reached = some p ∧ d.begunRow = some p.row ∧ Held Q s p
  | .lambda _ stop _ _ => Held Q s stop
  | .fstring p _ => ∃ done c w, Place s.rows p done ∧ s.seen = done ++ c :: w ∧ c ∉ reserved
  | .complete => True

variable {source : Source} {first : Nat} {Q : Text → Prop} {s s' : Scan} {d d' : Draft}

/-! ### Places that are held -/

/-- The rows of a scan are rows of its source. -/
theorem exists_split_of_supply {past more : List Text} {row : Text}
    (hsupply : s.supply = source.drop first) (hrows : s.rows = past ++ row :: more) :
    ∃ pre, source = pre ++ some row :: (more.map some ++ s.feed.upcoming) := by
  refine ⟨source.take first ++ past.map some, ?_⟩
  have hdrop : source.drop first = past.map some ++ some row :: (more.map some ++ s.feed.upcoming) := by
    rw [← hsupply, supply, hrows]
    simp
  rw [List.append_assoc, ← hdrop, List.take_append_drop]

theorem Held.load {p : Position} {r : Text} (h : Held Q s p) (hcur : s.current = none)
    (hload : s.load.current = some ([], r)) (hpast : s.load.past = s.past)
    (hup : s.feed.upcoming = some r :: s.load.feed.upcoming) (hne : r ≠ []) : Held Q s.load p := by
  rcases h with ⟨b, u, r', hsome, -, -⟩ | ⟨-, past, b, r', more, hs, hp, hq⟩
  · rw [hcur] at hsome
    exact absurd hsome (by simp)
  · refine .inr ⟨by simp [behind, hload], past, b, r', more, hpast.trans hs, hp, .inl ?_⟩
    rcases hq with hq | ⟨-, hdry⟩
    · exact hq
    · obtain ⟨c, t, rfl⟩ := List.exists_cons_of_ne_nil hne
      exact absurd hup (hdry c t _)

/-- Gaps at the front of a text that starts with other gaps. -/
theorem gaps_split {u r v t : Text} (h : u ++ r = v ++ t) (hu : ∀ c ∈ u, isGap c = true)
    (ht : ∀ c ∈ t.head?, isGap c = false) : ∃ v', v = u ++ v' ∧ r = v' ++ t := by
  rcases List.append_eq_append_iff.1 h with ⟨v', rfl, rfl⟩ | ⟨u', rfl, rfl⟩
  · exact ⟨v', rfl, rfl⟩
  · cases u' with
    | nil => exact ⟨[], by simp, by simp⟩
    | cons c u' =>
      have h₁ := hu c (by simp)
      rw [ht c (by simp)] at h₁
      exact absurd h₁ (by simp)

theorem Residual.leaves (hres : Residual Q source) (hsupply : s.supply = source.drop first) :
    Leaves Q s d := by
  intro _ b u v r hcur hgap hr
  have hv : ∀ c ∈ v, isGap c = true := fun c hc ↦ hgap c (List.mem_append_right _ hc)
  rcases hr with rfl | ⟨c, t, rfl, hc⟩
  · rw [List.append_nil]
    exact hres.gap hv
  · have hrows : s.rows = s.past ++ (b ++ (u ++ v ++ '\\' :: c :: t)) :: [] := by simp [rows, hcur]
    obtain ⟨pre, hpre⟩ := exists_split_of_supply hsupply hrows
    have hsource : source = pre ++ some ((b ++ u) ++ (v ++ '\\' :: c :: t)) :: s.feed.upcoming := by
      simpa using hpre
    exact hres.joined hsource hv hc

theorem leaves_loose : Leaves Loose s d := by
  intro _ b u v r _ hgap hr
  rcases hr with rfl | ⟨c, t, rfl, -⟩
  · rw [List.append_nil]
    exact loose_of_isGap fun c hc ↦ hgap c (List.mem_append_right _ hc)
  · exact loose_of_mem (c := '\\') (by simp) (by decide)

theorem Held.quiet {p : Position} {b u r : Text} (h : Held Q s p)
    (hleft : ∀ {u' v : Text}, u = u' ++ v → Q (v ++ r)) (hcur : s.current = some (b, u ++ r))
    (hu : ∀ c ∈ u, isGap c = true) (hr : r = [] ∨ ∃ c t, r = '\\' :: c :: t ∧ isBreak c = true)
    (hpast : s'.past = s.past ++ [b ++ u ++ r]) (hcur' : s'.current = none) : Held Q s' p := by
  have hbehind : s'.behind = [] := by simp [behind, hcur']
  rcases h with ⟨b', u', r', hsome, hu', rfl⟩ | ⟨-, past, b', r', more, hs, hp, hq⟩
  · rw [hcur] at hsome
    obtain ⟨rfl, hrow⟩ := Prod.mk.inj (Option.some.inj hsome)
    refine .inr ⟨hbehind, s.past, b ++ u', r', [], ?_, rfl, .inl ?_⟩
    · rw [hpast, List.append_assoc b u r, hrow, List.append_assoc]
    -- what is left of the row is a gap, or a gap and the end of a joined line
    · obtain ⟨v, rfl, rfl⟩ : ∃ v, u = u' ++ v ∧ r' = v ++ r := by
        refine gaps_split hrow.symm hu' fun c hc ↦ ?_
        rcases hr with rfl | ⟨c', t, rfl, -⟩
        · exact absurd hc (by simp)
        · obtain rfl : '\\' = c := by simpa using hc
          decide
      exact hleft rfl
  · refine .inr ⟨hbehind, past, b', r', more ++ [b ++ u ++ r], by simp [hpast, hs], hp, ?_⟩
    rcases hq with hq | ⟨hnone, -⟩
    · exact .inl hq
    · rw [hcur] at hnone
      exact absurd hnone (by simp)

/-- The row that a lexeme leaves behind, as a row of the source. -/
theorem exists_split_of_advance {b r gap drop : Text} {x : Lexeme}
    (hsupply : s.supply = source.drop first) (hcur : s.current = some (b, r))
    (hadv : Advance ⟨s.past, b, r, s.feed⟩ gap x drop s') (hcur' : s'.current = none) :
    s'.past = s.past ++ [b ++ gap ++ x.text ++ drop] ∧
      x.stop = ⟨s.past.length, Text.bytes (b ++ gap ++ x.text)⟩ ∧
      ∃ pre, source = pre ++ some (b ++ gap ++ x.text ++ drop) :: s'.feed.upcoming := by
  have hsupply' : s'.supply = source.drop first := by
    rw [hadv.supply, ← hsupply]
    simp [Spot.supply, Spot.rows, supply, rows, hcur]
  obtain ⟨b', -, hpast, hstop, -⟩ := hadv.lands.resolve_left (by simp [hcur'])
  have hb' : b' = b ++ gap ++ x.text := by
    have hseen := hadv.seen
    simp only [seen, behind, hcur', hpast, Spot.seen, Option.map_none, Option.getD_none,
      List.append_nil, List.flatten_append, List.flatten_cons, List.flatten_nil] at hseen
    have : s.past.flatten ++ (b' ++ drop) = s.past.flatten ++ (b ++ gap ++ x.text ++ drop) := by
      simpa using hseen
    exact List.append_cancel_right (List.append_cancel_left this)
  subst hb'
  have hrows : s'.rows = s.past ++ (b ++ gap ++ x.text ++ drop) :: [] := by
    simp [rows, hcur', hpast]
  exact ⟨hpast, hstop, exists_split_of_supply hsupply' hrows⟩

/-- The scan stands behind a lexeme that it does not leave the row with. -/
theorem held_of_tag {b r gap drop : Text} {x : Lexeme} (hadv : Advance ⟨s.past, b, r, s.feed⟩ gap x drop s')
    (htag : x.tag ∉ [.newline, .nl, .fstringMiddle]) : Held Q s' x.stop := by
  rcases hadv.lands with ⟨b', r', hcur', hstop, -, -, -⟩ | ⟨-, -, -, -, hleft⟩
  · exact .inl ⟨b', [], r', by simp [hcur'], by simp, by simp [hstop]⟩
  · exact absurd hleft (by simpa using htag)

/-- The place behind the lexeme that was taken last is held. -/
theorem held_of_advance {b r gap drop : Text} {x : Lexeme} (hres : Remains Q source)
    (hsupply : s.supply = source.drop first) (hcur : s.current = some (b, r))
    (hadv : Advance ⟨s.past, b, r, s.feed⟩ gap x drop s') : Held Q s' x.stop := by
  rcases hadv.lands with ⟨b', r', hcur', hstop, -, -, -⟩ | ⟨b', hcur', -, -, -⟩
  · exact .inl ⟨b', [], r', by simp [hcur'], by simp, by simp [hstop]⟩
  · obtain ⟨hpast, hstop, pre, hpre⟩ := exists_split_of_advance hsupply hcur hadv hcur'
    refine .inr ⟨by simp [behind, hcur'], s.past, b ++ gap ++ x.text, drop, [], hpast, hstop, ?_⟩
    rcases hres.dropped hpre hadv.cut with hq | hdry
    · exact .inl hq
    · exact .inr ⟨hcur', hdry⟩

/-! ### One step -/

theorem Tracked.load {r : Text} (h : Tracked Q s d) (hcur : s.current = none)
    (hload : s.load.current = some ([], r)) (hpast : s.load.past = s.past)
    (hrows : s.load.rows = s.rows ++ [r])
    (hup : s.feed.upcoming = some r :: s.load.feed.upcoming) (hne : r ≠ []) :
    Tracked Q s.load d := by
  have hbehind : s.load.behind = [] := by simp [behind, hload]
  have hseen : s.load.seen = s.seen := by simp [seen, behind, hload, hpast, hcur]
  unfold Tracked at h ⊢
  split
  · rename_i hm
    rw [hm] at h
    rcases h with ⟨-, hd⟩ | ⟨p, hp, hrow, hheld⟩
    · exact .inl ⟨hbehind, hd⟩
    · exact .inr ⟨p, hp, hrow, hheld.load hcur hload hpast hup hne⟩
  · rename_i hm
    rw [hm] at h
    exact Held.load h hcur hload hpast hup hne
  · rename_i hm
    rw [hm] at h
    obtain ⟨done, c, w, hplace, hdone, hc⟩ := h
    exact ⟨done, c, w, hrows ▸ hplace.append [r], hseen.trans hdone, hc⟩
  · trivial

theorem Tracked.quiet {b u r : Text} (h : Tracked Q s d) (hleaves : Leaves Q s d)
    (hcur : s.current = some (b, u ++ r))
    (hu : ∀ c ∈ u, isGap c = true) (hr : r = [] ∨ ∃ c t, r = '\\' :: c :: t ∧ isBreak c = true)
    (hpast : s'.past = s.past ++ [b ++ u ++ r]) (hcur' : s'.current = none) : Tracked Q s' d := by
  have hbehind : s'.behind = [] := by simp [behind, hcur']
  have hrows : s'.rows = s.rows := by simp [rows, hpast, hcur, hcur']
  have hseen : s'.seen = s.seen ++ (u ++ r) := by simp [seen, behind, hpast, hcur, hcur']
  have hleft : (∀ p nesting, d.mode ≠ .fstring p nesting) → ∀ {u' v : Text}, u = u' ++ v →
      Q (v ++ r) := fun hm u' v huv ↦ hleaves hm (huv ▸ hcur) (huv ▸ hu) hr
  unfold Tracked at h ⊢
  split
  · rename_i hm
    rw [hm] at h
    rcases h with ⟨-, hd⟩ | ⟨p, hp, hrow, hheld⟩
    · exact .inl ⟨hbehind, hd⟩
    · exact .inr ⟨p, hp, hrow, hheld.quiet (hleft (by simp [hm])) hcur hu hr hpast hcur'⟩
  · rename_i hm
    rw [hm] at h
    exact Held.quiet h (hleft (by simp [hm])) hcur hu hr hpast hcur'
  · rename_i hm
    rw [hm] at h
    obtain ⟨done, c, w, hplace, hdone, hc⟩ := h
    exact ⟨done, c, w ++ (u ++ r), hrows ▸ hplace, by simp [hseen, hdone], hc⟩
  · trivial

/-- The scan stands where it stood, but for its queue and its blocks. -/
theorem Held.congr {p : Position} (h : Held Q s p) (hpast : s'.past = s.past)
    (hcur : s'.current = s.current) (hfeed : s'.feed = s.feed) : Held Q s' p := by
  unfold Held behind at h ⊢
  rw [hpast, hcur, hfeed]
  exact h

theorem Tracked.margin {margin text : Text} {x : Lexeme} (h : Tracked Q s d)
    (hcur : s.current = some ([], margin ++ text)) (hg : ∀ c ∈ margin, isGap c = true)
    (htag : x.tag = .indent ∨ x.tag = .dedent)
    (hstop : x.stop = ⟨s.past.length, Text.bytes margin⟩) (hpast : s'.past = s.past)
    (hcur' : s'.current = s.current) (hfeed : s'.feed = s.feed)
    (htake : d.take s'.rows x = .ok d') : Tracked Q s' d' := by
  have hrows : s'.rows = s.rows := by rw [rows, rows, hpast, hcur']
  have hseen : s'.seen = s.seen := by rw [seen, seen, behind, behind, hpast, hcur']
  have hstay : Tracked Q s' d := by
    unfold Tracked at h ⊢
    split
    · rename_i hm
      rw [hm] at h
      rcases h with ⟨hb, hd⟩ | ⟨p, hp, hrow, hheld⟩
      · refine .inl ⟨?_, hd⟩
        simpa [behind, hcur'] using hb
      · exact .inr ⟨p, hp, hrow, hheld.congr hpast hcur' hfeed⟩
    · rename_i hm
      rw [hm] at h
      exact Held.congr h hpast hcur' hfeed
    · rename_i hm
      rw [hm] at h
      rw [hrows, hseen]
      exact h
    · trivial
  rcases take_margin htag htake with rfl | ⟨p, q, depth, colon, depth', colon', -, rfl⟩
  · exact hstay
  · exact .inl ⟨[], margin, text, by rw [hcur', hcur], hg, by rw [hstop, hpast]; rfl⟩

section Advance

variable {b r gap drop : Text} {x : Lexeme}

/-- The layout before a lexeme in a row where nothing has been read yet. -/
theorem margin_of_advance (hadv : Advance ⟨s.past, b, r, s.feed⟩ gap x drop s') :
    Draft.margin s'.rows x.start = b ++ gap := by
  obtain ⟨rest, hrest⟩ := hadv.ahead
  obtain ⟨more, hmore⟩ := hadv.grows
  have hrows : s'.rows = s.past ++ ((b ++ gap) ++ rest) :: more := by
    rw [← hmore]
    simp only [Spot.rows] at hrest ⊢
    simp [hrest]
  rw [Draft.margin, hadv.start_eq]
  exact Place.toByte_col hrows

/-- Where the scan has not got past the place that the draft remembers, layout is as it should be. -/
theorem laidOut_of_held {p : Position} (hgap : ∀ {t : Text}, (∀ c ∈ t, isGap c = true) → Q t)
    (hcur : s.current = some (b, r))
    (hadv : Advance ⟨s.past, b, r, s.feed⟩ gap x drop s') (hp : d.reached = some p)
    (hrow : d.begunRow = some p.row) (h : Held Q s p) : d.LaidOut Q s'.rows x.start := by
  rcases h with ⟨b', u, r', hsome, -, rfl⟩ | ⟨hbehind, past, b', r', more, hpast, rfl, hq⟩
  · refine .inl ?_
    rw [hrow, hadv.start_eq]
  · obtain rfl : b = [] := by simpa [behind, hcur] using hbehind
    have hq : Q r' := by
      rcases hq with hq | ⟨hnone, -⟩
      · exact hq
      · rw [hcur] at hnone
        exact absurd hnone (by simp)
    refine .inr ⟨?_, ?_⟩
    · simp only [Draft.joint, hp]
      split
      · obtain ⟨after, hafter⟩ := hadv.grows
        have hrows : s'.rows = past ++ (b' ++ r') :: (more ++ [r] ++ after) := by
          rw [← hafter]
          simp [Spot.rows, hpast]
        rw [Place.fromByte_col hrows]
        exact hq
      · exact hgap (by simp)
    · rw [margin_of_advance hadv]
      exact hgap hadv.gaps

/-- The same between lexemes of the header itself. -/
theorem laidOut_of_tracked (hgap : ∀ {t : Text}, (∀ c ∈ t, isGap c = true) → Q t) (hcur : s.current = some (b, r))
    (hadv : Advance ⟨s.past, b, r, s.feed⟩ gap x drop s')
    (h : (s.behind = [] ∧ (d.reached = none ∨ d.broken = true)) ∨
      ∃ p, d.reached = some p ∧ d.begunRow = some p.row ∧ Held Q s p) :
    d.LaidOut Q s'.rows x.start := by
  rcases h with ⟨hbehind, hd⟩ | ⟨p, hp, hrow, hheld⟩
  · obtain rfl : b = [] := by simpa [behind, hcur] using hbehind
    refine .inr ⟨?_, ?_⟩
    · have hjoint : d.joint s'.rows x.start = [] := by
        unfold Draft.joint
        split
        · rename_i last hlast
          rcases hd with hd | hd
          · rw [hd] at hlast
            exact absurd hlast (by simp)
          · simp [hd]
        · rfl
      rw [hjoint]
      exact hgap (by simp)
    · rw [margin_of_advance hadv]
      exact hgap hadv.gaps
  · exact laidOut_of_held hgap hcur hadv hp hrow hheld

/-- **All layout is residual**, and a string with replacement fields reads as one. -/
theorem Tracked.prepared (hgap : ∀ {t : Text}, (∀ c ∈ t, isGap c = true) → Q t) (h : Tracked Q s d)
    (hcur : s.current = some (b, r))
    (hadv : Advance ⟨s.past, b, r, s.feed⟩ gap x drop s') : d.Prepared Q s'.rows x := by
  unfold Tracked at h
  unfold Draft.Prepared
  split
  · rename_i hm
    rw [hm] at h
    intro _ _
    exact laidOut_of_tracked hgap hcur hadv h
  · rename_i hm
    rw [hm] at h
    intro _ _ _
    exact laidOut_of_held hgap hcur hadv rfl rfl h
  · rename_i hm
    rw [hm] at h
    intro _
    obtain ⟨done, c, w, hplace, hseen, hc⟩ := h
    have hstart : Place s'.rows _ done := hplace.mono (by
      have hrows : s.rows = (Spot.mk s.past b r s.feed).rows := by simp [rows, Spot.rows, hcur]
      rw [hrows]
      exact hadv.grows)
    have hstop : Place s'.rows x.stop (done ++ (c :: w ++ gap ++ x.text)) := by
      have hspot : (Spot.mk s.past b r s.feed).seen = s.seen := by
        simp [seen, behind, Spot.seen, hcur]
      have := hadv.stop
      rw [hspot, hseen] at this
      simpa using this
    rw [hstart.slice_eq hstop]
    exact ⟨c, w ++ gap ++ x.text, by simp, hc⟩
  · trivial

/-- **Where a lexeme of the header itself leaves the draft**: behind it, unless it breaks the line,
closes the header, or starts a lambda or a string with replacement fields. -/
theorem plain_lands {rows : List Text} (hm : d.mode = .plain) (htake : d.plain rows x = .ok d')
    (hindent : x.tag ≠ .indent) (hdedent : x.tag ≠ .dedent) :
    (x.tag = .op ∧ x.text = [':'] ∧ d'.mode = .complete ∧ d' = (d.layout rows x.start).close rows x) ∨
      ((x.tag = .newline ∨ x.tag = .nl) ∧ d'.mode = .plain ∧ d'.broken = true) ∨
      (x.tag = .fstringStart ∧ d'.mode = .fstring x.start 1) ∨
      (x.tag ≠ .fstringStart ∧
        ((x.tag = .name ∧ x.text = "lambda".toList ∧ d'.mode = .lambda x.stop x.stop 0 false) ∨
          (d'.mode = .plain ∧ d'.reached = some x.stop ∧ d'.begunRow = some x.stop.row ∧
            x.tag ∉ [.newline, .nl, .fstringMiddle]))) := by
  have hlayout : (d.layout rows x.start).mode = .plain := (Draft.layout_mode _ _).trans hm
  unfold Draft.plain at htake
  split at htake
  case h_1 htag => exact absurd htag hindent
  case h_2 htag => exact absurd htag hdedent
  case h_5 htag =>
    refine .inr (.inl ⟨.inl htag, ?_⟩)
    exact Except.ok.inj htake ▸ ⟨(Draft.lineBreak_mode x).trans hm, rfl⟩
  case h_6 htag =>
    refine .inr (.inl ⟨.inr htag, ?_⟩)
    exact Except.ok.inj htake ▸ ⟨(Draft.lineBreak_mode x).trans hm, rfl⟩
  case h_7 htag =>
    refine .inr (.inr (.inr ⟨by simp [htag], .inr ?_⟩))
    exact Except.ok.inj htake ▸ ⟨hlayout, rfl, rfl, by simp [htag]⟩
  case h_8 htag =>
    refine .inr (.inr (.inr ⟨by simp [htag], ?_⟩))
    unfold Draft.name at htake
    split at htake
    · right
      split at htake
      · exact Except.ok.inj htake ▸ ⟨hlayout, rfl, rfl, by simp [htag]⟩
      split at htake
      · split at htake
        · exact absurd htake (by simp)
        · exact Except.ok.inj htake ▸ ⟨hlayout, rfl, rfl, by simp [htag]⟩
      · exact Except.ok.inj htake ▸ ⟨(Draft.dotted_mode _ _).trans hlayout, rfl, rfl, by simp [htag]⟩
    split at htake
    · exact .inr (Except.ok.inj htake ▸ ⟨(Draft.dotted_mode _ _).trans hlayout, rfl, rfl, by simp [htag]⟩)
    split at htake
    · split at htake
      · exact .inl ⟨htag, ‹_›, Except.ok.inj htake ▸ rfl⟩
      · exact .inr (Except.ok.inj htake ▸ ⟨(Draft.operand_mode _).trans hlayout, rfl, rfl, by simp [htag]⟩)
    · exact .inr (Except.ok.inj htake ▸ ⟨hlayout, rfl, rfl, by simp [htag]⟩)
  case h_9 htag | h_10 htag =>
    refine .inr (.inr (.inr ⟨by simp [htag], .inr ?_⟩))
    exact Except.ok.inj htake ▸ ⟨(Draft.operand_mode _).trans hlayout, rfl, rfl, by simp [htag]⟩
  case h_11 htag => exact .inr (.inr (.inl ⟨htag, Except.ok.inj htake ▸ rfl⟩))
  case h_14 htag =>
    rcases Draft.op_cases htake with ⟨hx, -, -, rfl⟩ | ⟨d'', hstep, rfl⟩
    · exact .inl ⟨htag, hx, Draft.close_mode _ _, rfl⟩
    · exact .inr (.inr (.inr ⟨by simp [htag], .inr ⟨hstep.mode_eq.trans hlayout, rfl, rfl, by simp [htag]⟩⟩))
  all_goals exact absurd htake (by simp)

/-- **One lexeme keeps draft and scan together.** -/
theorem Tracked.advance (h : Tracked Q s d) (hcur : s.current = some (b, r))
    (hadv : Advance ⟨s.past, b, r, s.feed⟩ gap x drop s') (hx : x.Fits)
    (hheld : ∀ {start stop : Position} {depth : Nat} {colon : Bool},
      d.mode = .lambda start stop depth colon → Held Q s' x.stop)
    (hindent : x.tag ≠ .indent) (hdedent : x.tag ≠ .dedent)
    (htake : d.take s'.rows x = .ok d') : Tracked Q s' d' := by
  -- a lexeme of the header itself
  have hplain : ∀ {d₁ : Draft}, d₁.mode = .plain → d₁.plain s'.rows x = .ok d' →
      Tracked Q s' d' := by
    intro d₁ hm htake
    unfold Tracked
    rcases plain_lands hm htake hindent hdedent with ⟨-, -, hm', -⟩ | ⟨htag, hm', hbroken⟩ |
      ⟨htag, hm'⟩ | ⟨-, ⟨htag, -, hm'⟩ | ⟨hm', hreached, hrow, htag⟩⟩
    · rw [hm']
      trivial
    · rw [hm']
      refine .inl ⟨?_, .inr hbroken⟩
      rcases hadv.lands with ⟨_, _, -, -, -, hn, hnl⟩ | ⟨_, hnone, -, -, -⟩
      · exact absurd htag (by simp [hn, hnl])
      · simp [behind, hnone]
    · rw [hm']
      obtain ⟨c, w, htext, hc⟩ : ∃ c w, x.text = c :: w ∧ (isNameStart c ∨ c = '"' ∨ c = '\'') := by
        simpa [Fits, htag] using hx
      obtain ⟨rest, hrest⟩ := hadv.ahead
      refine ⟨(Spot.mk s.past b r s.feed).seen ++ gap, c, w ++ drop, ?_, ?_, ?_⟩
      · have := (Spot.place_of_ahead hrest).mono hadv.grows
        rw [← hadv.start_eq] at this
        exact this
      · rw [hadv.seen, htext]
        simp
      · rcases hc with hc | rfl | rfl
        · obtain ⟨c', w', hcw, hres'⟩ := Draft.wordy_of_isNameStart (r := w) hc
          obtain ⟨rfl, -⟩ := List.cons_eq_cons.1 hcw
          exact hres'
        · decide
        · decide
    · rw [hm']
      exact held_of_tag hadv (by simp [htag])
    · rw [hm']
      exact .inr ⟨x.stop, hreached, hrow, held_of_tag hadv htag⟩
  unfold Draft.take at htake
  split at htake
  · rename_i hm
    exact hplain hm htake
  · rename_i hm
    rcases Draft.inLambda_cases htake with ⟨-, htake'⟩ | ⟨depth, colon, rfl⟩
    · exact hplain rfl htake'
    · exact hheld hm
  · rename_i hm
    rcases Draft.inFString_cases hm htake with ⟨htag, rfl⟩ | ⟨nesting, rfl⟩
    · exact .inr ⟨x.stop, rfl, rfl, held_of_tag hadv (by simp [htag])⟩
    · unfold Tracked at h ⊢
      rw [hm] at h
      obtain ⟨done, c, w, hplace, hseen, hc⟩ := h
      have hrows : s.rows = (Spot.mk s.past b r s.feed).rows := by simp [rows, Spot.rows, hcur]
      have hspot : (Spot.mk s.past b r s.feed).seen = s.seen := by
        simp [seen, behind, Spot.seen, hcur]
      refine ⟨done, c, w ++ gap ++ x.text ++ drop, ?_, ?_, hc⟩
      · exact hplace.mono (hrows ▸ hadv.grows)
      · rw [hadv.seen, hspot, hseen]
        simp
  · rename_i hm
    obtain rfl := Except.ok.inj htake
    simp [Tracked, hm]

end Advance

/-! ### Whole runs -/

/-- **One move keeps draft and scan together.** -/
theorem Tracked.move (hres : ∀ {start stop : Position} {depth : Nat} {colon : Bool},
      d.mode = .lambda start stop depth colon → Remains Q source)
    (h : Tracked Q s d) (hleaves : Leaves Q s d)
    (hsupply : s.supply = source.drop first) (hmove : Move s d s' d') : Tracked Q s' d' := by
  cases hmove with
  | load hcur hload hpast hrows hup hne => exact h.load hcur hload hpast hrows hup hne
  | quiet hcur hu hr hpast hcur' _ => exact h.quiet hleaves hcur hu hr hpast hcur'
  | margin hcur hg htag hstop hpast hcur' hfeed htake =>
    exact h.margin hcur hg htag hstop hpast hcur' hfeed htake
  | advance hcur hadv hx hindent hdedent htake =>
    exact h.advance hcur hadv hx (fun hm ↦ held_of_advance (hres hm) hsupply hcur hadv) hindent hdedent htake

/-- Nothing has been read yet. -/
theorem tracked_start : Tracked Q (Scan.start source first) {} :=
  .inl ⟨rfl, .inl rfl⟩

/-- Where scan and draft stand between two lexemes. Before the argument list no lambda is read, so that layout
cannot be mistaken for punctuation there, whatever the source is. -/
structure Trail (Q : Text → Prop) (s : Scan) (d : Draft) : Prop where
  poised : d.Poised
  tracked : Tracked Q s d
  early : d.inArguments = false → Tracked Loose s d

theorem trail_start : Trail Q (Scan.start source first) {} :=
  ⟨Draft.poised_start, tracked_start, fun _ ↦ tracked_start⟩

/-- A lexeme of the margin writes nothing. -/
theorem turn_margin {rows : List Text} {x : Lexeme} (h : d.Poised) (hd : d.isComplete = false)
    (htag : x.tag = .indent ∨ x.tag = .dedent) (htake : d.take rows x = .ok d') : Draft.Turn Q d d' := by
  rcases take_margin htag htake with rfl | ⟨start, stop, depth, colon, depth', colon', hm, rfl⟩
  · exact .on .refl rfl hd h
  · exact .on (Draft.Wrote.refl.congr rfl rfl) rfl rfl fun _ ↦ h hm

section Trail

variable (hQ : ∀ {t : Text}, Loose t → Q t) (hres : Residual Q source)
include hQ hres

/-- **One move is a turn of the draft.** -/
theorem Trail.turn (h : Trail Q s d) (hd : d.isComplete = false) (hmove : Move s d s' d') :
    Draft.Turn Q d d' := by
  cases hmove with
  | load | quiet => exact .on .refl rfl hd h.poised
  | margin _ _ htag _ _ _ _ htake => exact turn_margin h.poised hd htag htake
  | advance hcur hadv hx _ _ htake =>
    have hprep := (h.tracked.prepared hres.gap hcur hadv).slack fun hargs ↦
      (h.early hargs).prepared loose_of_isGap hcur hadv
    exact Draft.turn_take hQ h.poised hd hx hprep htake

theorem Trail.move (h : Trail Q s d) (hd : d.isComplete = false) (hsupply : s.supply = source.drop first)
    (hmove : Move s d s' d') : Trail Q s' d' := by
  have hturn := h.turn hQ hres hd hmove
  refine ⟨hturn.poised, h.tracked.move (fun _ ↦ hres.toRemains) (hres.leaves hsupply) hsupply hmove,
    fun hargs ↦ ?_⟩
  cases hargs' : d.inArguments with
  | false =>
    -- a lambda is read in the argument list only
    refine (h.early hargs').move (fun hm ↦ ?_) leaves_loose hsupply hmove
    exact absurd (hargs'.symm.trans (h.poised hm).2) (by simp)
  | true =>
    rcases hturn.inArguments hargs' with hargs'' | hcomplete
    · exact absurd (hargs.symm.trans hargs'') (by simp)
    · unfold Tracked
      unfold Draft.isComplete at hcomplete
      split at hcomplete
      · rename_i hm
        rw [hm]
        trivial
      · exact absurd hcomplete (by simp)

theorem Reading.trail (hr : Reading source first s d) :
    (s.Spent ∧ d.isComplete = false) ∨ (Sound source first s ∧ Trail Q s d) :=
  hr.induct trail_start fun h hd hmet hmove ↦ h.move hQ hres hd hmet.supply hmove

/-- **Every lexeme that is taken in is a turn of the draft.** -/
theorem Reading.turn {x : Lexeme} (hr : Reading source first s d) (hpoised : d.Poised)
    (hd : d.isComplete = false) (hstep : s.step = (some x, s')) (htake : d.take s'.rows x = .ok d') :
    Draft.Turn Q d d' := by
  -- at the end of the source there are lexemes of the margin only
  have hends : Ends x s' → Draft.Turn Q d d' := fun hends ↦
    hends.tag.elim (fun htag ↦ turn_margin hpoised hd (.inr htag) htake)
      fun htag ↦ absurd htake (take_error (.inr htag) hd)
  rcases hr.trail hQ hres with ⟨hspent, -⟩ | ⟨hsound, htrail⟩
  · obtain ⟨y, s₁, hs₁, hy, -⟩ := hspent.step
    obtain ⟨hxy, rfl⟩ := Prod.mk.inj (hstep.symm.trans hs₁)
    obtain rfl := Option.some.inj hxy
    exact hends hy
  · rcases hsound.take hd hstep htake with hy | ⟨-, hmove | ⟨⟨b, r, hcur⟩, hmove⟩⟩
    · exact hends hy
    · exact htrail.turn hQ hres hd hmove
    · -- the row at hand is got hold of first
      refine Trail.turn hQ hres ?_ hd hmove
      cases hc : s.current with
      | none =>
        obtain ⟨rfl, hpast, -, hrows, hup, hne⟩ := load_of_none hc hcur
        exact htrail.move hQ hres hd hsound.supply (.load hc hcur hpast hrows hup hne)
      | some p => rwa [load_of_some hc]

/-- **Induction over the turns of a draft**: what holds at the start and is kept by each turn holds throughout. -/
theorem Reading.turns {P : Draft → Prop} (start : P {})
    (turn : ∀ {s s' d d' x}, Reading source first s d → d.isComplete = false → s.step = (some x, s') →
      d.take s'.rows x = .ok d' → P d → Draft.Turn Q d d' → P d')
    (hr : Reading source first s d) : P d := by
  have hall : d.Poised ∧ P d := by
    induction hr with
    | start => exact ⟨Draft.poised_start, start⟩
    | quiet _ _ _ ih => exact ih
    | take hr hd hstep htake ih =>
      have hturn := hr.turn hQ hres ih.1 hd hstep htake
      exact ⟨hturn.poised, turn hr hd hstep htake ih.2 hturn⟩
  exact hall.2

/-- **A header that is read has been written step by step** up to its closing colon, with at most the rest of a row
behind it. -/
theorem exists_written_of_read {header : Header} (h : (read source first).1 = .ok header) :
    ∃ (g : Stage) (before tail : List Token), Written Q ({}, []) (g, before) ∧ g.inArguments = true ∧
      g.openBrackets = 0 ∧ (tail = [] ∨ ∃ rest, rest ≠ [] ∧ tail = [.of .endSeparator rest]) ∧
      header.tokens = before.reverse ++ .of .endDefinition [':'] :: (tail ++ [Token.last]) := by
  obtain ⟨s, d, hr, hcomplete, rfl⟩ := exists_reading_of_read h
  have harrives := hr.turns hQ hres
    (P := fun d ↦ Draft.Arrives Q {} d) (.inl ⟨rfl, .refl⟩)
    fun _ hd _ _ hbefore hturn ↦ hbefore.trans hd hturn.arrives
  obtain ⟨-, d₁, tail, hwrote, hargs, hopen, htail, hwritten⟩ :=
    harrives.resolve_left fun h ↦ absurd (hcomplete.symm.trans h.1) (by simp)
  refine ⟨d₁.stage, d₁.written, tail, hwrote, hargs, hopen, htail, ?_⟩
  rw [Draft.tokens, hwritten]
  rcases htail with rfl | ⟨rest, -, rfl⟩ <;> simp

end Trail

/-- In whole lines, what a scan leaves behind cannot be mistaken for punctuation. -/
theorem residual_loose (hs : source.Lined) : Residual Loose source where
  gap := loose_of_isGap
  joined := fun _ _ _ ↦ loose_of_mem (c := '\\') (by simp) (by decide)
  dropped := by
    intro pre post b text drop hsource hcut
    obtain ⟨hfeed, hnext⟩ := hs hsource
    rcases hcut with rfl | hlast | ⟨hlast, hhead⟩
    · exact .inl loose_nil
    · -- a line feed ends its line
      obtain ⟨t, rfl⟩ := List.getLast?_eq_some_iff.1 hlast
      obtain rfl : drop = [] := hfeed (t := b ++ t) (by simp)
      exact .inl loose_nil
    · -- a row that goes on after a carriage return ends in a line feed, if it is not the last
      by_cases hdry : post.Dry
      · exact .inr hdry
      · simp only [Source.Dry, not_forall, not_not] at hdry
        obtain ⟨c, t, more, hpost⟩ := hdry
        have hend := hnext hpost
        obtain ⟨u, rfl⟩ := List.getLast?_eq_some_iff.1 hlast
        rcases eq_or_ne drop [] with rfl | hne
        · exact .inl loose_nil
        · have hlast' : drop.getLast? = some '\n' := by
            rw [List.getLast?_append, List.getLast?_eq_some_getLast hne, Option.some_or] at hend
            rw [List.getLast?_eq_some_getLast hne, hend]
          exact .inl (loose_of_mem (List.mem_of_getLast? hlast') (by decide))

/-- **The tokens of a header that is read from whole lines stand in their places.** -/
theorem finished_of_read {header : Header} (hs : source.Lined)
    (h : (read source first).1 = .ok header) :
    ∃ written, header.tokens = written.reverse ++ [Token.last] ∧ Finished written := by
  obtain ⟨g, before, tail, hwritten, hargs, hopen, htail, htokens⟩ :=
    exists_written_of_read (Q := Loose) id (residual_loose hs) h
  obtain ⟨hstage, hformed⟩ := hwritten.invariant
    (I := fun a ↦ a.1 = Stage.of a.2 ∧ Formed a.2) (fun ha hstep ↦ hstep.framed ha) ⟨rfl, trivial⟩
  obtain rfl : g = Stage.of before := hstage
  refine ⟨tail.reverse ++ .of .endDefinition [':'] :: before, by simp [htokens],
    tail.reverse, before, rfl, ?_, hformed, hargs, hopen⟩
  rcases htail with rfl | ⟨rest, -, rfl⟩
  · exact .inl rfl
  · exact .inr ⟨rest, rfl⟩

end Header

end HeaderHints
