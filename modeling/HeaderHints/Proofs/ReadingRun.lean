import HeaderHints.Header.Basic
import HeaderHints.Proofs.ScanSteps

/-!
# Runs of reading a header

A header is read by a scan and a draft that move together: a step of the scan, and if it produces a
lexeme, the draft takes it in. `Reading` are the pairs of states that such a run reaches, and a header
that is read is the draft of a complete one (`exists_reading_of_read`).

`Reading.induct` packages the induction over runs by what the steps of a scan can do. The draft takes in
neither the lexeme of a margin that fits no block nor the end marker, so no run gets past them.
-/

namespace HeaderHints.Header

open Lexeme Scan

/-- The states of scan and draft that are reached when the header at line `first` is read. -/
inductive Reading (source : Source) (first : Nat) : Scan → Draft → Prop
  | start : Reading source first (Scan.start source first) {}
  | quiet {s s' : Scan} {d : Draft} : Reading source first s d → d.isComplete = false →
      s.step = (none, s') → Reading source first s' d
  | take {s s' : Scan} {d d' : Draft} {x : Lexeme} : Reading source first s d →
      d.isComplete = false → s.step = (some x, s') → d.take s'.rows x = .ok d' →
      Reading source first s' d'

variable {source : Source} {first : Nat}

/-! ### From the loop to its states -/

theorem take_error {d d' : Draft} {rows : List Text} {x : Lexeme}
    (hx : x.tag = .error ∨ x.tag = .endMarker) (hd : d.isComplete = false) :
    d.take rows x ≠ .ok d' := by
  intro h
  unfold Draft.take at h
  split at h
  · rcases hx with hx | hx <;> simp [Draft.plain, hx] at h
  · rcases hx with hx | hx <;> simp [Draft.inLambda, hx] at h
  · rcases hx with hx | hx <;> simp [Draft.inFString, hx] at h
  · rename_i hmode
    simp [Draft.isComplete, hmode] at hd

theorem nextWithin_cases (n : Nat) :
    ∀ {s : Scan} {d : Draft}, Reading source first s d → d.isComplete = false →
      ((nextWithin n s).1.tag = .endMarker) ∨
        ∃ s₀, Reading source first s₀ d ∧
          s₀.step = (some (nextWithin n s).1, (nextWithin n s).2) := by
  induction n with
  | zero =>
    intro s d _ _
    exact .inl rfl
  | succ n ih =>
    intro s d hr hd
    rw [nextWithin]
    split
    · rename_i x s' hstep
      exact .inr ⟨s, hr, hstep⟩
    · rename_i s' hstep
      exact ih (hr.quiet hd hstep) hd

theorem exists_reading_of_readWithin (n : Nat) :
    ∀ {s s' : Scan} {d : Draft} {header : Header}, Reading source first s d →
      d.isComplete = false → readWithin n s d = (.ok header, s') →
      ∃ d', Reading source first s' d' ∧ d'.isComplete = true ∧
        header = ⟨d'.tokens, s'.rows.length⟩ := by
  induction n with
  | zero =>
    intro s s' d header _ _ h
    exact absurd h (by simp [readWithin])
  | succ n ih =>
    intro s s' d header hr hd h
    rw [readWithin] at h
    dsimp only at h
    split at h
    · exact absurd h (by simp)
    · rename_i d' htake
      rcases nextWithin_cases (s.feed.upcoming.length + 3) hr hd with hend | ⟨s₀, hr₀, hstep⟩
      · exact absurd htake (take_error (.inr hend) hd)
      · have hr' : Reading source first s.next.2 d' := hr₀.take hd hstep htake
        split at h
        · rename_i hcomplete
          obtain ⟨hheader, rfl⟩ := Prod.mk.inj h
          exact ⟨_, hr', hcomplete, (Except.ok.inj hheader).symm⟩
        · rename_i hincomplete
          exact ih hr' (by simpa using hincomplete) h

/-- **A header that is read** is the draft of a complete run, and the lines that were asked for are those of
the run. -/
theorem exists_reading_of_read_eq {header : Header} {asked : List Nat}
    (h : read source first = (.ok header, asked)) :
    ∃ s d, Reading source first s d ∧ d.isComplete = true ∧
      header = ⟨d.tokens, s.rows.length⟩ ∧ asked = s.feed.asked := by
  obtain ⟨hheader, rfl⟩ := Prod.mk.inj h
  obtain ⟨d, hr, hcomplete, rfl⟩ := exists_reading_of_readWithin
    ((Scan.start source first).weight + 1) .start rfl (Prod.ext hheader rfl)
  exact ⟨_, d, hr, hcomplete, rfl, rfl⟩

theorem exists_reading_of_read {header : Header} (h : (read source first).1 = .ok header) :
    ∃ s d, Reading source first s d ∧ d.isComplete = true ∧
      header = ⟨d.tokens, s.rows.length⟩ := by
  obtain ⟨s, d, hr, hcomplete, hheader, -⟩ := exists_reading_of_read_eq (Prod.ext h rfl)
  exact ⟨s, d, hr, hcomplete, hheader⟩

/-! ### Induction over runs -/

/-- What holds of the scan in every run, as long as the source has not run out: it stands at the
start of a line only where it should, its lexemes of the margin belong to the row at hand, and
nothing of the source is lost. -/
structure Sound (source : Source) (first : Nat) (s : Scan) : Prop where
  formed : s.Formed
  awake : s.exhausted = false
  supply : s.supply = source.drop first
  queue : s.queued = [] ∨ ∃ row, s.current = some ([], row) ∧ ∀ y ∈ s.queued, Marginal s.past row y

/-- **A lexeme of the margin** says nothing to a draft; only the body of a lambda reaches up to
it. -/
theorem take_margin {d d' : Draft} {rows : List Text} {x : Lexeme}
    (hx : x.tag = .indent ∨ x.tag = .dedent) (h : d.take rows x = .ok d') :
    d' = d ∨ ∃ p q depth colon depth' colon', d.mode = .lambda p q depth colon ∧
      d' = { d with mode := .lambda p x.stop depth' colon' } := by
  unfold Draft.take at h
  split at h
  · left
    rcases hx with hx | hx <;> simp only [Draft.plain, hx, Except.ok.injEq] at h <;> exact h.symm
  · rename_i p q depth colon hm
    refine .inr ⟨p, q, depth, colon, ?_⟩
    rcases hx with hx | hx <;>
      simp only [Draft.inLambda, hx, Draft.endsLambda, Bool.false_eq_true, if_false,
        Except.ok.injEq] at h <;>
      exact ⟨_, _, hm, h.symm⟩
  · left
    rcases hx with hx | hx <;> simp only [Draft.inFString, hx, Except.ok.injEq] at h <;>
      exact h.symm
  · exact .inl (Except.ok.inj h).symm

theorem take_dedent {d d' : Draft} {rows : List Text} {x : Lexeme} (hx : x.tag = .dedent)
    (hd : d.isComplete = false) (h : d.take rows x = .ok d') : d'.isComplete = false := by
  rcases take_margin (.inr hx) h with rfl | ⟨p, q, depth, colon, depth', colon', -, rfl⟩
  · exact hd
  · rfl

/-- The end of the source does not complete a draft. -/
theorem take_ends {s : Scan} {d d' : Draft} {rows : List Text} {x : Lexeme} (hx : Ends x s)
    (hd : d.isComplete = false) (h : d.take rows x = .ok d') : s.Spent ∧ d'.isComplete = false := by
  rcases hx.tag with htag | htag
  · exact ⟨hx.spent, take_dedent htag hd h⟩
  · exact absurd h (take_error (.inr htag) hd)

/-- **One move of scan and draft**, where the source does not run out. -/
inductive Move : Scan → Draft → Scan → Draft → Prop
  /-- The next row is got hold of. -/
  | load {s : Scan} {d : Draft} {r : Text} : s.current = none → s.load.current = some ([], r) →
      s.load.past = s.past → s.load.rows = s.rows ++ [r] →
      s.feed.upcoming = some r :: s.load.feed.upcoming → r ≠ [] → Move s d s.load d
  /-- A row is left, and no lexeme is produced. -/
  | quiet {s s' : Scan} {d : Draft} {b u r : Text} : s.current = some (b, u ++ r) →
      (∀ c ∈ u, isGap c = true) → (r = [] ∨ ∃ c t, r = '\\' :: c :: t ∧ isBreak c = true) →
      s'.past = s.past ++ [b ++ u ++ r] → s'.current = none → s'.feed = s.feed → Move s d s' d
  /-- A lexeme of the margin is taken in. -/
  | margin {s s' : Scan} {d d' : Draft} {margin text : Text} {x : Lexeme} :
      s.current = some ([], margin ++ text) → (∀ c ∈ margin, isGap c = true) →
      (x.tag = .indent ∨ x.tag = .dedent) → x.stop = ⟨s.past.length, Text.bytes margin⟩ →
      s'.past = s.past → s'.current = s.current → s'.feed = s.feed →
      d.take s'.rows x = .ok d' → Move s d s' d'
  /-- Any other lexeme is taken in. -/
  | advance {s s' : Scan} {d d' : Draft} {b r gap drop : Text} {x : Lexeme} :
      s.current = some (b, r) → Advance ⟨s.past, b, r, s.feed⟩ gap x drop s' → x.Fits →
      x.tag ≠ .indent → x.tag ≠ .dedent → d.take s'.rows x = .ok d' → Move s d s' d'

/-- A state that a run comes by: nothing of the source is lost in it, and it is one of the run, or such
a one with its row got hold of. -/
structure Met (source : Source) (first : Nat) (s : Scan) (d : Draft) : Prop where
  supply : s.supply = source.drop first
  along : ∃ s₀, Reading source first s₀ d ∧ s₀.load = s.load

/-- A lexeme of the margin, from the row at hand or from the queue, is taken in. -/
theorem Move.of_marginal {s s' : Scan} {d d' : Draft} {row : Text} {x : Lexeme}
    (hcur : s.current = some ([], row)) (hx : Marginal s.past row x) (hpast : s'.past = s.past)
    (hcur' : s'.current = s.current) (hfeed : s'.feed = s.feed) (hd : d.isComplete = false)
    (htake : d.take s'.rows x = .ok d') : Move s d s' d' := by
  obtain ⟨margin, text, rfl, hg, hstop, htag⟩ := hx.exists_split
  rcases htag with htag | htag | htag
  · exact .margin hcur hg (.inl htag) hstop hpast hcur' hfeed htake
  · exact .margin hcur hg (.inr htag) hstop hpast hcur' hfeed htake
  · exact absurd htake (take_error (.inl htag) hd)

/-- A step without a lexeme leaves the row at hand. -/
theorem Sound.quiet {s s' : Scan} (h : Sound source first s) (hstep : s.step = (none, s')) :
    (∃ b r, s.load.current = some (b, r)) ∧ Sound source first s' ∧ ∀ d, Move s.load d s' d := by
  have hidle : s.queued = [] := by
    by_contra hq
    obtain ⟨y, queued, hq⟩ := List.exists_cons_of_ne_nil hq
    rw [step_of_queued hq] at hstep
    exact absurd hstep (by simp)
  cases hcur : s.load.current with
  | none =>
    obtain ⟨x, s₁, hx, -⟩ := step_ends hidle h.awake hcur
    exact absurd (hstep.symm.trans hx) (by simp)
  | some p =>
    obtain ⟨b, r⟩ := p
    have hout := step_outcome h.formed hidle h.awake hcur
    rw [hstep] at hout
    cases hout with
    | @quiet _ u r' ha hg hr' hpast hnone hfeed hidle' hawake' hformed' =>
      obtain rfl : r = u ++ r' := ha
      have hpast' : s'.past = s.load.past ++ [b ++ u ++ r'] := by
        rw [hpast]
        simp [Spot.rows]
      refine ⟨⟨b, u ++ r', rfl⟩, ⟨hformed', hawake', ?_, .inl hidle'⟩,
        fun d ↦ .quiet hcur hg hr' hpast' hnone hfeed⟩
      rw [← h.supply, ← load_supply hcur]
      simp [Scan.supply, rows, hnone, hpast', hcur, hfeed]

/-- A lexeme that is taken in ends the scan, or is found before, or is found in the row at hand. -/
theorem Sound.take {s s' : Scan} {d d' : Draft} {x : Lexeme} (h : Sound source first s)
    (hd : d.isComplete = false) (hstep : s.step = (some x, s')) (htake : d.take s'.rows x = .ok d') :
    Ends x s' ∨ (Sound source first s' ∧
      (Move s d s' d' ∨ (∃ b r, s.load.current = some (b, r)) ∧ Move s.load d s' d')) := by
  have hends : ∀ {y : Lexeme} {s₁ : Scan}, s.step = (some y, s₁) → Ends y s₁ → Ends x s' := by
    intro y s₁ hs₁ hends
    obtain ⟨hy, rfl⟩ := Prod.mk.inj (hstep.symm.trans hs₁)
    obtain rfl := Option.some.inj hy
    exact hends
  cases hq : s.queued with
  | cons y queued =>
    rw [step_of_queued hq] at hstep
    obtain ⟨hy, rfl⟩ := Prod.mk.inj hstep
    obtain rfl := Option.some.inj hy
    obtain ⟨row, hcur, hall⟩ := h.queue.resolve_left (by simp [hq])
    refine .inr ⟨⟨⟨h.formed.fresh, h.formed.quoted⟩, h.awake, h.supply,
      .inr ⟨row, hcur, fun z hz ↦ hall z (by simp [hq, hz])⟩⟩, .inl ?_⟩
    exact .of_marginal hcur (hall y (by simp [hq])) rfl rfl rfl hd htake
  | nil =>
    cases hcur : s.load.current with
    | none =>
      obtain ⟨y, s₁, hs₁, hend, -⟩ := step_ends hq h.awake hcur
      exact .inl (hends hs₁ hend)
    | some p =>
      obtain ⟨b, r⟩ := p
      have hout := step_outcome h.formed hq h.awake hcur
      have hsupply := (load_supply hcur).trans h.supply
      rw [hstep] at hout
      cases hout with
      | advance hadv hfits hindent hdedent _ =>
        refine .inr ⟨⟨hadv.formed, hadv.awake, ?_, .inl hadv.idle⟩,
          .inr ⟨⟨b, r, rfl⟩, .advance hcur hadv hfits hindent hdedent htake⟩⟩
        rw [hadv.supply, ← hsupply]
        simp [Spot.supply, Spot.rows, Scan.supply, rows, hcur]
      | margin hb hx hqueue hpast hcur' hfeed hawake' hframes' hbegun' =>
        obtain rfl : b = [] := hb
        refine .inr ⟨⟨formed_of_begun hbegun' (by simp [hframes']), hawake', ?_, .inr ⟨r, hcur', ?_⟩⟩,
          .inr ⟨⟨[], r, rfl⟩, .of_marginal hcur hx hpast (hcur'.trans hcur.symm) hfeed hd htake⟩⟩
        · rw [← hsupply]
          simp [Scan.supply, rows, hcur, hcur', hpast, hfeed]
        · rw [hpast]
          exact fun y hy ↦ (hqueue y hy).1
      | spent hend _ _ _ => exact .inl hend

/-- **Induction over runs**, by the moves of scan and draft. -/
theorem Reading.induct {P : Scan → Draft → Prop} (start : P (Scan.start source first) {})
    (move : ∀ {s d s' d'}, P s d → d.isComplete = false → Met source first s d →
      Move s d s' d' → P s' d')
    {s : Scan} {d : Draft} (hr : Reading source first s d) :
    (s.Spent ∧ d.isComplete = false) ∨ (Sound source first s ∧ P s d) := by
  -- the state with a row at hand
  have hload : ∀ {s d b r}, Reading source first s d → Sound source first s → P s d →
      d.isComplete = false → s.load.current = some (b, r) →
      P s.load d ∧ Met source first s.load d := by
    intro s d b r hr hsound hP hd hcur
    have hmet : Met source first s d := ⟨hsound.supply, s, hr, rfl⟩
    cases hc : s.current with
    | none =>
      obtain ⟨rfl, hpast, hsupply, hrows, hup, hne⟩ := load_of_none hc hcur
      exact ⟨move hP hd hmet (.load hc hcur hpast hrows hup hne), hsupply.trans hsound.supply,
        s, hr, (load_of_some hcur).symm⟩
    | some p =>
      rw [load_of_some hc]
      exact ⟨hP, hmet⟩
  induction hr with
  | start =>
    refine .inr ⟨⟨formed_start source first, rfl, ?_, .inl rfl⟩, start⟩
    simp [supply, Scan.start, rows, Feed.start]
  | @quiet s s' d hr hd hstep ih =>
    rcases ih with ⟨hspent, -⟩ | ⟨hsound, hP⟩
    · obtain ⟨x, s₁, hx, -⟩ := hspent.step
      exact absurd (hstep.symm.trans hx) (by simp)
    · obtain ⟨⟨b, r, hcur⟩, hsound', hmove⟩ := hsound.quiet hstep
      obtain ⟨hP', hmet⟩ := hload hr hsound hP hd hcur
      exact .inr ⟨hsound', move hP' hd hmet (hmove d)⟩
  | @take s s' d d' x hr hd hstep htake ih =>
    rcases ih with ⟨hspent, -⟩ | ⟨hsound, hP⟩
    · obtain ⟨y, s₁, hs₁, hends, -⟩ := hspent.step
      obtain ⟨hy, rfl⟩ := Prod.mk.inj (hstep.symm.trans hs₁)
      obtain rfl := Option.some.inj hy
      exact .inl (take_ends hends hd htake)
    · rcases hsound.take hd hstep htake with hends | ⟨hsound', hmove | ⟨⟨b, r, hcur⟩, hmove⟩⟩
      · exact .inl (take_ends hends hd htake)
      · exact .inr ⟨hsound', move hP hd ⟨hsound.supply, s, hr, rfl⟩ hmove⟩
      · obtain ⟨hP', hmet⟩ := hload hr hsound hP hd hcur
        exact .inr ⟨hsound', move hP' hd hmet hmove⟩

theorem Reading.sound {s : Scan} {d : Draft} (hr : Reading source first s d) :
    (s.Spent ∧ d.isComplete = false) ∨ Sound source first s :=
  (hr.induct (P := fun _ _ ↦ True) trivial fun _ _ _ _ ↦ trivial).imp_right And.left

end HeaderHints.Header
