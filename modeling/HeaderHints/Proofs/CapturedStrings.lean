import HeaderHints.Proofs.FormattedStrings
import HeaderHints.Proofs.ReadingRun

/-!
# Capturing strings with replacement fields

A default value that is a string with replacement fields is taken from the source as it stands. While it is
captured, the draft does nothing but count the strings that are open, and the scan keeps a frame for each of
them. These go together (`Header.capture_whole`), so the draft stops at the end of the string that it has
started with.

If the source runs out, a scan still closes the open blocks. The draft ignores that, and fails at the end marker.
-/

namespace HeaderHints

open Lexeme Scan

namespace Scan

variable {source : Source} {first : Nat} {s s' : Scan} {x : Lexeme} {p : Position} {done : Text}

/-! ### A place behind the reading point -/

/-- The text `done` stands before `p`, and the scan has seen it. -/
def Passed (s : Scan) (p : Position) (done : Text) : Prop :=
  Place s.rows p done ∧ done <+: s.seen

/-- Nothing was due before the start of a string. -/
theorem idle_of_start (hsound : Header.Sound source first s) (hstep : s.step = (some x, s'))
    (hx : x.tag = .fstringStart) : s.queued = [] := by
  rcases hsound.queue with hidle | ⟨row, -, hall⟩
  · exact hidle
  · cases hq : s.queued with
    | nil => rfl
    | cons y queued =>
      obtain rfl := Option.some.inj (Prod.mk.inj (hstep.symm.trans (step_of_queued hq))).1
      obtain ⟨-, -, -, -, -, htag⟩ := (hall x (by simp [hq])).exists_split
      simp [hx] at htag

theorem exists_passed (hsound : Header.Sound source first s) (hstep : s.step = (some x, s'))
    (hx : x.tag = .fstringStart) : ∃ done, s'.Passed x.start done := by
  have hidle := idle_of_start hsound hstep hx
  cases hcur : s.load.current with
  | none =>
    obtain ⟨y, s₁, hs₁, hends, -⟩ := step_ends hidle hsound.awake hcur
    obtain rfl := Option.some.inj (Prod.mk.inj (hstep.symm.trans hs₁)).1
    rcases hends.tag with htag | htag <;> simp [hx] at htag
  | some row =>
    obtain ⟨b, r⟩ := row
    have hout := step_outcome hsound.formed hidle hsound.awake hcur
    rw [hstep] at hout
    cases hout with
    | advance hadv =>
      obtain ⟨rest, hrest⟩ := hadv.ahead
      refine ⟨_, hadv.start_eq ▸ (Spot.place_of_ahead hrest).mono hadv.grows, ?_⟩
      rw [hadv.seen]
      simp
    | margin _ hmargin =>
      obtain ⟨-, -, -, -, -, htag⟩ := hmargin.exists_split
      simp [hx] at htag
    | spent hends => rcases hends.tag with htag | htag <;> simp [hx] at htag

/-- What has been passed stays where it is, and each further lexeme stops behind it. -/
theorem Passed.step (h : s.Passed p done) (hsound : Header.Sound source first s) (hidle : s.queued = [])
    {lexeme? : Option Lexeme} (hstep : s.step = (lexeme?, s')) (hawake : s'.exhausted = false) :
    s'.Passed p done ∧ ∀ x ∈ lexeme?, ∃ text, Place s'.rows x.stop (done ++ text) := by
  cases hcur : s.load.current with
  | none =>
    obtain ⟨x, s₁, hs₁, hends, -⟩ := step_ends hidle hsound.awake hcur
    obtain rfl := (Prod.mk.inj (hstep.symm.trans hs₁)).2
    exact absurd (hends.spent.exhausted.symm.trans hawake) (by simp)
  | some row =>
    obtain ⟨b, r⟩ := row
    have hout := step_outcome hsound.formed hidle hsound.awake hcur
    rw [hstep] at hout
    set w : Spot := ⟨s.load.past, b, r, s.load.feed⟩ with hw
    have hseen : s.seen = w.seen := seen_of_load hcur
    have hload : s.load.rows = w.rows := by simp [rows, Spot.rows, hcur, hw]
    have hplace : Place w.rows p done := h.1.mono (hload ▸ rows_prefix_load hcur)
    obtain ⟨rest, hrest⟩ : done <+: w.seen := hseen ▸ h.2
    cases hout with
    | quiet ha _ _ hpast hnone =>
      have hrows' : s'.rows = w.rows := by simp [rows, hnone, hpast]
      refine ⟨⟨hrows' ▸ hplace, rest ++ w.ahead, ?_⟩, by simp⟩
      rw [← List.append_assoc, hrest]
      simp [seen, behind, hnone, hpast, Spot.rows, Spot.seen]
    | @advance gap drop x _ hadv =>
      refine ⟨⟨hplace.mono hadv.grows, ?_⟩, ?_⟩
      · rw [hadv.seen, ← hrest]
        simp
      · rintro y ⟨⟩
        have hstop := hadv.stop
        rw [← hrest] at hstop
        exact ⟨rest ++ gap ++ x.text, by simpa using hstop⟩
    | margin hb hx _ hpast hcur' =>
      obtain rfl : b = [] := hb
      have hrows' : s'.rows = w.rows := by simp [rows, hcur', hpast, Spot.rows, hw]
      have hseen' : s'.seen = w.seen := by simp [seen, behind, hcur', hpast, Spot.seen, hw]
      refine ⟨⟨hrows' ▸ hplace, rest, hrest.trans hseen'.symm⟩, ?_⟩
      rintro y ⟨⟩
      obtain ⟨margin, text, hsplit, -, hstop, -⟩ := hx.exists_split
      refine ⟨rest ++ margin, w.past, margin, text, [], ?_, hstop, ?_⟩
      · rw [hrows', Spot.rows, ← hsplit]
        rfl
      · rw [← List.append_assoc, hrest]
        simp [Spot.seen, hw]
    | spent hends => exact absurd (hends.spent.exhausted.symm.trans hawake) (by simp)

end Scan

namespace Header

variable {source : Source} {first : Nat} {s s' s₁ : Scan} {d d' d₁ : Draft} {x x₀ : Lexeme} {xs : List Lexeme}
  {p : Position} {n : Nat} {done : Text} {outer : List Frame} {rows : List Text}

/-! ### Captures -/

/-- The states of scan and draft while a string with replacement fields is captured, from `s₁` and `d₁` on, and the
lexemes that have been taken in. -/
inductive Capture (s₁ : Scan) (d₁ : Draft) : List Lexeme → Scan → Draft → Prop
  | start : Capture s₁ d₁ [] s₁ d₁
  | quiet {xs : List Lexeme} {s s' : Scan} {d : Draft} {p : Position} {n : Nat} : Capture s₁ d₁ xs s d →
      d.mode = .fstring p n → s.step = (none, s') → Capture s₁ d₁ xs s' d
  | take {xs : List Lexeme} {x : Lexeme} {s s' : Scan} {d d' : Draft} {p : Position} {n : Nat} :
      Capture s₁ d₁ xs s d → d.mode = .fstring p n → s.step = (some x, s') → d.take s'.rows x = .ok d' →
      Capture s₁ d₁ (xs ++ [x]) s' d'

theorem Capture.reading (h : Capture s₁ d₁ xs s d) (hr : Reading source first s₁ d₁) :
    Reading source first s d := by
  induction h with
  | start => exact hr
  | quiet _ hmode hstep ih => exact ih.quiet (by simp [Draft.isComplete, hmode]) hstep
  | take _ hmode hstep htake ih => exact ih.take (by simp [Draft.isComplete, hmode]) hstep htake

/-- While a string is captured, the draft counts the strings that are open. It takes the source up to the end of the
outermost one. -/
theorem take_fstring (hmode : d.mode = .fstring p n) (htake : d.take rows x = .ok d') :
    (x.tag ≠ .error ∧ x.tag ≠ .endMarker) ∧
    if x.tag = .fstringEnd ∧ n ≤ 1 then
      d' = { (d.operand (slice rows p x.stop)).reach x.stop with mode := .plain }
    else d' = { d with mode := .fstring p (x.nestStrings n) } := by
  rw [Draft.take, hmode] at htake
  dsimp only at htake
  unfold Draft.inFString at htake
  split at htake
  · exact absurd htake (by simp)
  · exact absurd htake (by simp)
  · rename_i htag
    simp [htag, nestStrings, (Except.ok.inj htake).symm]
  · rename_i htag
    split at htake
    · rename_i hlast
      rw [if_pos ⟨htag, hlast⟩]
      exact ⟨by simp [htag], (Except.ok.inj htake).symm⟩
    · rename_i hnested
      simp [htag, nestStrings, hnested, (Except.ok.inj htake).symm]
  · rename_i hend herror hstart hclose
    have hnest : x.nestStrings n = n := by rw [nestStrings, if_neg hstart, if_neg hclose]
    rw [if_neg fun h ↦ hclose h.1, hnest, ← hmode]
    exact ⟨⟨herror, hend⟩, (Except.ok.inj htake).symm⟩

/-- The mode of a draft has no say in how an operand is folded. -/
theorem operand_mode (d : Draft) (mode mode' : Mode) (text : Text) (stop : Position) :
    { (({ d with mode } : Draft).operand text).reach stop with mode := mode' } =
      { (d.operand text).reach stop with mode := mode' } := by
  have hkind : ({ d with mode } : Draft).lastKind? = d.lastKind? := rfl
  simp only [Draft.operand, hkind]
  split <;> rfl

/-- The strings that are open while a string is captured: there are `n` above those of `outer`. If the source has
run out, what is left are dedents and the end marker. -/
def Capturing (x₀ : Lexeme) (outer : List Frame) (done : Text) (xs : List Lexeme) (n : Nat) (s : Scan) : Prop :=
  ∃ fs, s.frames = fs ++ outer ∧ fs.length = n ∧ 0 < n ∧ (s.exhausted = true ∨
    s.queued = [] ∧ s.exhausted = false ∧ Unfinished (x₀ :: xs) fs ∧ s.Passed x₀.start done)

/-- A string is captured: the lexemes are those of a whole string, and the source between its ends is folded into
the default value. -/
structure Captured (x₀ : Lexeme) (outer : List Frame) (d₁ : Draft) (xs : List Lexeme) (s : Scan) (d : Draft) :
    Prop where
  formatted : Formatted (x₀ :: xs)
  frames : s.frames = outer
  awake : s.exhausted = false
  folded : ∃ x ∈ xs.getLast?, x.tag = .fstringEnd ∧ ∃ done text, Place s.rows x₀.start done ∧
    Place s.rows x.stop (done ++ text) ∧ d = { (d₁.operand text).reach x.stop with mode := .plain }

/-- A step at the end of the source. -/
theorem Capturing.step_spent (h : Capturing x₀ outer done xs n s) (hspent : s.Spent) (hstep : s.step = (some x, s')) :
    x.tag ≠ .fstringEnd ∧ (x.tag ≠ .endMarker → x.nestStrings n = n ∧ Capturing x₀ outer done (xs ++ [x]) n s') := by
  obtain ⟨fs, hframes, hlength, hpos, -⟩ := h
  obtain ⟨y, s₂, hstep', hends, -⟩ := hspent.step
  obtain ⟨hy, rfl⟩ := Prod.mk.inj (hstep.symm.trans hstep')
  obtain rfl := Option.some.inj hy
  have hframes' : s'.frames = s.frames := by
    rw [show s'.frames = s.step.2.frames by rw [hstep], Scan.step, hspent.exhausted]
    split <;> rfl
  rcases hends.tag with htag | htag
  · refine ⟨by simp [htag], fun _ ↦ ⟨by simp [nestStrings, htag], fs, hframes'.trans hframes, hlength, hpos, ?_⟩⟩
    exact .inl hends.spent.exhausted
  · exact ⟨by simp [htag], fun h ↦ absurd htag h⟩

/-- A step in the midst of the source. -/
theorem Capturing.step (h : Capturing x₀ outer done xs n s) (hsound : Sound source first s)
    (hstep : s.step = (some x, s')) (hx : x.tag ≠ .error ∧ x.tag ≠ .endMarker) :
    if x.tag = .fstringEnd ∧ n ≤ 1 then
      Formatted (x₀ :: (xs ++ [x])) ∧ s'.frames = outer ∧ s'.exhausted = false ∧ Place s'.rows x₀.start done ∧
        ∃ text, Place s'.rows x.stop (done ++ text)
    else Capturing x₀ outer done (xs ++ [x]) (x.nestStrings n) s' := by
  obtain ⟨fs, hframes, rfl, hpos, hexhausted | ⟨hidle, -, hunfinished, hpassed⟩⟩ := h
  · exact absurd (hexhausted.symm.trans hsound.awake) (by simp)
  have heffect := step_effect hidle hsound.awake
  rw [hstep] at heffect
  have hopen : s.context.frames = fs ++ outer := hframes
  rcases hunfinished.step hopen heffect hx with
    ⟨htag, hframes', hexhausted⟩ | ⟨fs', hframes', hqueued, hexhausted, hlength, hnext⟩
  · have hnest : x.nestStrings fs.length = fs.length := by simp [nestStrings, htag]
    rw [if_neg (by simp [htag]), hnest]
    exact ⟨fs, hframes'.trans hframes, rfl, hpos, .inl hexhausted⟩
  have hawake : s'.exhausted = false := hexhausted.trans hsound.awake
  obtain ⟨hpassed', hstop⟩ := hpassed.step hsound hidle hstep hawake
  rcases hnext with hnext | ⟨rfl, htag, hformatted⟩
  · have hne := List.length_pos_iff.2 hnext.ne_nil
    rw [if_neg, ← hlength]
    · exact ⟨fs', hframes', rfl, hne, .inr ⟨hqueued.trans hidle, hawake, hnext, hpassed'⟩⟩
    · rintro ⟨htag, hlast⟩
      simp only [nestStrings, htag, reduceCtorEq, if_false, if_true] at hlength
      omega
  · rw [if_pos]
    · exact ⟨hformatted, hframes', hawake, hpassed'.1, hstop x rfl⟩
    · simp only [nestStrings, htag, reduceCtorEq, if_false, if_true, List.length_nil] at hlength
      exact ⟨htag, by omega⟩

/-- A step without a lexeme. -/
theorem Capturing.quiet (h : Capturing x₀ outer done xs n s) (hsound : Sound source first s)
    (hstep : s.step = (none, s')) : Capturing x₀ outer done xs n s' := by
  obtain ⟨fs, hframes, hlength, hpos, hexhausted | ⟨hidle, -, hunfinished, hpassed⟩⟩ := h
  · exact absurd (hexhausted.symm.trans hsound.awake) (by simp)
  have heffect := step_effect hidle hsound.awake
  rw [hstep] at heffect
  cases heffect with
  | quiet hs' =>
    have hawake : s'.exhausted = false := (congrArg Context.exhausted hs').trans hsound.awake
    refine ⟨fs, (congrArg Context.frames hs').trans hframes, hlength, hpos, .inr ⟨?_, hawake, hunfinished, ?_⟩⟩
    · exact (congrArg Context.queued hs').trans hidle
    · exact (hpassed.step hsound hidle hstep hawake).1

/-- Where a string ends, its lexemes are those of a whole string. -/
theorem Capturing.exists_whole (h : Capturing x₀ outer done xs n s) (hsound : Sound source first s)
    (hstep : s.step = (some x, s')) (hx : x.tag = .fstringEnd) :
    ∃ f front string, s.frames = f :: s'.frames ∧ f.fields = [] ∧ x₀ :: xs = front ++ string ∧
      Formatted (string ++ [x]) := by
  obtain ⟨fs, hframes, -, -, hexhausted | ⟨hidle, -, hunfinished, -⟩⟩ := h
  · exact absurd (hexhausted.symm.trans hsound.awake) (by simp)
  have heffect := step_effect hidle hsound.awake
  rw [hstep] at heffect
  rcases heffect.of_quotes (.inr hx) with ⟨hstart, -⟩ | ⟨-, f, hclosed, hfields⟩
  · exact absurd (hx.symm.trans hstart) (by simp)
  · obtain ⟨g, gs, rfl⟩ := List.exists_cons_of_ne_nil hunfinished.ne_nil
    have hclosed' : s.frames = f :: s'.frames := hclosed
    obtain ⟨rfl, -⟩ := List.cons_eq_cons.1 (hframes.symm.trans hclosed')
    obtain ⟨front, string, hsplit, hformatted, -⟩ := hunfinished.close hfields hx
    exact ⟨g, front, string, hclosed', hfields, hsplit, hformatted⟩

/-- The start of a string in the header itself. -/
theorem Capturing.start {s₀ : Scan} (hsound : Sound source first s₀) (hstep : s₀.step = (some x₀, s₁))
    (hx₀ : x₀.tag = .fstringStart) : ∃ done, Capturing x₀ s₀.frames done [] 1 s₁ := by
  obtain ⟨done, hpassed⟩ := exists_passed hsound hstep hx₀
  have hidle := idle_of_start hsound hstep hx₀
  have heffect := step_effect hidle hsound.awake
  rw [hstep] at heffect
  rcases heffect.of_quotes (.inl hx₀) with ⟨-, q, hs'⟩ | ⟨htag, -⟩
  · refine ⟨done, [⟨q, []⟩], congrArg Context.frames hs', rfl, Nat.one_pos, .inr ⟨?_, ?_, ?_, hpassed⟩⟩
    · exact (congrArg Context.queued hs').trans hidle
    · exact (congrArg Context.exhausted hs').trans hsound.awake
    · exact .string hx₀ (.text .nil)
  · exact absurd (hx₀.symm.trans htag) (by simp)

/-- **The states of a capture.** A string is being captured, or it is captured. -/
theorem Capture.state {s₀ : Scan} {d₀ : Draft} (hr : Reading source first s₀ d₀) (hplain : d₀.mode = .plain)
    (hstep : s₀.step = (some x₀, s₁)) (hx₀ : x₀.tag = .fstringStart) (htake : d₀.take s₁.rows x₀ = .ok d₁)
    (hc : Capture s₁ d₁ xs s d) :
    Reading source first s d ∧
    ((∃ n done, d = { d₀.layout s₁.rows x₀.start with mode := .fstring x₀.start n } ∧
        Capturing x₀ s₀.frames done xs n s) ∨
      Captured x₀ s₀.frames (d₀.layout s₁.rows x₀.start) xs s d) := by
  have hincomplete : d₀.isComplete = false := by simp [Draft.isComplete, hplain]
  have hr₁ : Reading source first s₁ d₁ := hr.take hincomplete hstep htake
  refine ⟨hc.reading hr₁, ?_⟩
  induction hc with
  | start =>
    have hsound : Sound source first s₀ := by
      refine hr.sound.resolve_left fun h ↦ ?_
      obtain ⟨y, s₂, hstep', hends, -⟩ := h.1.step
      obtain rfl := Option.some.inj (Prod.mk.inj (hstep.symm.trans hstep')).1
      rcases hends.tag with htag | htag <;> simp [hx₀] at htag
    rw [Draft.take, hplain] at htake
    simp only [Draft.plain, hx₀] at htake
    obtain ⟨done, hstart⟩ := Capturing.start hsound hstep hx₀
    exact .inl ⟨1, done, (Except.ok.inj htake).symm, hstart⟩
  | quiet hc hmode hstep ih =>
    rcases ih with ⟨m, done, rfl, hcapturing⟩ | ⟨-, -, -, x, -, -, done, text, -, -, rfl⟩
    · rcases (hc.reading hr₁).sound with ⟨hspent, -⟩ | hsound
      · obtain ⟨y, s₂, hstep', -⟩ := hspent.step
        exact absurd (hstep.symm.trans hstep') (by simp)
      · exact .inl ⟨m, done, rfl, hcapturing.quiet hsound hstep⟩
    · exact absurd hmode (by simp)
  | @take xs x s s' d d' p n hc hmode hstep htake ih =>
    rcases ih with ⟨m, done, rfl, hcapturing⟩ | ⟨-, -, -, y, -, -, done, text, -, -, rfl⟩
    · obtain ⟨hx, hd'⟩ := take_fstring rfl htake
      rcases (hc.reading hr₁).sound with ⟨hspent, -⟩ | hsound
      · obtain ⟨hend, hnext⟩ := hcapturing.step_spent hspent hstep
        obtain ⟨hnest, hcapturing'⟩ := hnext hx.2
        rw [if_neg fun h ↦ hend h.1, hnest] at hd'
        exact .inl ⟨m, done, hd', hcapturing'⟩
      · have hcapturing' := hcapturing.step hsound hstep hx
        split at hd' <;> rename_i hlast
        · rw [if_pos hlast] at hcapturing'
          obtain ⟨hformatted, hframes, hawake, hstart, text, hstop⟩ := hcapturing'
          rw [hstart.slice_eq hstop] at hd'
          refine .inr ⟨hformatted, hframes, hawake, x, by simp, hlast.1, done, text, hstart, hstop, ?_⟩
          exact hd'.trans (operand_mode ..)
        · rw [if_neg hlast] at hcapturing'
          exact .inl ⟨_, done, hd', hcapturing'⟩
    · exact absurd hmode (by simp)

/-- **Strings with replacement fields are captured whole.** While a string in the header is captured, the draft
counts as many strings as the scan has frames above those that were open before. Where a string ends, each field
that was opened in it has been closed, and its lexemes are those of a whole string. So the draft takes the source
from the start of the string to the end of that very string. -/
theorem capture_whole {s₀ : Scan} {d₀ : Draft} (hr : Reading source first s₀ d₀) (hplain : d₀.mode = .plain)
    (hstep : s₀.step = (some x₀, s₁)) (hx₀ : x₀.tag = .fstringStart) (htake : d₀.take s₁.rows x₀ = .ok d₁)
    (hc : Capture s₁ d₁ xs s d) :
    (∀ {p n}, d.mode = .fstring p n → p = x₀.start ∧ 0 < n ∧
      ∃ opened, s.frames = opened ++ s₀.frames ∧ opened.length = n) ∧
    (∀ {p n x s'}, d.mode = .fstring p n → s.step = (some x, s') → x.tag = .fstringEnd →
      ∃ f front string, s.frames = f :: s'.frames ∧ f.fields = [] ∧ x₀ :: xs = front ++ string ∧
        Formatted (string ++ [x])) ∧
    (d.mode = .plain → Formatted (x₀ :: xs) ∧ s.frames = s₀.frames ∧ s.rows.map some <+: source.drop first ∧
      ∃ x ∈ xs.getLast?, x.tag = .fstringEnd ∧
        ∃ done text, Place s.rows x₀.start done ∧ Place s.rows x.stop (done ++ text) ∧
          d = { ((d₀.layout s₁.rows x₀.start).operand text).reach x.stop with mode := .plain }) := by
  obtain ⟨hreading, hstate⟩ := hc.state hr hplain hstep hx₀ htake
  rcases hstate with ⟨m, done, rfl, hcapturing⟩ | hcaptured
  · refine ⟨fun hmode ↦ ?_, fun {p n x s'} _ hstep' hx ↦ ?_, fun hmode ↦ absurd hmode (by simp)⟩
    · obtain ⟨rfl, rfl⟩ : x₀.start = _ ∧ m = _ := by simpa using hmode
      obtain ⟨opened, hframes, hlength, hpos, -⟩ := hcapturing
      exact ⟨rfl, hpos, opened, hframes, hlength⟩
    · rcases hreading.sound with ⟨hspent, -⟩ | hsound
      · exact absurd hx (hcapturing.step_spent hspent hstep').1
      · exact hcapturing.exists_whole hsound hstep' hx
  · obtain ⟨hformatted, hframes, hawake, hfolded⟩ := hcaptured
    have hsound := hreading.sound.resolve_left fun h ↦ by simp [h.1.exhausted] at hawake
    have hprefix : s.rows.map some <+: source.drop first := ⟨_, hsound.supply⟩
    obtain ⟨x, -, -, done, text, -, -, hd⟩ := id hfolded
    have hmode : d.mode = .plain := by rw [hd]
    exact ⟨fun h ↦ by simp [hmode] at h, fun h ↦ by simp [hmode] at h,
      fun _ ↦ ⟨hformatted, hframes, hprefix, hfolded⟩⟩

/-- A string over two rows, with a field in a format specification and a string in a field. -/
theorem capture_whole_nested :
    let source := (Document.ofText "def f(a=f\"\"\"\x7bx:\x7bw\x7d\x7d\n\x7bf'\x7by\x7d'\x7d\"\"\"):\n".toList).source
    ∃ s₀ d₀ x₀ s₁ d₁ xs s d, Reading source 0 s₀ d₀ ∧ d₀.mode = .plain ∧ s₀.step = (some x₀, s₁) ∧
      x₀.tag = .fstringStart ∧ d₀.take s₁.rows x₀ = .ok d₁ ∧ Capture s₁ d₁ xs s d ∧ d.mode = .plain ∧
      Formatted (x₀ :: xs) ∧ s.frames = s₀.frames ∧
      d.written.head? =
        some (.of .argumentDefault "f\"\"\"\x7bx:\x7bw\x7d\x7d\n\x7bf'\x7by\x7d'\x7d\"\"\"".toList) := by
  intro source
  have hstart : ∀ {s₀ s₁ : Scan} {d₀ d₁ : Draft} {x₀ : Lexeme}, Reading source 0 s₀ d₀ →
      s₀.step = (some x₀, s₁) → d₀.take s₁.rows x₀ = .ok d₁ → Capture s₁ d₁ [] s₁ d₁ := fun _ _ _ ↦ .start
  have hr : Reading source 0 _ _ := .start
  -- up to the equals sign
  iterate 5 replace hr := hr.take rfl rfl rfl
  have hc := hstart hr rfl rfl
  iterate 16 replace hc := hc.take rfl rfl rfl
  have hwhole := (capture_whole hr rfl rfl rfl rfl hc).2.2 rfl
  exact ⟨_, _, _, _, _, _, _, _, hr, rfl, rfl, rfl, rfl, hc, rfl, hwhole.1, hwhole.2.1, rfl⟩

end Header

end HeaderHints
