import HeaderHints.Proofs.LayoutRun
import HeaderHints.Proofs.ScanProgress
import HeaderHints.Suggestion.Basic

/-!
# Lazy reading

A header is read from the lines it stands on and from no other line. Lines are asked for in order and each of
them once (`Header.read_asked`), reading depends on the lines it asks for only (`Header.read_congr`), and where
a header is read these lines are its rows, the last of which has the colon that closes it
(`Header.read_asked_of_ok`). `Suggestion.fill_reads_lazily` says so of filling in a header.

For the dependence, two runs are compared whose sources answer alike below some line. Their scans differ in the
feed only (`Scan.Alike`), and a step that asks for no line beyond keeps them so. The runs have different bounds,
which are measured on what is left of the sources; each can be replaced by the sum of the two, since a larger
bound makes no difference.
-/

namespace HeaderHints

open Lexeme

/-- What a source answers when line `i` is asked for. -/
def Source.line (source : Source) (i : Nat) : Option Text :=
  source[i]?.join

namespace Feed

variable {f g : Feed} {last : Nat}

/-- Two feeds that have been read alike, and that answer alike below line `last`. -/
structure Alike (last : Nat) (f g : Feed) : Prop where
  index : g.index = f.index
  asked : g.asked = f.asked
  lines : ∀ i, f.index + i < last → Source.line g.upcoming i = Source.line f.upcoming i

/-- A request depends on the next line only. -/
theorem ask_eq_line (f : Feed) :
    f.ask = match Source.line f.upcoming 0 with
      | some (c :: t) => (some (c :: t), ⟨f.upcoming.tail, f.index + 1, f.asked ++ [f.index]⟩)
      | _ => (none, ⟨[], f.index + 1, f.asked ++ [f.index]⟩) := by
  obtain ⟨upcoming, index, asked⟩ := f
  match upcoming with
  | [] => rfl
  | none :: more => rfl
  | some [] :: more => rfl
  | some (c :: t) :: more => rfl

theorem Alike.ask (h : f.Alike last g) (hlast : f.index < last) :
    g.ask.1 = f.ask.1 ∧ f.ask.2.Alike last g.ask.2 := by
  rw [ask_eq_line, ask_eq_line f, h.lines 0 hlast, h.index, h.asked]
  split
  · refine ⟨rfl, rfl, rfl, fun i hi ↦ ?_⟩
    have hline := h.lines (i + 1) (by simp only at hi; omega)
    simpa [Source.line] using hline
  · exact ⟨rfl, rfl, rfl, fun _ _ ↦ rfl⟩

end Feed

namespace Scan

variable {s t : Scan} {last : Nat}

/-- Two scans that differ in their feeds only, and these are alike below line `last`. -/
def Alike (last : Nat) (s t : Scan) : Prop :=
  ∃ g, s.feed.Alike last g ∧ t = { s with feed := g }

/-- Results that differ in the feeds of their scans only, and these are alike below line `last`. -/
def SameResult {α : Type} (last : Nat) (r r' : α × Scan) : Prop :=
  r'.1 = r.1 ∧ r.2.Alike last r'.2

theorem Alike.rows (h : s.Alike last t) : t.rows = s.rows := by
  obtain ⟨g, -, rfl⟩ := h
  rfl

theorem Alike.load (h : s.Alike last t) (hlast : s.load.feed.index ≤ last) :
    s.load.Alike last t.load := by
  obtain ⟨g, hg, rfl⟩ := h
  by_cases hcur : s.current = none
  · have hload := load_eq_ask hcur
    have hindex : s.feed.ask.2.index = s.feed.index + 1 := by
      rcases s.feed.ask_eq with ⟨c, t, more, -, hask⟩ | ⟨-, hask⟩ <;> rw [hask]
    have hlt : s.feed.index < last := by
      rw [hload, hindex] at hlast
      omega
    obtain ⟨hrow, hfeed⟩ := hg.ask hlt
    refine ⟨g.ask.2, by rw [hload]; exact hfeed, ?_⟩
    rw [load_eq_ask (s := { s with feed := g }) hcur, hload, hrow]
  · obtain ⟨p, hp⟩ := Option.ne_none_iff_exists'.1 hcur
    rw [load_of_some hp, load_of_some (s := { s with feed := g }) hp]
    exact ⟨g, hg, rfl⟩

/-! ### Steps that ask for nothing -/

theorem Alike.finish (h : s.Alike last t) : SameResult last s.finish t.finish := by
  obtain ⟨g, hg, rfl⟩ := h
  unfold Scan.finish
  dsimp only
  split <;> exact ⟨rfl, g, hg, rfl⟩

theorem Alike.literal (h : s.Alike last t) (frame : Frame) (b r : Text) :
    SameResult last (s.literal frame b r) (t.literal frame b r) := by
  obtain ⟨g, hg, rfl⟩ := h
  unfold Scan.literal
  dsimp only
  generalize splitLiteral frame.quotes (!frame.fields.isEmpty) r = parts
  split
  · split
    · exact ⟨rfl, g, hg, rfl⟩
    split <;> exact ⟨rfl, g, hg, rfl⟩
  · exact ⟨rfl, g, hg, rfl⟩
  · split <;> exact ⟨rfl, g, hg, rfl⟩
  · exact ⟨rfl, g, hg, rfl⟩
  · split <;> exact ⟨rfl, g, hg, rfl⟩
  · exact ⟨rfl, g, hg, rfl⟩

theorem Alike.indentation (h : s.Alike last t) (row : Text) :
    SameResult last (s.indentation row) (t.indentation row) := by
  obtain ⟨g, hg, rfl⟩ := h
  unfold Scan.indentation
  dsimp only
  split
  · exact ⟨rfl, g, hg, rfl⟩
  split
  · exact ⟨rfl, g, hg, rfl⟩
  · dsimp only [mark, position]
    split <;> rename_i hdue <;> rw [hdue] <;> exact ⟨rfl, g, hg, rfl⟩

/-! ### Strings -/

theorem stringRows_later {q : Quotes} {opening : Position} (n : Nat) :
    ∀ s : Scan, s.feed.index ≤ (stringRows q opening n s).2.feed.index := by
  induction n with
  | zero => exact fun s ↦ (reaches_self s).finish.later
  | succ n ih =>
    intro s
    rw [stringRows]
    split
    · exact (reaches_self s).finish.later
    · split
      · exact Nat.le_refl _
      · exact Nat.le_refl _
      · exact (reaches_load s.leaveRow).later.trans (ih _)

theorem Alike.stringRows {q : Quotes} {opening : Position} (n : Nat) :
    ∀ {s t : Scan}, s.Alike last t → (stringRows q opening n s).2.feed.index ≤ last →
      SameResult last (stringRows q opening n s) (stringRows q opening n t) := by
  induction n with
  | zero => exact fun h _ ↦ h.finish
  | succ n ih =>
    rintro s _ ⟨g, hg, rfl⟩ hlast
    rw [Scan.stringRows] at hlast ⊢
    rw [Scan.stringRows]
    dsimp only
    split
    · exact Alike.finish ⟨g, hg, rfl⟩
    · rename_i before rest hcur
      simp only [hcur] at hlast
      split
      · exact ⟨rfl, g, hg, rfl⟩
      · exact ⟨rfl, g, hg, rfl⟩
      · rename_i hbody
        simp only [hbody] at hlast
        have hleave : s.leaveRow.Alike last ({ s with feed := g } : Scan).leaveRow := ⟨g, hg, rfl⟩
        exact ih (hleave.load ((stringRows_later n _).trans hlast)) hlast

theorem Alike.string (h : s.Alike last t) {before word rest : Text} {q : Quotes}
    (hlast : (s.string before word q rest).2.feed.index ≤ last) :
    SameResult last (s.string before word q rest) (t.string before word q rest) := by
  obtain ⟨g, hg, rfl⟩ := h
  rw [Scan.string] at hlast ⊢
  rw [Scan.string]
  dsimp only at hlast ⊢
  split
  · exact ⟨rfl, g, hg, rfl⟩
  · rename_i hword
    rw [if_neg hword] at hlast
    -- the two bounds are large enough, so both can be taken for their sum
    rw [← stringRows_add (g.upcoming.length + 2) _ (by simp [rowsLeft])] at hlast ⊢
    rw [← stringRows_add (s.feed.upcoming.length + 2) (g.upcoming.length + 2) (by simp [rowsLeft]),
      Nat.add_comm (g.upcoming.length + 2)]
    exact Alike.stringRows _ ⟨g, hg, rfl⟩ hlast

/-! ### Steps -/

theorem Alike.plain (h : s.Alike last t) {b r : Text} (hlast : (s.plain b r).2.feed.index ≤ last) :
    SameResult last (s.plain b r) (t.plain b r) := by
  obtain ⟨g, hg, rfl⟩ := h
  have halike : s.Alike last { s with feed := g } := ⟨g, hg, rfl⟩
  revert hlast
  unfold Scan.plain
  generalize r.span isGap = parts
  obtain ⟨gap, rest⟩ := parts
  dsimp only
  match rest with
  | [] => exact fun _ ↦ ⟨rfl, g, hg, rfl⟩
  | c :: t =>
    dsimp only
    split
    · exact fun _ ↦ ⟨rfl, g, hg, rfl⟩
    split
    · exact fun _ ↦ ⟨rfl, g, hg, rfl⟩
    split
    · split <;> exact fun _ ↦ ⟨rfl, g, hg, rfl⟩
    split
    · exact fun _ ↦ ⟨rfl, g, hg, rfl⟩
    split
    · exact fun _ ↦ ⟨rfl, g, hg, rfl⟩
    split
    · exact halike.string
    split
    · split
      · split
        · exact halike.string
        · exact fun _ ↦ ⟨rfl, g, hg, rfl⟩
      · exact fun _ ↦ ⟨rfl, g, hg, rfl⟩
    split <;> exact fun _ ↦ ⟨rfl, g, hg, rfl⟩

/-- A step asks for the row it reads first. -/
theorem load_later (hidle : s.queued = []) (hawake : s.exhausted = false) :
    s.load.feed.index ≤ s.step.2.feed.index := by
  have hidle' : s.load.queued = [] := by rw [load_queued, hidle]
  have hawake' : s.load.exhausted = false := by rw [load_exhausted, hawake]
  by_cases hcur : s.load.current = none
  · rw [step_eq_finish hidle hawake hcur]
    exact (reaches_self _).finish.later
  · obtain ⟨p, hp⟩ := Option.ne_none_iff_exists'.1 hcur
    have hstep : s.load.step = s.step := by
      simp only [Scan.step, hidle, hawake, hidle', hawake', load_of_some hp, Bool.false_eq_true, if_false]
    rw [← hstep]
    exact (step_progress s.load).later

/-- **A step depends on the lines it asks for only.** -/
theorem Alike.step (h : s.Alike last t) (hlast : s.step.2.feed.index ≤ last) :
    SameResult last s.step t.step := by
  have hload : s.queued = [] → s.exhausted = false → s.load.Alike last t.load := fun hidle hawake ↦
    h.load ((load_later hidle hawake).trans hlast)
  obtain ⟨g, hg, rfl⟩ := h
  revert hlast
  unfold Scan.step
  dsimp only
  split
  · exact fun _ ↦ ⟨rfl, g, hg, rfl⟩
  rename_i hidle
  split
  · exact fun _ ↦ ⟨rfl, g, hg, rfl⟩
  rename_i hawake
  obtain ⟨g', hg', ht⟩ := hload hidle (by simpa using hawake)
  have halike : s.load.Alike last { s.load with feed := g' } := ⟨g', hg', rfl⟩
  rw [ht]
  dsimp only
  split
  · exact fun _ ↦ halike.finish
  · split
    · exact fun _ ↦ halike.literal _ _ _
    · exact halike.plain
  · rename_i before rest _ _
    split
    · have hind := halike.indentation rest
      generalize s.load.indentation rest = r at hind ⊢
      generalize ({ s.load with feed := g' } : Scan).indentation rest = r' at hind ⊢
      obtain ⟨x?, s₁⟩ := r
      obtain ⟨y?, t₁⟩ := r'
      obtain ⟨rfl, h₁⟩ := hind
      cases y? with
      | some x => exact fun _ ↦ ⟨rfl, h₁⟩
      | none => exact h₁.plain
    · exact halike.plain

/-! ### Runs -/

theorem Alike.nextWithin (n : Nat) :
    ∀ {s t : Scan}, s.Alike last t → (nextWithin n s).2.feed.index ≤ last →
      SameResult last (nextWithin n s) (nextWithin n t) := by
  induction n with
  | zero =>
    rintro s _ ⟨g, hg, rfl⟩ _
    exact ⟨rfl, g, hg, rfl⟩
  | succ n ih =>
    intro s t h hlast
    rw [Scan.nextWithin] at hlast ⊢
    rw [Scan.nextWithin]
    have hstep : s.step.2.feed.index ≤ last → SameResult last s.step t.step := h.step
    generalize s.step = r at hstep hlast ⊢
    generalize t.step = r' at hstep ⊢
    obtain ⟨x?, s₁⟩ := r
    obtain ⟨y?, t₁⟩ := r'
    cases x? with
    | some x =>
      obtain ⟨rfl, h₁⟩ := hstep hlast
      exact ⟨rfl, h₁⟩
    | none =>
      obtain ⟨rfl, h₁⟩ := hstep ((nextWithin_progress n s₁).later.trans hlast)
      exact ih h₁ hlast

theorem Alike.next (h : s.Alike last t) (hlast : s.next.2.feed.index ≤ last) :
    SameResult last s.next t.next := by
  have hleft : ∀ s : Scan, s.rowsLeft < s.feed.upcoming.length + 3 := by
    intro s
    have hcur : s.current.toList.length ≤ 1 := by cases s.current <;> simp
    rw [rowsLeft]
    omega
  rw [Scan.next] at hlast ⊢
  rw [Scan.next]
  rw [← nextWithin_add (t.feed.upcoming.length + 3) _ (hleft s)] at hlast ⊢
  rw [← nextWithin_add (s.feed.upcoming.length + 3) _ (hleft t), Nat.add_comm (t.feed.upcoming.length + 3)]
  exact Alike.nextWithin _ h hlast

end Scan

namespace Header

open Scan

variable {last : Nat}

theorem readWithin_alike (n : Nat) :
    ∀ {s t : Scan} {d : Draft}, s.Alike last t → (readWithin n s d).2.feed.index ≤ last →
      SameResult last (readWithin n s d) (readWithin n t d) := by
  induction n with
  | zero => exact fun h _ ↦ ⟨rfl, h⟩
  | succ n ih =>
    intro s t d h hlast
    rw [readWithin] at hlast ⊢
    rw [readWithin]
    have hnext : s.next.2.feed.index ≤ last → SameResult last s.next t.next := h.next
    generalize s.next = r at hnext hlast ⊢
    generalize t.next = r' at hnext ⊢
    obtain ⟨x, s₁⟩ := r
    obtain ⟨y, t₁⟩ := r'
    dsimp only at hlast hnext ⊢
    have hindex : s₁.feed.index ≤ last := by
      refine le_trans ?_ hlast
      split
      · exact Nat.le_refl _
      · split
        · exact Nat.le_refl _
        · exact (readWithin_progress n).1
    obtain ⟨hxy, h₁⟩ := hnext hindex
    obtain rfl : y = x := hxy
    -- what is taken in depends on the rows that have been read, and these are the same
    have hrows : t₁.rows = s₁.rows := Alike.rows h₁
    rw [hrows]
    revert hlast
    split
    · exact fun _ ↦ ⟨rfl, h₁⟩
    · split
      · exact fun _ ↦ ⟨rfl, h₁⟩
      · exact ih h₁

variable {source source' : Source} {first : Nat}

theorem requested_start (source : Source) (first : Nat) : (Scan.start source first).Requested first :=
  ⟨Feed.orderly_start source first, fun _ ↦ rfl⟩

theorem orderly_read (source : Source) (first : Nat) :
    (readWithin ((Scan.start source first).weight + 1) (Scan.start source first) {}).2.feed.Orderly first :=
  ((readWithin_progress _).2 (requested_start source first)).orderly

/-- **Lines are asked for in order**, each of them once. -/
theorem read_asked (source : Source) (first : Nat) : ∃ n, (read source first).2 = List.range' first n := by
  obtain ⟨n, hasked, -⟩ := orderly_read source first
  exact ⟨n, hasked⟩

/-- **Reading depends on the lines it asks for only.** -/
theorem read_congr (h : ∀ i ∈ (read source first).2, source'.line i = source.line i) :
    read source' first = read source first := by
  obtain ⟨n, hasked, hindex⟩ := orderly_read source first
  have hstart : (Scan.start source first).Alike (first + n) (Scan.start source' first) := by
    refine ⟨.start source' first, ⟨rfl, rfl, fun i hi ↦ ?_⟩, rfl⟩
    have hmem : first + i ∈ (read source first).2 := by
      rw [show (read source first).2 = List.range' first n from hasked, List.mem_range'_1]
      exact ⟨Nat.le_add_right _ _, hi⟩
    simpa [Source.line, Scan.start, Feed.start, List.getElem?_drop] using h _ hmem
  -- the two bounds are large enough, so both can be taken for their sum
  have hbound : ∀ (source : Source) (k : Nat),
      readWithin ((Scan.start source first).weight + 1 + k) (Scan.start source first) {} =
        readWithin ((Scan.start source first).weight + 1) (Scan.start source first) {} := fun source k ↦
    readWithin_add k _ (Nat.lt_succ_of_le (budget_le_weight _)) rfl
  have hsame := readWithin_alike
    ((Scan.start source first).weight + 1 + ((Scan.start source' first).weight + 1)) (d := {}) hstart
  rw [hbound, Nat.add_comm ((Scan.start source first).weight + 1), hbound] at hsame
  obtain ⟨hresult, g, hg, hscan⟩ := hsame hindex.le
  have hasked' : (read source' first).2 =
      (readWithin ((Scan.start source' first).weight + 1) (Scan.start source' first) {}).2.feed.asked := rfl
  rw [hscan] at hasked'
  exact Prod.ext hresult (hasked'.trans hg.asked)

/-! ### The colon that closes a header -/

/-- The lexeme `x` closes the header at line `first`: it is the one that makes the draft complete. -/
def ClosedBy (source : Source) (first : Nat) (x : Lexeme) : Prop :=
  ∃ s d s' d', Reading source first s d ∧ d.isComplete = false ∧ s.step = (some x, s') ∧
    d.take s'.rows x = .ok d' ∧ d'.isComplete = true

theorem isComplete_iff {d : Draft} : d.isComplete = true ↔ d.mode = .complete := by
  unfold Draft.isComplete
  split <;> simp_all

/-- A lexeme of the header itself completes it only if it is a colon that closes it. -/
theorem colon_of_plain {d d' : Draft} {rows : List Text} {x : Lexeme} (hm : d.mode = .plain)
    (h : d.plain rows x = .ok d') (hd' : d'.mode = .complete) :
    x.tag = .op ∧ x.text = [':'] ∧ ∃ d₀ : Draft, d' = d₀.close rows x := by
  by_cases hmargin : x.tag = .indent ∨ x.tag = .dedent
  · obtain rfl : d = d' := by rcases hmargin with htag | htag <;> simpa [Draft.plain, htag] using h
    exact absurd (hm.symm.trans hd') (by simp)
  · rw [not_or] at hmargin
    rcases plain_lands hm h hmargin.1 hmargin.2 with
      ⟨htag, htext, -, hclose⟩ | ⟨-, hm', -⟩ | ⟨-, hm'⟩ | ⟨-, ⟨-, -, hm'⟩ | ⟨hm', -⟩⟩
    · exact ⟨htag, htext, _, hclose⟩
    all_goals exact absurd (hm'.symm.trans hd') (by simp)

/-- A header is complete only after the colon that closes it. -/
theorem colon_of_complete {d d' : Draft} {rows : List Text} {x : Lexeme} (hd : d.isComplete = false)
    (htake : d.take rows x = .ok d') (hd' : d'.isComplete = true) :
    x.tag = .op ∧ x.text = [':'] ∧ ∃ d₀ : Draft, d' = d₀.close rows x := by
  rw [isComplete_iff] at hd'
  unfold Draft.take at htake
  split at htake
  · exact colon_of_plain ‹_› htake hd'
  · rcases Draft.inLambda_cases htake with ⟨-, hplain⟩ | ⟨depth, colon, rfl⟩
    · exact colon_of_plain rfl hplain hd'
    · exact absurd hd' (by simp)
  · rename_i hm
    rcases Draft.inFString_cases hm htake with ⟨-, rfl⟩ | ⟨nesting, rfl⟩ <;> exact absurd hd' (by simp)
  · rename_i hm
    rw [isComplete_iff.2 hm] at hd
    exact absurd hd (by simp)

/-- An operator stands in the last row that has been read. -/
theorem Sound.row_of_op {s s' : Scan} {x : Lexeme} (h : Sound source first s) (hstep : s.step = (some x, s'))
    (hx : x.tag = .op) : x.start.row + 1 = s'.rows.length := by
  cases hq : s.queued with
  | cons y queued =>
    obtain ⟨row, -, hall⟩ := h.queue.resolve_left (by simp [hq])
    obtain ⟨-, -, -, -, -, htag⟩ := (hall y (by simp [hq])).exists_split
    rw [step_of_queued hq] at hstep
    obtain rfl := Option.some.inj (Prod.mk.inj hstep).1
    simp [hx] at htag
  | nil =>
    cases hcur : s.load.current with
    | none =>
      obtain ⟨y, s₁, hs₁, hends, -⟩ := step_ends hq h.awake hcur
      obtain rfl := Option.some.inj (Prod.mk.inj (hstep.symm.trans hs₁)).1
      have htag := hends.tag
      simp [hx] at htag
    | some p =>
      have hout := step_outcome h.formed hq h.awake hcur
      rw [hstep] at hout
      cases hout with
      | advance hadv _ _ _ _ =>
        obtain ⟨b, r, hcur', -⟩ | ⟨_, -, -, -, htag⟩ := hadv.lands
        · rw [hadv.start_eq, rows, hcur', hadv.level hx]
          simp
        · simp [hx] at htag
      | margin _ hmargin _ _ _ _ _ _ _ =>
        obtain ⟨-, -, -, -, -, htag⟩ := hmargin.exists_split
        simp [hx] at htag
      | spent hends _ _ _ =>
        have htag := hends.tag
        simp [hx] at htag

/-- **A header is closed by a colon** in the last row that has been read. -/
theorem Reading.closedBy {s : Scan} {d : Draft} (h : Reading source first s d) (hd : d.isComplete = true) :
    ∃ x, ClosedBy source first x ∧ x.tag = .op ∧ x.text = [':'] ∧ x.start.row + 1 = s.rows.length := by
  cases h with
  | start => exact absurd hd (by simp [Draft.isComplete])
  | quiet _ hd' _ => exact absurd (hd.symm.trans hd') (by simp)
  | @take s₀ _ d₀ _ x hr hd₀ hstep htake =>
    obtain ⟨htag, htext, -⟩ := colon_of_complete hd₀ htake hd
    refine ⟨x, ⟨s₀, d₀, s, d, hr, hd₀, hstep, htake, hd⟩, htag, htext, ?_⟩
    rcases hr.sound with ⟨hspent, -⟩ | hsound
    · obtain ⟨y, s₁, hs₁, hends, -⟩ := hspent.step
      obtain rfl := Option.some.inj (Prod.mk.inj (hstep.symm.trans hs₁)).1
      have hend := hends.tag
      simp [htag] at hend
    · exact hsound.row_of_op hstep htag

theorem Reading.requested {s : Scan} {d : Draft} (h : Reading source first s d) : s.Requested first := by
  induction h with
  | start => exact requested_start source first
  | @quiet s s' d _ _ hstep ih =>
    have hprogress := step_progress s
    rw [hstep] at hprogress
    exact hprogress.requested ih
  | @take s s' d d' x _ _ hstep _ ih =>
    have hprogress := step_progress s
    rw [hstep] at hprogress
    exact hprogress.requested ih

/-- **The lines of a header that is read** are those that were asked for, and the last of them has the colon
that closes the header. -/
theorem read_asked_of_ok {header : Header} {asked : List Nat} (h : read source first = (.ok header, asked)) :
    asked = List.range' first header.lineCount ∧
      ∃ colon, ClosedBy source first colon ∧ colon.tag = .op ∧ colon.text = [':'] ∧
        header.lineCount = colon.start.row + 1 := by
  obtain ⟨s, d, hr, hd, rfl, rfl⟩ := exists_reading_of_read_eq h
  obtain ⟨x, hclosed, htag, htext, hrow⟩ := hr.closedBy hd
  obtain ⟨⟨n, hasked, hindex⟩, hrows⟩ := hr.requested
  refine ⟨?_, x, hclosed, htag, htext, hrow.symm⟩
  rcases hr.sound with ⟨-, hd'⟩ | hsound
  · exact absurd (hd.symm.trans hd') (by simp)
  · have hn : n = s.rows.length := by
      have := hrows hsound.awake
      omega
    rw [hasked, hn]

end Header

namespace Suggestion

theorem fill_asked (s : Suggestion) (source : Source) :
    (s.fill source).2 = (Header.read source s.line).2 := by
  unfold fill
  split <;> rename_i hread <;> rw [hread]

theorem lineCount_of_fill {s : Suggestion} {source : Source} {filled : Filled}
    (h : (s.fill source).1 = .ok filled) :
    ∃ header, Header.read source s.line = (.ok header, (s.fill source).2) ∧
      filled.lineCount = header.lineCount := by
  rw [fill_asked]
  unfold fill at h
  split at h
  · exact absurd h (by simp)
  · rename_i header asked hread
    obtain ⟨types, -, h₁⟩ := bind_eq_ok.1 h
    obtain ⟨text, -, h₂⟩ := bind_eq_ok.1 h₁
    obtain rfl := Except.ok.inj h₂
    exact ⟨header, by rw [hread], rfl⟩

/-- **Lines are asked for lazily.** Filling in a header asks for the lines from that of the suggestion on, each
of them once and in order, whether it succeeds or not, and it depends on these lines only. If it succeeds, they
are the rows that the result takes the place of, and the last of them has the colon that closes the header. -/
theorem fill_reads_lazily (s : Suggestion) (source : Source) :
    (∃ n, (s.fill source).2 = List.range' s.line n) ∧
    (∀ source' : Source, (∀ i ∈ (s.fill source).2, source'.line i = source.line i) →
      s.fill source' = s.fill source) ∧
    ∀ filled, (s.fill source).1 = .ok filled →
      (s.fill source).2 = List.range' s.line filled.lineCount ∧
      ∃ colon, Header.ClosedBy source s.line colon ∧ colon.tag = .op ∧ colon.text = [':'] ∧
        filled.lineCount = colon.start.row + 1 := by
  refine ⟨?_, fun source' h ↦ ?_, fun filled h ↦ ?_⟩
  · rw [fill_asked]
    exact Header.read_asked source s.line
  · rw [fill_asked] at h
    rw [fill, fill, Header.read_congr h]
  · obtain ⟨header, hread, hcount⟩ := lineCount_of_fill h
    rw [hcount]
    exact Header.read_asked_of_ok hread

/-- The header stands on two lines, so the third one does not matter, and the colon is in row 1. -/
theorem fill_reads_lazily_two :
    fill ⟨none, 0, none, 0, ["int".toList], "None".toList⟩
        [some "def f(a,\n".toList, some "      b): pass\n".toList] =
      fill ⟨none, 0, none, 0, ["int".toList], "None".toList⟩
        [some "def f(a,\n".toList, some "      b): pass\n".toList, some "'''\n".toList] ∧
    ∃ colon, Header.ClosedBy
        [some "def f(a,\n".toList, some "      b): pass\n".toList, some "'''\n".toList] 0 colon ∧
      colon.start.row = 1 := by
  have hfill : fill ⟨none, 0, none, 0, ["int".toList], "None".toList⟩
        [some "def f(a,\n".toList, some "      b): pass\n".toList, some "'''\n".toList] =
      (.ok ⟨"def f(a,\n      b: int) -> None: pass".toList, 2⟩, [0, 1]) := by rfl
  obtain ⟨-, hsame, hok⟩ := fill_reads_lazily ⟨none, 0, none, 0, ["int".toList], "None".toList⟩
    [some "def f(a,\n".toList, some "      b): pass\n".toList, some "'''\n".toList]
  rw [hfill] at hsame hok
  obtain ⟨-, colon, hclosed, -, -, hrow⟩ := hok _ rfl
  exact ⟨hsame _ (by decide) |>.trans hfill.symm, colon, hclosed, (Nat.succ.inj hrow).symm⟩

end Suggestion

end HeaderHints
