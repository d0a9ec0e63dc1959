import Mathlib.Data.List.DropRight
import HeaderHints.Proofs.Lossless

/-!
# Line feeds of a header

Where lines are joined and where a lambda stands, a header may be written back on fewer rows than it was
read from. Elsewhere its tokens hold one line feed less than it has rows (`count_tokens_of_read`): each
line feed that the scan gets past is written once, as a line break or inside of a string, and the last one
is that of the row where the header ends, which is not written.

This is the account of `Kept` for line feeds. Folding an operator into a default value drops the blanks at
the end of the value, so it has to be known that these hold no line feed (`Draft.Tidy`).
-/

namespace HeaderHints

open Lexeme

namespace Text

/-- The character that ends a row. -/
def isFeed (c : Char) : Bool :=
  c == '\n'

theorem length_filter_isFeed (t : Text) : (t.filter isFeed).length = t.count '\n' := by
  rw [List.count, List.countP_eq_length_filter]
  rfl

theorem filter_isFeed_eq_nil {t : Text} : t.filter isFeed = [] ↔ '\n' ∉ t := by
  rw [List.filter_eq_nil_iff]
  simp only [isFeed, beq_iff_eq]
  exact ⟨fun h hmem ↦ h _ hmem rfl, fun h c hc hfeed ↦ h (hfeed ▸ hc)⟩

theorem isFeed_of_isGap (c : Char) (h : isGap c = true) : isFeed c = false := by
  simp only [isGap, Bool.or_eq_true, decide_eq_true_eq] at h
  rcases h with (rfl | rfl) | rfl <;> rfl

/-! ### Blanks at the end of a text -/

/-- The blanks at the end of a text hold no line feed. -/
def Solid (t : Text) : Prop :=
  (trimEnd t).filter isFeed = t.filter isFeed

/-- A text and the blanks at its end. -/
theorem trimEnd_append_blanks (t : Text) : ∃ blanks, trimEnd t ++ blanks = t ∧ ∀ c ∈ blanks, isBlank c = true := by
  refine ⟨(t.reverse.takeWhile isBlank).reverse, ?_, fun c hc ↦ ?_⟩
  · rw [trimEnd, ← List.reverse_append, List.takeWhile_append_dropWhile, List.reverse_reverse]
  · exact List.mem_takeWhile_imp (List.mem_reverse.1 hc)

theorem solid_of_notMem {t : Text} (h : '\n' ∉ t) : Solid t := by
  obtain ⟨blanks, hblanks, -⟩ := trimEnd_append_blanks t
  have htrim : '\n' ∉ trimEnd t := fun hmem ↦ h (hblanks ▸ List.mem_append_left _ hmem)
  rw [Solid, filter_isFeed_eq_nil.2 h, filter_isFeed_eq_nil.2 htrim]

theorem trimEnd_eq_self {t : Text} {c : Char} (h : t.getLast? = some c) (hc : isBlank c = false) :
    trimEnd t = t := by
  obtain ⟨u, rfl⟩ := List.getLast?_eq_some_iff.1 h
  simp [trimEnd, hc]

theorem trimEnd_append (t u : Text) :
    trimEnd (t ++ u) = if trimEnd u = [] then trimEnd t else t ++ trimEnd u := by
  simp only [trimEnd, List.reverse_append, List.dropWhile_append, List.reverse_eq_nil_iff,
    List.isEmpty_iff]
  split
  · rfl
  · rw [List.reverse_append, List.reverse_reverse]

theorem Solid.append {t u : Text} (ht : Solid t) (hu : Solid u) : Solid (t ++ u) := by
  unfold Solid at ht hu ⊢
  rw [trimEnd_append, List.filter_append]
  split
  · rename_i hempty
    rw [ht, ← hu, hempty, List.filter_nil, List.append_nil]
  · rw [List.filter_append, hu]

end Text

open Text hiding rows

namespace Lexeme

theorem feed_notMem_of_named {t : Text} (h : Named t) : '\n' ∉ t := fun hmem ↦
  absurd (h.isNamePart _ hmem) (by decide)

theorem feed_notMem_of_mem_operators {op : Text} (h : op ∈ operators) : '\n' ∉ op := by
  revert op
  decide

/-- A text that ends in a quote. -/
theorem solid_of_quoted {t : Text} (h : t.getLast? ∈ [some '"', some '\'']) : Solid t := by
  simp only [List.mem_cons, List.not_mem_nil, or_false] at h
  rcases h with h | h
  · rw [Solid, trimEnd_eq_self h (by decide)]
  · rw [Solid, trimEnd_eq_self h (by decide)]

end Lexeme

namespace Header

open Scan

variable {source : Source} {first : Nat} {s s' : Scan} {d d' : Draft}

/-! ### Default values -/

namespace Draft

theorem tidy_amend {change : Text → Text}
    (h : ∀ t ∈ d.written.head?, t.kind = .argumentDefault → Solid (change t.text)) :
    (d.amend change).Tidy isFeed := by
  intro t ht hkind
  cases hw : d.written with
  | nil => simp [amend, hw] at ht
  | cons u ts =>
    obtain rfl : { u with text? := some (change u.text) } = t := by simpa [amend, hw] using ht
    exact h u (by simp [hw]) hkind

/-- A default value that goes on. -/
theorem tidy_extend (h : d.Tidy isFeed) {text : Text} (ht : Solid text) :
    (d.amend (· ++ text)).Tidy isFeed :=
  tidy_amend fun t hmem hkind ↦ Solid.append (h t hmem hkind) ht

theorem tidy_push_default {text : Text} (ht : Solid text) :
    (d.push .argumentDefault text).Tidy isFeed := by
  intro t hmem _
  obtain rfl : Token.of .argumentDefault text = t := by simpa [push] using hmem
  exact ht

theorem tidy_operand (h : d.Tidy isFeed) {text : Text} (ht : Solid text) :
    (d.operand text).Tidy isFeed := by
  unfold operand
  split
  · refine tidy_amend fun t hmem hkind ↦ Solid.append (Solid.append (h t hmem hkind) ?_) ht
    split
    · exact solid_of_notMem (by decide)
    · exact solid_of_notMem (by simp)
  · exact tidy_push_default ht

theorem tidy_operator (h : d.Tidy isFeed) {op : Text} (hop : '\n' ∉ op)
    (hstep : d.operator op = .ok d') : d'.Tidy isFeed := by
  have hspaced : Solid ([' '] ++ op ++ [' ']) := solid_of_notMem (by simpa using hop)
  unfold operator at hstep
  split at hstep
  · obtain rfl := Except.ok.inj hstep
    refine tidy_amend fun t hmem hkind ↦ ?_
    dsimp only
    split
    · -- the value without the blanks at its end, and the operator between spaces
      have htrim : Solid (trimEnd t.text) := by
        rw [Solid, trimEnd, trimEnd, List.reverse_reverse, List.dropWhile_idempotent]
      simpa using htrim.append hspaced
    · exact Solid.append (h t hmem hkind) (solid_of_notMem hop)
  split at hstep
  · exact Except.ok.inj hstep ▸ tidy_push_default hspaced
  split at hstep
  · exact Except.ok.inj hstep ▸ tidy_push_default (solid_of_notMem hop)
  · exact absurd hstep (by simp)

theorem tidy_dotted (h : d.Tidy isFeed) {kind : Token.Kind} (hk : kind ≠ .argumentDefault) {text : Text}
    (ht : '\n' ∉ text) : (d.dotted kind text).Tidy isFeed := by
  unfold dotted
  dsimp only
  split
  · exact tidy_extend h (solid_of_notMem ht)
  · exact tidy_push hk text

theorem tidy_name (h : d.Tidy isFeed) {x : Lexeme} (hx : '\n' ∉ x.text) (hstep : d.name x = .ok d') :
    d'.Tidy isFeed := by
  unfold name at hstep
  split at hstep
  · split at hstep
    · exact Except.ok.inj hstep ▸ (tidy_push (by simp) _).congr rfl
    split at hstep
    · split at hstep
      · exact absurd hstep (by simp)
      · exact Except.ok.inj hstep ▸ (tidy_push (by simp) _).congr rfl
    · exact Except.ok.inj hstep ▸ (tidy_dotted h (by simp) hx).congr rfl
  split at hstep
  · exact Except.ok.inj hstep ▸ (tidy_dotted h (by simp) hx).congr rfl
  split at hstep
  · split at hstep
    · exact Except.ok.inj hstep ▸ (tidy_push_default (solid_of_notMem hx)).congr rfl
    · exact Except.ok.inj hstep ▸ (tidy_operand h (solid_of_notMem hx)).congr rfl
  · exact Except.ok.inj hstep ▸ (tidy_push (by simp) _).congr rfl

theorem OpStep.tidy (h : d.Tidy isFeed) {x : Lexeme} (hx : '\n' ∉ x.text) (hstep : OpStep x d d') :
    d'.Tidy isFeed := by
  have hsolid := solid_of_notMem hx
  cases hstep with
  | opening _ => exact (tidy_push (by simp) _).congr rfl
  | closing _ => exact (tidy_push (by simp) _).congr rfl
  | colon _ _ => exact tidy_push (by simp) _
  | typeDef _ _ => exact (tidy_push (by simp) _).congr rfl
  | comma _ => exact (tidy_push (by simp) _).congr rfl
  | equals hequals =>
    rw [hequals] at hsolid
    unfold Draft.equals
    split
    · split
      · exact tidy_extend h hsolid
      · exact tidy_push_default hsolid
    · exact (tidy_push (by simp) _).congr rfl
  | arrow _ => exact (tidy_push (by simp) _).congr rfl
  | dot hdot hd =>
    rw [hdot] at hsolid
    unfold Draft.dot at hd
    split at hd
    · exact Except.ok.inj hd ▸ tidy_extend h hsolid
    split at hd
    · exact Except.ok.inj hd ▸ tidy_push_default hsolid
    · exact absurd hd (by simp)
  | dots _ => exact tidy_push (by simp) _
  | mark _ => exact tidy_push (by simp) _
  | bar _ => exact tidy_push (by simp) _
  | operator hd => exact tidy_operator h hx hd

theorem tidy_tighten (h : d.Tidy isFeed) : d.tighten.Tidy isFeed := by
  intro t ht hkind
  cases hw : d.written with
  | nil => simp [tighten, hw] at ht
  | cons u ts =>
    by_cases hsep : u.kind = .separator
    · obtain rfl : { u with kind := .endSeparator } = t := by simpa [tighten, hw, hsep] using ht
      exact absurd hkind (by simp)
    · obtain rfl : u = t := by simpa [tighten, hw, hsep] using ht
      exact h u (by simp [hw]) hkind

theorem tidy_close (rows : List Text) (x : Lexeme) : (d.close rows x).Tidy isFeed := by
  unfold close
  dsimp only
  split
  · exact (tidy_push (d := d) (by simp : Token.Kind.endDefinition ≠ _) _).congr rfl
  · exact (tidy_push (by simp) _).congr rfl

/-- **A lexeme of the header itself** brings no line feed to the end of a default value. -/
theorem tidy_plain (h : d.Tidy isFeed) {rows : List Text} {x : Lexeme} (hx : x.Fits)
    (htake : d.plain rows x = .ok d') : d'.Tidy isFeed := by
  have hlayout := tidy_layout h rows x.start
  unfold plain at htake
  split at htake
  case h_1 | h_2 => exact Except.ok.inj htake ▸ h
  case h_5 | h_6 => exact Except.ok.inj htake ▸ (tidy_pushLayout (tidy_tighten h) _).congr rfl
  case h_7 => exact Except.ok.inj htake ▸ (tidy_push (by simp) _).congr rfl
  case h_8 htag =>
    exact tidy_name hlayout (feed_notMem_of_named (by simpa [Fits, htag] using hx)) htake
  case h_9 htag =>
    have hfeed : '\n' ∉ x.text := by
      rw [Fits, htag] at hx
      exact hx.2
    exact Except.ok.inj htake ▸ (tidy_operand hlayout (solid_of_notMem hfeed)).congr rfl
  case h_10 htag =>
    have hquoted : x.text.getLast? ∈ [some '"', some '\''] := by
      rw [Fits, htag] at hx
      exact hx.2
    exact Except.ok.inj htake ▸ (tidy_operand hlayout (solid_of_quoted hquoted)).congr rfl
  case h_11 => exact Except.ok.inj htake ▸ hlayout.congr rfl
  case h_14 htag =>
    rcases op_cases htake with ⟨-, -, -, rfl⟩ | ⟨d'', hstep, rfl⟩
    · exact tidy_close _ _
    · have hop := feed_notMem_of_mem_operators (by simpa [Fits, htag] using hx)
      exact (hstep.tidy hlayout hop).congr rfl
  all_goals exact absurd htake (by simp)

theorem tidy_take (h : d.Tidy isFeed) {rows : List Text} {x : Lexeme} (hx : x.Fits)
    (hend : ∀ p nesting, d.mode = .fstring p nesting → x.tag = .fstringEnd → Solid (slice rows p x.stop))
    (htake : d.take rows x = .ok d') : d'.Tidy isFeed := by
  unfold take at htake
  split at htake
  · exact tidy_plain h hx htake
  · rcases inLambda_cases htake with ⟨-, hplain⟩ | ⟨depth, colon, rfl⟩
    · refine tidy_plain ?_ hx hplain
      exact (tidy_push (d := d) (by simp : Token.Kind.lambdaBody ≠ _) _).congr rfl
    · exact h.congr rfl
  · rename_i p nesting hm
    rcases inFString_cases hm htake with ⟨htag, rfl⟩ | ⟨nesting', rfl⟩
    · exact (tidy_operand h (hend p nesting hm htag)).congr rfl
    · exact h.congr rfl
  · exact Except.ok.inj htake ▸ h

end Draft

/-- **One move brings no line feed to the end of a default value.** -/
theorem Draft.Tidy.move (h : d.Tidy isFeed) (hkept : Kept isFeed s d) (hmove : Move s d s' d') :
    d'.Tidy isFeed := by
  cases hmove with
  | load => exact h
  | quiet => exact h
  | margin _ _ htag _ _ _ _ htake =>
    rcases take_margin htag htake with rfl | ⟨p, q, depth, colon, depth', colon', -, rfl⟩
    · exact h
    · exact h.congr rfl
  | @advance _ _ _ b r gap drop x hcur hadv hx _ _ htake =>
    refine Draft.tidy_take h hx (fun p nesting hm htag ↦ ?_) htake
    -- a string with replacement fields reaches up to the quotes that end it
    unfold Kept at hkept
    rw [hm] at hkept
    obtain ⟨done, more, hp, hmore, -⟩ := hkept
    have hrows : s.rows = (Spot.mk s.past b r s.feed).rows := by simp [rows, Spot.rows, hcur]
    have hspot : (Spot.mk s.past b r s.feed).seen = s.seen := by
      simp [seen, behind, Spot.seen, hcur]
    have hstop : Place s'.rows x.stop (done ++ (more ++ gap ++ x.text)) := by
      have := hadv.stop
      rw [hspot, hmore] at this
      simpa using this
    have hquoted : x.text.getLast? ∈ [some '"', some '\''] := by
      rw [Fits, htag] at hx
      exact hx
    rw [(hp.mono (hrows ▸ hadv.grows)).slice_eq hstop]
    refine solid_of_quoted ?_
    rw [List.getLast?_append]
    cases hlast : x.text.getLast? with
    | none => simp [hlast] at hquoted
    | some c => simpa [hlast] using hquoted

/-! ### Joined lines and lambdas -/

/-- Outside strings, reading the header at line `first` comes upon a joined line: in the row at hand a
backslash stands right before a line break, behind gaps at most. -/
def Joins (source : Source) (first : Nat) : Prop :=
  ∃ s d b u c t, Reading source first s d ∧ d.mode = .plain ∧
    s.load.current = some (b, u ++ '\\' :: c :: t) ∧ (∀ e ∈ u, isGap e = true) ∧ isBreak c = true

/-- Outside strings, reading the header at line `first` comes upon the name `word`. -/
def Names (source : Source) (first : Nat) (word : Text) : Prop :=
  ∃ s d x s', Reading source first s d ∧ d.mode = .plain ∧ s.step = (some x, s') ∧
    x.tag = .name ∧ x.text = word

/-- Only the word itself starts a lambda. -/
theorem names_of_lambda (hr : Reading source first s d) {p q : Position} {depth : Nat} {colon : Bool}
    (hm : d.mode = .lambda p q depth colon) : Names source first "lambda".toList := by
  induction hr generalizing p q depth colon with
  | start => exact absurd hm (by simp)
  | quiet _ _ _ ih => exact ih hm
  | @take s s' d d' x hr hd hstep htake ih =>
    by_cases hmargin : x.tag = .indent ∨ x.tag = .dedent
    · rcases take_margin hmargin htake with rfl | ⟨p', q', _, _, _, _, hm', -⟩
      · exact ih hm
      · exact ih hm'
    obtain ⟨hindent, hdedent⟩ := not_or.1 hmargin
    unfold Draft.take at htake
    split at htake
    · rename_i hplain
      rcases plain_lands hplain htake hindent hdedent with ⟨-, -, hm', -⟩ | ⟨-, hm', -⟩ | ⟨-, hm'⟩ |
        ⟨-, ⟨htag, htext, -⟩ | ⟨hm', -⟩⟩
      case inr.inr.inr.inl => exact ⟨s, d, x, s', hr, hplain, hstep, htag, htext⟩
      all_goals exact absurd (hm'.symm.trans hm) (by simp)
    · exact ih ‹_›
    · rename_i p' nesting hf
      rcases Draft.inFString_cases hf htake with ⟨-, rfl⟩ | ⟨nesting', rfl⟩
      · exact absurd hm (by simp)
      · exact absurd hm (by simp)
    · rename_i hcomplete
      exact absurd hd (by simp [Draft.isComplete, hcomplete])

/-- Where no line is joined and no lambda stands, a row is left behind gaps only. -/
theorem leaves_of_met (hjoins : ¬ Joins source first) (hlambda : ¬ Names source first "lambda".toList)
    (hd : d.isComplete = false) (hmet : Met source first s d) :
    Leaves (fun t ↦ t.filter isFeed = []) s d := by
  intro hm b u v r hcur hgap hr
  obtain ⟨s₀, hreading, hload⟩ := hmet.along
  rw [load_of_some hcur] at hload
  have hplain : d.mode = .plain := by
    cases hmode : d.mode with
    | plain => rfl
    | lambda => exact absurd (names_of_lambda hreading hmode) hlambda
    | fstring => exact absurd hmode (hm _ _)
    | complete => simp [Draft.isComplete, hmode] at hd
  rcases hr with rfl | ⟨c, t, rfl, hc⟩
  · rw [List.append_nil]
    exact filter_of_isGap isFeed_of_isGap fun c hc ↦ hgap c (List.mem_append_right _ hc)
  · exact absurd ⟨s₀, d, b, u ++ v, c, t, hreading, hplain, by rw [hload, hcur], hgap, hc⟩ hjoins

/-! ### Counting rows -/

/-- A row that another one follows holds one line feed. -/
theorem count_of_lined (hs : source.Lined) {pre post : Source} {row next : Text}
    (hsource : source = pre ++ some row :: some next :: post) (hne : next ≠ []) :
    row.count '\n' = 1 := by
  obtain ⟨hfeed, hlast⟩ := hs hsource
  obtain ⟨c, t, rfl⟩ := List.exists_cons_of_ne_nil hne
  obtain ⟨u, rfl⟩ := List.getLast?_eq_some_iff.1 (hlast rfl)
  have hu : '\n' ∉ u := by
    intro hmem
    obtain ⟨v, w, rfl⟩ := List.append_of_mem hmem
    exact absurd (hfeed (t := v) (u := w ++ ['\n']) (by simp)) (by simp)
  rw [List.count_append, List.count_eq_zero.2 hu]
  rfl

/-- Rows that others follow hold one line feed each. -/
theorem count_flatten_of_lined (hs : source.Lined) (hfull : some [] ∉ source) {past : List Text} {last : Text}
    {post : Source} : ∀ {pre : Source}, source = pre ++ (past ++ [last]).map some ++ post →
      past.flatten.count '\n' = past.length := by
  induction past with
  | nil => simp
  | cons row past ih =>
    intro pre hsource
    obtain ⟨next, rest, hnext⟩ := List.exists_cons_of_ne_nil (l := past ++ [last]) (by simp)
    have hrow : source = pre ++ some row :: some next :: (rest.map some ++ post) := by
      rw [hsource, List.cons_append, hnext]
      simp
    have hne : next ≠ [] := by
      rintro rfl
      exact hfull (hrow ▸ by simp)
    rw [List.flatten_cons, List.count_append, count_of_lined hs hrow hne,
      @ih (pre ++ [some row]) (by simpa using hsource), List.length_cons, Nat.add_comm]

/-- A part of a row that does not end in a line break holds no line feed. -/
theorem feed_notMem_of_lined (hs : source.Lined) {pre post : Source} {row tail : Text} {c : Char}
    (hsource : source = pre ++ some (row ++ tail) :: post) (hlast : row.getLast? = some c)
    (hc : isBreak c = false) : '\n' ∉ row := by
  intro hmem
  obtain ⟨u, v, rfl⟩ := List.append_of_mem hmem
  have hnil := (hs hsource).1 (t := u) (u := v ++ tail) (by simp)
  obtain ⟨rfl, -⟩ := List.append_eq_nil_iff.1 hnil
  obtain rfl : '\n' = c := by simpa using hlast
  exact absurd hc (by decide)

/-- **The tokens of a header hold one line feed less than it has rows**, where no line is joined and no
lambda stands. -/
theorem count_tokens_of_read {header : Header} (hs : source.Clean) (hfull : some [] ∉ source)
    (hjoins : ¬ Joins source first) (hlambda : ¬ Names source first "lambda".toList)
    (h : (read source first).1 = .ok header) :
    (header.tokens.flatMap Token.text).count '\n' + 1 = header.lineCount := by
  obtain ⟨s, d, hr, hcomplete, rfl⟩ := exists_reading_of_read h
  have hrun := hr.induct (P := fun s d ↦ Kept isFeed s d ∧ Tracked (fun t ↦ t.filter isFeed = []) s d ∧
      d.Tidy isFeed) ⟨rfl, tracked_start, by simp [Draft.Tidy]⟩
    fun h hd hmet hmove ↦ by
      have hleaves := leaves_of_met hjoins hlambda hd hmet
      obtain ⟨hkept, htracked, htidy⟩ := h
      refine ⟨hkept.move hs isFeed_of_isGap htracked hleaves htidy ?_ hd hmet.supply hmove,
        htracked.move (fun _ ↦ remains_filter hs isFeed_of_isGap) hleaves hmet.supply hmove,
        htidy.move hkept hmove⟩
      intro p q depth colon hm
      obtain ⟨s₀, hreading, -⟩ := hmet.along
      exact absurd (names_of_lambda hreading hm) hlambda
  rcases hrun with ⟨-, hincomplete⟩ | ⟨hsound, hkept, -, -⟩
  · rw [hcomplete] at hincomplete
    exact absurd hincomplete (by simp)
  · unfold Draft.isComplete at hcomplete
    split at hcomplete
    · rename_i hm
      unfold Kept at hkept
      rw [hm] at hkept
      obtain ⟨past, row, tail, hrows, -, ⟨c, hlast, hc⟩, hwritten⟩ := hkept
      have hspelled : (d.tokens.flatMap Token.text).count '\n' = (past.flatten ++ row).count '\n' := by
        rw [← length_filter_isFeed, ← length_filter_isFeed, ← hwritten, spelled_eq_flatMap]
        simp [Draft.tokens, Token.last, Token.text]
      obtain ⟨pre, hsource⟩ := exists_split_of_supply hsound.supply hrows
      have hsplit : source = source.take first ++ (past ++ [row ++ tail]).map some ++ s.feed.upcoming := by
        rw [← hrows, List.append_assoc]
        exact (congrArg _ hsound.supply).trans (List.take_append_drop ..) |>.symm
      have hpast := count_flatten_of_lined hs.lined hfull hsplit
      have hrow := List.count_eq_zero.2 (feed_notMem_of_lined hs.lined hsource hlast hc)
      dsimp only
      rw [hspelled, List.count_append, hpast, hrow, hrows]
      simp
    · exact absurd hcomplete (by simp)

/-! ### Texts without joined lines and without a word -/

section OfText

variable {t : Text}

/-- The rows that have been read of a text are a part of it. -/
theorem flatten_infix_of_supply (h : s.supply = (Document.ofText t).source.drop first) :
    s.rows.flatten <:+: t := by
  rw [Document.source, ← List.map_drop] at h
  obtain ⟨more, hrows, -⟩ := Document.exists_append_of_source h
  refine ⟨((Document.ofText t).take first).flatten, more.flatten, ?_⟩
  rw [List.append_assoc, ← List.flatten_append, ← hrows, ← List.flatten_append, List.take_append_drop]
  exact Text.flatten_rows t

theorem not_joins_of_notMem (h : '\\' ∉ t) : ¬ Joins (Document.ofText t).source first := by
  rintro ⟨s, d, b, u, c, r, hr, -, hcur, -⟩
  rcases hr.sound with ⟨hspent, -⟩ | hsound
  · exact absurd (hspent.load_current.symm.trans hcur) (by simp)
  · refine h ((flatten_infix_of_supply ((load_supply hcur).trans hsound.supply)).subset ?_)
    simp [rows, hcur]

/-- A name that is come upon stands in the text. -/
theorem infix_of_names {word : Text} (h : Names (Document.ofText t).source first word) : word <:+: t := by
  obtain ⟨s, d, x, s', hr, -, hstep, htag, rfl⟩ := h
  -- neither the margin nor the end of the source has names
  have hends : ∀ {y : Lexeme} {s₁ : Scan}, s.step = (some y, s₁) → ¬ Ends y s₁ := by
    intro y s₁ hy hends
    obtain rfl := Option.some.inj (Prod.mk.inj (hstep.symm.trans hy)).1
    rcases hends.tag with h | h <;> simp [htag] at h
  have hmarginal : ∀ {past : List Text} {row : Text}, ¬ Marginal past row x := by
    intro past row hx
    obtain ⟨-, -, -, -, -, h | h | h⟩ := hx.exists_split <;> simp [htag] at h
  rcases hr.sound with ⟨hspent, -⟩ | hsound
  · obtain ⟨y, s₁, hy, hend, -⟩ := hspent.step
    exact absurd hend (hends hy)
  cases hq : s.queued with
  | cons y queued =>
    rw [step_of_queued hq] at hstep
    obtain rfl := Option.some.inj (Prod.mk.inj hstep).1
    obtain ⟨row, -, hall⟩ := hsound.queue.resolve_left (by simp [hq])
    exact absurd (hall y (by simp [hq])) hmarginal
  | nil =>
    cases hcur : s.load.current with
    | none =>
      obtain ⟨y, s₁, hy, hend, -⟩ := step_ends hq hsound.awake hcur
      exact absurd hend (hends hy)
    | some p =>
      obtain ⟨b, r⟩ := p
      have hout := step_outcome hsound.formed hq hsound.awake hcur
      rw [hstep] at hout
      cases hout with
      | @advance gap drop _ _ hadv _ _ _ _ =>
        have hsupply : s'.supply = (Document.ofText t).source.drop first := by
          rw [hadv.supply, ← hsound.supply, ← load_supply hcur]
          simp [Spot.supply, Spot.rows, supply, rows, hcur]
        have hseen : s'.seen <+: s'.rows.flatten := by
          cases hc : s'.current <;> simp [seen, behind, rows, hc]
        rw [hadv.seen, List.append_assoc _ x.text] at hseen
        exact ((List.infix_append_of_infix_right (List.prefix_append _ _).isInfix).trans hseen.isInfix).trans
          (flatten_infix_of_supply hsupply)
      | margin _ hx => exact absurd hx hmarginal
      | spent hend => exact absurd hend (hends hstep)

end OfText

end Header

end HeaderHints
