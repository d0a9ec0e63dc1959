import HeaderHints.Proofs.LayoutRun

/-!
# Nothing of a header is lost

The tokens of a header spell out its rows, up to blanks and backslashes: no character is lost, added
or moved. `Text.bare` is a text without blanks and backslashes.

Which characters count is a parameter `keep`, and gaps never do. `Adds` says of one step of a draft which
characters its tokens gain. A draft in the middle of a lambda or of a string with replacement fields has
written less than the scan has seen, and `Kept` says where it stands.

A carriage return that does not end its line makes the scan skip the rest of the row, so the statement
is about sources without such ones (`Source.Clean`).
-/

namespace HeaderHints

open Lexeme

namespace Text

/-- A text without its blanks and backslashes. -/
def bare (t : Text) : Text :=
  t.filter fun c ↦ !isBlank c && c ≠ '\\'

/-- Characters other than blanks and backslashes. -/
def isBare (c : Char) : Bool :=
  !isBlank c && c ≠ '\\'

theorem filter_isBare (t : Text) : t.filter isBare = bare t := rfl

@[simp]
theorem bare_nil : bare [] = [] := rfl

@[simp]
theorem bare_append (t u : Text) : bare (t ++ u) = bare t ++ bare u :=
  List.filter_append ..

@[simp]
theorem bare_space (t : Text) : bare (' ' :: t) = bare t := rfl

theorem bare_eq_nil {t : Text} (h : ∀ c ∈ t, isBlank c = true ∨ c = '\\') : bare t = [] := by
  refine List.filter_eq_nil_iff.2 fun c hc ↦ ?_
  rcases h c hc with hb | rfl
  · simp [hb]
  · simp

theorem isBlank_of_isGap {c : Char} (h : isGap c = true) : isBlank c = true := by
  simp only [isGap, Bool.or_eq_true, decide_eq_true_eq] at h
  rcases h with (rfl | rfl) | rfl <;> decide

theorem bare_of_isGap {t : Text} (h : ∀ c ∈ t, isGap c = true) : bare t = [] :=
  bare_eq_nil fun c hc ↦ .inl (isBlank_of_isGap (h c hc))

theorem bare_dropWhile {p : Char → Bool} (hp : ∀ c, p c = true → isBlank c = true) (t : Text) :
    bare (t.dropWhile p) = bare t := by
  conv_rhs => rw [← List.takeWhile_append_dropWhile (p := p) (l := t), bare_append]
  rw [bare_eq_nil fun c hc ↦ .inl (hp c (List.mem_takeWhile_imp hc)), List.nil_append]

theorem bare_reverse (t : Text) : bare t.reverse = (bare t).reverse :=
  List.filter_reverse ..

theorem bare_dropWhileEnd {p : Char → Bool} (hp : ∀ c, p c = true → isBlank c = true) (t : Text) :
    bare (t.reverse.dropWhile p).reverse = bare t := by
  rw [bare_reverse, bare_dropWhile hp, bare_reverse, List.reverse_reverse]

theorem bare_trimEnd (t : Text) : bare (trimEnd t) = bare t :=
  bare_dropWhileEnd (fun _ h ↦ h) t

theorem bare_trim (t : Text) : bare (trim t) = bare t := by
  rw [trim, bare_trimEnd, bare_dropWhile fun _ h ↦ h]

end Text

open Text hiding rows

/-- Whole lines in which each carriage return stands before a line feed. -/
structure Source.Clean (source : Source) : Prop where
  lined : source.Lined
  paired : ∀ {row t u : Text}, some row ∈ source → row = t ++ '\r' :: u → u.head? = some '\n'

namespace Header

open Scan

variable {source : Source} {first : Nat} {s s' : Scan} {d d' : Draft}

theorem filter_of_isGap {keep : Char → Bool} (hgap : ∀ c, isGap c = true → keep c = false) {t : Text}
    (h : ∀ c ∈ t, isGap c = true) : t.filter keep = [] :=
  List.filter_eq_nil_iff.2 fun c hc ↦ by simp [hgap c (h c hc)]

/-- In a clean source the scan drops nothing after a line break. -/
theorem drop_eq_nil (hs : source.Clean) {pre post : Source} {b text drop : Text}
    (hsource : source = pre ++ some (b ++ text ++ drop) :: post) (hcut : Cut text drop) :
    drop = [] := by
  rcases hcut with rfl | hlast | ⟨hlast, hhead⟩
  · rfl
  · obtain ⟨t, rfl⟩ := List.getLast?_eq_some_iff.1 hlast
    exact (hs.lined hsource).1 (t := b ++ t) (by simp)
  · obtain ⟨t, rfl⟩ := List.getLast?_eq_some_iff.1 hlast
    have hmem : some (b ++ (t ++ ['\r']) ++ drop) ∈ source := by simp [hsource]
    exact absurd (hs.paired (t := b ++ t) hmem (by simp)) hhead

/-- In a clean source, what a scan leaves behind is gaps, joined lines apart. -/
theorem remains_filter {keep : Char → Bool} (hs : source.Clean)
    (hgap : ∀ c, isGap c = true → keep c = false) :
    Remains (fun t ↦ t.filter keep = []) source where
  gap h := filter_of_isGap hgap h
  dropped := by
    intro pre post b text drop hsource hcut
    exact .inl (by rw [drop_eq_nil hs hsource hcut]; rfl)

theorem isBare_of_isGap (c : Char) (h : isGap c = true) : isBare c = false := by
  simp [isBare, isBlank_of_isGap h]

/-- In a clean source, what a scan leaves behind is blank but for backslashes. -/
theorem residual_bare (hs : source.Clean) : Residual (fun t ↦ t.filter isBare = []) source where
  toRemains := remains_filter hs isBare_of_isGap
  joined := by
    intro pre post b u t c hsource hu hc
    have hbreak : bare (c :: t) = [] := by
      simp only [isBreak, Bool.or_eq_true, decide_eq_true_eq] at hc
      rcases hc with rfl | rfl
      · have hmem : some (b ++ (u ++ '\\' :: '\r' :: t)) ∈ source := by simp [hsource]
        have hhead := hs.paired (t := b ++ (u ++ ['\\'])) (u := t) hmem (by simp)
        obtain ⟨v, rfl⟩ := List.head?_eq_some_iff.1 hhead
        obtain rfl : v = [] :=
          (hs.lined hsource).1 (t := b ++ (u ++ ['\\', '\r'])) (by simp)
        decide
      · obtain rfl : t = [] := (hs.lined hsource).1 (t := b ++ (u ++ ['\\'])) (by simp)
        decide
    rw [filter_isBare, bare_append, bare_of_isGap hu, List.nil_append, ← List.singleton_append,
      bare_append, hbreak]
    decide

/-! ### What a step of a draft adds -/

/-- What tokens spell out, newest first. -/
def spelled : List Token → Text
  | [] => []
  | t :: ts => spelled ts ++ t.text

theorem spelled_eq_flatMap (ts : List Token) : spelled ts = ts.reverse.flatMap Token.text := by
  induction ts with
  | nil => rfl
  | cons t ts ih => simp [spelled, ih]

namespace Draft

/-- The tokens of the draft gain those characters of `text` that count. -/
def Adds (keep : Char → Bool) (d d' : Draft) (text : Text) : Prop :=
  (spelled d'.written).filter keep = (spelled d.written).filter keep ++ text.filter keep

/-- Nothing that counts stands among the blanks at the end of a default value. -/
def Tidy (keep : Char → Bool) (d : Draft) : Prop :=
  ∀ t ∈ d.written.head?, t.kind = .argumentDefault →
    (trimEnd t.text).filter keep = t.text.filter keep

variable {keep : Char → Bool} {d d₁ : Draft} {t u : Text}

theorem Adds.trans (h : d.Adds keep d' t) (h' : d'.Adds keep d₁ u) : d.Adds keep d₁ (t ++ u) := by
  unfold Adds at h h' ⊢
  rw [h', h, List.filter_append, List.append_assoc]

/-- Only the characters that count are of interest. -/
theorem Adds.of_filter (h : d.Adds keep d' t) (ht : t.filter keep = u.filter keep) :
    d.Adds keep d' u := by
  unfold Adds at h ⊢
  rw [h, ht]

/-- Only the tokens count. -/
theorem Adds.congr (h : d.Adds keep d' t) (hw : d₁.written = d'.written) : d.Adds keep d₁ t := by
  unfold Adds at h ⊢
  rw [hw, h]

theorem adds_nothing : d.Adds keep d [] := by simp [Adds]

theorem adds_push (kind : Token.Kind) (text : Text) : d.Adds keep (d.push kind text) text := by
  simp [Adds, push, spelled, Token.of, Token.text]

theorem adds_pushLayout (text : Text) : d.Adds keep (d.pushLayout text) text := by
  unfold pushLayout
  split
  · rename_i hempty
    obtain rfl : text = [] := by simpa using hempty
    exact adds_nothing
  · exact adds_push _ _

/-- The last token gains characters. -/
theorem adds_amend {change : Text → Text} {text : Text} (hne : d.written ≠ [])
    (hc : ∀ v ∈ d.written.head?,
      (change v.text).filter keep = v.text.filter keep ++ text.filter keep) :
    d.Adds keep (d.amend change) text := by
  obtain ⟨v, ts, hts⟩ := List.exists_cons_of_ne_nil hne
  have hv := hc v (by simp [hts])
  rw [Token.text] at hv
  simp [Adds, amend, hts, spelled, Token.text, hv]

theorem adds_tighten : d.Adds keep d.tighten [] := by
  unfold Adds tighten
  cases hts : d.written with
  | nil => simp [spelled]
  | cons t ts =>
    by_cases hk : t.kind = .separator <;> simp [spelled, hk, Token.text]

theorem adds_layout {rows : List Text} {start : Position}
    (h : d.LaidOut (fun t ↦ t.filter keep = []) rows start) : d.Adds keep (d.layout rows start) [] := by
  rw [layout_eq]
  split
  · exact adds_nothing
  · rename_i hrow
    obtain ⟨hjoint, hmargin⟩ := h.resolve_left hrow
    have hpush : d.Adds keep (d.pushLayout (d.joint rows start)) _ := adds_pushLayout _
    refine Adds.congr ((hpush.trans (adds_pushLayout (margin rows start))).of_filter ?_) rfl
    rw [List.filter_append, hjoint, hmargin]
    rfl

theorem adds_lineBreak (x : Lexeme) : d.Adds keep (d.lineBreak x) x.text :=
  (adds_tighten.trans (adds_pushLayout x.text)).congr rfl

/-- The blanks before a comment on its row. -/
def lead (rows : List Text) (x : Lexeme) (d : Draft) : Text :=
  match d.reached with
  | some last =>
    if last.row = x.start.row && d.begunRow = some last.row then
      Text.between last.col x.start.col (rows.getD last.row [])
    else []
  | none => []

theorem adds_comment {rows : List Text} {x : Lexeme}
    (h : d.LaidOut (fun t ↦ t.filter keep = []) rows x.start)
    (hlead : (d.lead rows x).filter keep = []) : d.Adds keep (d.comment rows x) x.text := by
  have htight : d.Adds keep (d.layout rows x.start).tighten [] := (adds_layout h).trans adds_tighten
  have hpush := htight.trans (adds_push .endSeparator (d.lead rows x ++ x.text))
  refine Adds.congr (hpush.of_filter ?_) rfl
  rw [List.nil_append, List.filter_append, hlead, List.nil_append]

theorem ne_nil_of_lastKind? {kind : Token.Kind} (h : d.lastKind? = some kind) : d.written ≠ [] := by
  obtain ⟨t, ts, hts, -⟩ := exists_of_lastKind? h
  simp [hts]

theorem adds_dotted (kind : Token.Kind) (text : Text) : d.Adds keep (d.dotted kind text) text := by
  unfold dotted
  dsimp only
  split
  · rename_i hcont
    refine adds_amend ?_ fun _ _ ↦ List.filter_append ..
    intro hnil
    simp [hnil] at hcont
  · exact adds_push kind text

theorem adds_operand (hspace : keep ' ' = false) (text : Text) :
    d.Adds keep (d.operand text) text := by
  unfold operand
  split
  · rename_i hlast
    refine adds_amend (ne_nil_of_lastKind? hlast) fun v _ ↦ ?_
    split <;> simp [hspace]
  · exact adds_push _ text

theorem adds_operator {op : Text} (hspace : keep ' ' = false) (htidy : d.Tidy keep)
    (h : d.operator op = .ok d') : d.Adds keep d' op := by
  unfold operator at h
  split at h
  · rename_i hlast
    obtain rfl := Except.ok.inj h
    refine adds_amend (ne_nil_of_lastKind? hlast) fun v hv ↦ ?_
    obtain ⟨w, ts, hts, hkind⟩ := exists_of_lastKind? hlast
    obtain rfl : w = v := by simpa [hts] using hv
    dsimp only
    split
    · simp [hspace, htidy w hv hkind]
    · exact List.filter_append ..
  split at h
  · obtain rfl := Except.ok.inj h
    exact (adds_push _ _).of_filter (by simp [hspace])
  split at h
  · obtain rfl := Except.ok.inj h
    exact adds_push _ op
  · exact absurd h (by simp)

theorem adds_name {x : Lexeme} (hspace : keep ' ' = false) (h : d.name x = .ok d') :
    d.Adds keep d' x.text := by
  unfold name at h
  split at h
  · split at h
    · exact Except.ok.inj h ▸ (adds_push _ _).congr rfl
    split at h
    · split at h
      · exact absurd h (by simp)
      · exact Except.ok.inj h ▸ (adds_push _ _).congr rfl
    · exact Except.ok.inj h ▸ (adds_dotted _ _).congr rfl
  split at h
  · exact Except.ok.inj h ▸ (adds_dotted _ _).congr rfl
  split at h
  · split at h
    · exact Except.ok.inj h ▸ (adds_push _ _).congr rfl
    · exact Except.ok.inj h ▸ (adds_operand hspace _).congr rfl
  · exact Except.ok.inj h ▸ (adds_push _ _).congr rfl

theorem adds_equals (text : Text) : d.Adds keep (d.equals text) text := by
  unfold equals
  split
  · split
    · rename_i hlast
      exact adds_amend (ne_nil_of_lastKind? hlast) fun _ _ ↦ List.filter_append ..
    · exact adds_push _ text
  · exact (adds_push _ text).congr rfl

theorem adds_dot {text : Text} (h : d.dot text = .ok d') : d.Adds keep d' text := by
  unfold dot at h
  split at h
  · rename_i hlast
    obtain rfl := Except.ok.inj h
    refine adds_amend ?_ fun _ _ ↦ List.filter_append ..
    intro hnil
    simp [lastKind?, hnil] at hlast
  split at h
  · exact Except.ok.inj h ▸ adds_push _ text
  · exact absurd h (by simp)

theorem OpStep.adds {x : Lexeme} (hspace : keep ' ' = false) (htidy : d.Tidy keep)
    (h : OpStep x d d') : d.Adds keep d' x.text := by
  cases h with
  | opening _ => exact (adds_push _ _).congr rfl
  | closing _ => exact (adds_push _ _).congr rfl
  | colon hx _ => exact hx ▸ adds_push _ _
  | typeDef hx _ => exact hx ▸ (adds_push _ _).congr rfl
  | comma hx => exact hx ▸ (adds_push _ _).congr rfl
  | equals hx => exact hx ▸ adds_equals _
  | arrow hx => exact hx ▸ (adds_push _ _).congr rfl
  | dot hx hd => exact hx ▸ adds_dot hd
  | dots hx => exact hx ▸ adds_push _ _
  | mark _ => exact adds_push _ _
  | bar hx => exact hx ▸ adds_push _ _
  | operator hd => exact adds_operator hspace htidy hd

theorem Tidy.congr (h : d.Tidy keep) (hw : d'.written = d.written) : d'.Tidy keep := by
  unfold Tidy at h ⊢
  rwa [hw]

theorem tidy_push {kind : Token.Kind} (hk : kind ≠ .argumentDefault) (text : Text) :
    (d.push kind text).Tidy keep := by
  simp [Tidy, push, Token.of, hk]

theorem tidy_pushLayout (h : d.Tidy keep) (text : Text) : (d.pushLayout text).Tidy keep := by
  unfold pushLayout
  split
  · exact h
  · exact tidy_push (by simp) text

theorem tidy_layout (h : d.Tidy keep) (rows : List Text) (start : Position) :
    (d.layout rows start).Tidy keep := by
  rw [layout_eq]
  split
  · exact h
  · exact (tidy_pushLayout (tidy_pushLayout h _) _).congr rfl

/-- The closing colon brings the rest of its row with it, up to blanks at the end. -/
theorem adds_close (keep : Char → Bool) (rows : List Text) (x : Lexeme) :
    ∃ rest tail, Text.fromByte x.stop.col (rows.getD x.stop.row []) = rest ++ tail ∧
      (∀ c ∈ tail, isBlank c = true) ∧ (∀ c ∈ rest.getLast?, isBreak c = false) ∧
      d.Adds keep (d.close rows x) (x.text ++ rest) := by
  set row := Text.fromByte x.stop.col (rows.getD x.stop.row []) with hrow
  have hcolon : d.Adds keep
      { d.push .endDefinition x.text with annotationDepth := 0, mode := .complete } x.text :=
    (adds_push _ _).congr rfl
  unfold close
  dsimp only
  rw [← hrow]
  set kept := (row.reverse.dropWhile fun c ↦ c = '\r' || c = '\n').reverse with hkept
  set breaks := (row.reverse.takeWhile fun c ↦ c = '\r' || c = '\n').reverse with hbreaks
  have hsplit : row = kept ++ breaks := by
    rw [hkept, hbreaks, ← List.reverse_append, List.takeWhile_append_dropWhile, List.reverse_reverse]
  have hblank : ∀ c ∈ breaks, isBlank c = true := by
    intro c hc
    have hc' := List.mem_takeWhile_imp (List.mem_reverse.1 hc)
    simp only [Bool.or_eq_true, decide_eq_true_eq] at hc'
    rcases hc' with rfl | rfl <;> decide
  split
  · rename_i hall
    refine ⟨[], row, rfl, fun c hc ↦ ?_, by simp, ?_⟩
    · rw [hsplit] at hc
      exact (List.mem_append.1 hc).elim (List.all_eq_true.1 hall c) (hblank c)
    · rw [List.append_nil]
      exact hcolon.congr rfl
  · refine ⟨kept, breaks, hsplit, hblank, fun c hc ↦ ?_, ?_⟩
    · rw [hkept, List.getLast?_reverse] at hc
      obtain ⟨r, hr⟩ := List.head?_eq_some_iff.1 hc
      have hhead := List.head_dropWhile_not (fun c ↦ decide (c = '\r') || decide (c = '\n'))
        (l := row.reverse) (by simp [hr])
      simp only [hr, List.head_cons] at hhead
      exact hhead
    · exact Adds.congr (hcolon.trans (adds_push .endSeparator _)) rfl

/-- **What a lexeme of the header itself adds**: its text, unless it starts a string with replacement
fields or closes the header. -/
theorem adds_plain {rows : List Text} {x : Lexeme} (hspace : keep ' ' = false) (htidy : d.Tidy keep)
    (htake : d.plain rows x = .ok d')
    (hl : x.tag ≠ .newline → x.tag ≠ .nl → d.LaidOut (fun t ↦ t.filter keep = []) rows x.start)
    (hlead : (d.lead rows x).filter keep = []) (hopen : d'.mode ≠ .complete)
    (hindent : x.tag ≠ .indent) (hdedent : x.tag ≠ .dedent) :
    d.Adds keep d' (if x.tag = .fstringStart then [] else x.text) := by
  unfold plain at htake
  split at htake
  case h_1 htag => exact absurd htag hindent
  case h_2 htag => exact absurd htag hdedent
  case h_5 htag | h_6 htag =>
    rw [if_neg (by simp [htag])]
    exact Except.ok.inj htake ▸ adds_lineBreak x
  case h_7 htag =>
    rw [if_neg (by simp [htag])]
    exact Except.ok.inj htake ▸ adds_comment (hl (by simp [htag]) (by simp [htag])) hlead
  case h_8 htag =>
    rw [if_neg (by simp [htag])]
    exact (adds_layout (hl (by simp [htag]) (by simp [htag]))).trans (adds_name hspace htake)
  case h_9 htag | h_10 htag =>
    rw [if_neg (by simp [htag])]
    have hadds := (adds_layout (hl (by simp [htag]) (by simp [htag]))).trans
      (adds_operand hspace x.text)
    exact Except.ok.inj htake ▸ hadds.congr rfl
  case h_11 htag =>
    rw [if_pos htag]
    exact Except.ok.inj htake ▸ (adds_layout (hl (by simp [htag]) (by simp [htag]))).congr rfl
  case h_14 htag =>
    rw [if_neg (by simp [htag])]
    rcases op_cases htake with ⟨-, -, -, rfl⟩ | ⟨d'', hstep, rfl⟩
    · exact absurd (close_mode _ _) hopen
    · have hadds := (adds_layout (hl (by simp [htag]) (by simp [htag]))).trans
        (hstep.adds hspace (tidy_layout htidy rows x.start))
      exact hadds.congr rfl
  all_goals exact absurd htake (by simp)

end Draft

/-! ### Runs -/

/-- Which of the characters that the scan has seen the draft has written. -/
def Kept (keep : Char → Bool) (s : Scan) (d : Draft) : Prop :=
  match d.mode with
  | .plain => (spelled d.written).filter keep = s.seen.filter keep
  | .lambda p q _ _ => ∃ done body more, Place s.rows p done ∧ Place s.rows q (done ++ body) ∧
      s.seen = done ++ more ∧ (spelled d.written).filter keep = done.filter keep ∧
      body.filter keep = more.filter keep
  | .fstring p _ => ∃ done more, Place s.rows p done ∧ s.seen = done ++ more ∧
      (spelled d.written).filter keep = done.filter keep
  | .complete => ∃ past row tail, s.rows = past ++ [row ++ tail] ∧
      (∀ c ∈ tail, isBlank c = true) ∧ (∃ c ∈ row.getLast?, isBreak c = false) ∧
      (spelled d.written).filter keep = (past.flatten ++ row).filter keep

variable {keep : Char → Bool}

theorem Kept.load {r : Text} (h : Kept keep s d) (hd : d.isComplete = false) (hcur : s.current = none)
    (hload : s.load.current = some ([], r)) (hpast : s.load.past = s.past)
    (hrows : s.load.rows = s.rows ++ [r]) : Kept keep s.load d := by
  have hseen : s.load.seen = s.seen := by simp [seen, behind, hload, hpast, hcur]
  unfold Kept at h ⊢
  rw [hseen, hrows]
  split
  · rename_i hm
    simpa only [hm] using h
  · rename_i hm
    rw [hm] at h
    obtain ⟨done, body, more, hp, hq, hrest⟩ := h
    exact ⟨done, body, more, hp.append _, hq.append _, hrest⟩
  · rename_i hm
    rw [hm] at h
    obtain ⟨done, more, hp, hrest⟩ := h
    exact ⟨done, more, hp.append _, hrest⟩
  · rename_i hm
    exact absurd hd (by simp [Draft.isComplete, hm])

theorem Kept.quiet {b u r : Text} (h : Kept keep s d) (hd : d.isComplete = false)
    (hleaves : Leaves (fun t ↦ t.filter keep = []) s d) (hcur : s.current = some (b, u ++ r))
    (hu : ∀ c ∈ u, isGap c = true) (hr : r = [] ∨ ∃ c t, r = '\\' :: c :: t ∧ isBreak c = true)
    (hpast : s'.past = s.past ++ [b ++ u ++ r]) (hcur' : s'.current = none) : Kept keep s' d := by
  have hrows : s'.rows = s.rows := by simp [rows, hpast, hcur, hcur']
  have hseen : s'.seen = s.seen ++ (u ++ r) := by simp [seen, behind, hpast, hcur, hcur']
  have hleft : (∀ p nesting, d.mode ≠ .fstring p nesting) → (u ++ r).filter keep = [] :=
    fun hm ↦ hleaves hm (u := []) hcur hu hr
  unfold Kept at h ⊢
  rw [hseen, hrows]
  split
  · rename_i hm
    rw [hm] at h
    rw [List.filter_append, hleft (by simp [hm]), List.append_nil]
    exact h
  · rename_i hm
    rw [hm] at h
    obtain ⟨done, body, more, hp, hq, hmore, hwritten, hbody⟩ := h
    refine ⟨done, body, more ++ (u ++ r), hp, hq, by simp [hmore], hwritten, ?_⟩
    rw [List.filter_append, hleft (by simp [hm]), List.append_nil, hbody]
  · rename_i hm
    rw [hm] at h
    obtain ⟨done, more, hp, hmore, hwritten⟩ := h
    exact ⟨done, more ++ (u ++ r), hp, by simp [hmore], hwritten⟩
  · rename_i hm
    exact absurd hd (by simp [Draft.isComplete, hm])

theorem Kept.margin {margin text : Text} {x : Lexeme} (hgap : ∀ c, isGap c = true → keep c = false)
    (h : Kept keep s d) (hcur : s.current = some ([], margin ++ text))
    (hg : ∀ c ∈ margin, isGap c = true) (htag : x.tag = .indent ∨ x.tag = .dedent)
    (hstop : x.stop = ⟨s.past.length, Text.bytes margin⟩) (hpast : s'.past = s.past)
    (hcur' : s'.current = s.current) (htake : d.take s'.rows x = .ok d') : Kept keep s' d' := by
  have hrows : s'.rows = s.rows := by rw [rows, rows, hpast, hcur']
  have hseen : s'.seen = s.seen := by rw [seen, seen, behind, behind, hpast, hcur']
  rcases take_margin htag htake with rfl | ⟨p, q, depth, colon, depth', colon', hm, rfl⟩
  · unfold Kept at h ⊢
    rw [hrows, hseen]
    exact h
  · unfold Kept at h ⊢
    rw [hm] at h
    obtain ⟨done, body, more, hp, -, hmore, hwritten, -⟩ := h
    refine ⟨done, more ++ margin, more, hrows ▸ hp, ?_, hseen.trans hmore, hwritten, ?_⟩
    · refine ⟨s.past, margin, text, [], by rw [hrows]; simp [rows, hcur], hstop, ?_⟩
      rw [← List.append_assoc, ← hmore]
      simp [seen, behind, hcur]
    · rw [List.filter_append, filter_of_isGap hgap hg, List.append_nil]

section Advance

variable {b r gap drop : Text} {x : Lexeme}

/-- Before a comment stand gaps. -/
theorem filter_lead {Q : Text → Prop} (hgap : ∀ c, isGap c = true → keep c = false)
    (hcur : s.current = some (b, r)) (hadv : Advance ⟨s.past, b, r, s.feed⟩ gap x drop s')
    (h : (s.behind = [] ∧ (d.reached = none ∨ d.broken = true)) ∨
      ∃ p, d.reached = some p ∧ d.begunRow = some p.row ∧ Held Q s p) :
    (d.lead s'.rows x).filter keep = [] := by
  have hsuffix : ∀ n, (fromByte n gap).filter keep = [] := by
    intro n
    exact filter_of_isGap hgap fun c hc ↦ hadv.gaps c ((fromByte_suffix n gap).subset hc)
  unfold Draft.lead
  split
  · rename_i last hlast
    split
    · rename_i hrow
      simp only [Bool.and_eq_true, decide_eq_true_eq] at hrow
      have hmargin : toByte x.start.col (s'.rows.getD last.row []) = b ++ gap := by
        rw [hrow.1]
        exact margin_of_advance hadv
      rw [between, hmargin]
      -- the last lexeme ended at the start of the row at hand, or where the gap starts
      rcases h with ⟨hbehind, -⟩ | ⟨p, hp, -, hheld⟩
      · obtain rfl : b = [] := by simpa [behind, hcur] using hbehind
        exact hsuffix _
      · obtain rfl : p = last := by simpa [hp] using hlast
        rcases hheld with ⟨b', u, r', hsome, -, rfl⟩ | ⟨hbehind, -⟩
        · rw [hcur] at hsome
          obtain ⟨rfl, -⟩ := Prod.mk.inj (Option.some.inj hsome)
          rw [bytes_append, fromByte_bytes_add]
          exact hsuffix _
        · obtain rfl : b = [] := by simpa [behind, hcur] using hbehind
          exact hsuffix _
    · rfl
  · rfl

/-- The closing colon and the rest of its row complete the rows, up to blanks at the end. -/
theorem kept_close (hgap : ∀ c, isGap c = true → keep c = false) (hcur : s.current = some (b, r))
    (hadv : Advance ⟨s.past, b, r, s.feed⟩ gap x drop s') (htag : x.tag = .op) (hx : x.text = [':'])
    (hwritten : (spelled d.written).filter keep = s.seen.filter keep)
    (hl : d.LaidOut (fun t ↦ t.filter keep = []) s'.rows x.start)
    (hclose : d' = (d.layout s'.rows x.start).close s'.rows x) : Kept keep s' d' := by
  obtain ⟨b', r', hcur', hstop, hdrop, -⟩ := hadv.lands.resolve_right (by
    rintro ⟨_, _, _, _, hbreak⟩
    simp [htag] at hbreak)
  have hpast : s'.past = s.past := hadv.level htag
  have hb' : b' = b ++ gap ++ [':'] := by
    have hseen := hadv.seen
    simp only [seen, behind, hcur', hpast, Spot.seen, hdrop, hx, Option.map_some, Option.getD_some,
      List.append_nil, List.append_assoc, List.append_cancel_left_eq] at hseen
    simpa using hseen
  have hrows : s'.rows = s.past ++ (b' ++ r') :: [] := by simp [rows, hcur', hpast]
  obtain ⟨rest, tail, hrest, htail, hlast, hadds⟩ :=
    Draft.adds_close (d := d.layout s'.rows x.start) keep s'.rows x
  rw [hstop, hpast, Place.fromByte_col hrows] at hrest
  have hm : d'.mode = .complete := hclose ▸ Draft.close_mode _ _
  unfold Kept
  rw [hm]
  refine ⟨s.past, b' ++ rest, tail, by rw [hrows, hrest, List.append_assoc], htail, ?_, ?_⟩
  · rw [List.getLast?_append]
    cases hrest' : rest.getLast? with
    | none => exact ⟨':', by simp [hb'], by decide⟩
    | some c => exact ⟨c, by simp, hlast c hrest'⟩
  · have htotal := (Draft.adds_layout hl).trans hadds
    rw [← hclose] at htotal
    unfold Draft.Adds at htotal
    rw [htotal, hwritten, hx, hb']
    simp [seen, behind, hcur, List.filter_append, filter_of_isGap hgap hadv.gaps]

/-- What a scan has seen behind a lexeme, where nothing is dropped behind line breaks. -/
theorem seen_of_advance (hs : source.Clean) (hsupply : s.supply = source.drop first)
    (hcur : s.current = some (b, r)) (hadv : Advance ⟨s.past, b, r, s.feed⟩ gap x drop s') :
    s'.seen = s.seen ++ gap ++ x.text ∧ Place s'.rows x.stop (s.seen ++ gap ++ x.text) := by
  have hdrop : drop = [] := by
    rcases hadv.lands with ⟨_, _, -, -, hdrop, -, -⟩ | ⟨_, hcur', -, -, -⟩
    · exact hdrop
    · obtain ⟨-, -, pre, hpre⟩ := exists_split_of_advance hsupply hcur hadv hcur'
      exact drop_eq_nil hs hpre hadv.cut
  have hspot : (Spot.mk s.past b r s.feed).seen = s.seen := by
    simp [seen, behind, Spot.seen, hcur]
  have hseen := hadv.seen
  have hstop := hadv.stop
  rw [hspot] at hseen hstop
  rw [hdrop, List.append_nil] at hseen
  exact ⟨hseen, hstop⟩

/-- A lexeme of the header itself keeps what the draft has written. -/
theorem kept_plain (hgap : ∀ c, isGap c = true → keep c = false) (hcur : s.current = some (b, r))
    (hadv : Advance ⟨s.past, b, r, s.feed⟩ gap x drop s') (hseen : s'.seen = s.seen ++ gap ++ x.text)
    (hindent : x.tag ≠ .indent) (hdedent : x.tag ≠ .dedent) (hm : d.mode = .plain) (htidy : d.Tidy keep)
    (hwritten : (spelled d.written).filter keep = s.seen.filter keep)
    (hl : x.tag ≠ .newline → x.tag ≠ .nl → d.LaidOut (fun t ↦ t.filter keep = []) s'.rows x.start)
    (hlead : (d.lead s'.rows x).filter keep = []) (htake : d.plain s'.rows x = .ok d') :
    Kept keep s' d' := by
  have hskip := filter_of_isGap hgap hadv.gaps
  have hspot : (Spot.mk s.past b r s.feed).seen = s.seen := by
    simp [seen, behind, Spot.seen, hcur]
  have hkeep : s'.seen.filter keep = s.seen.filter keep ++ x.text.filter keep := by
    rw [hseen, List.filter_append, List.filter_append, hskip, List.append_nil]
  have hadds : d'.mode ≠ .complete →
      (spelled d'.written).filter keep =
        s.seen.filter keep ++ (if x.tag = .fstringStart then [] else x.text).filter keep := by
    intro hopen
    rw [← hwritten]
    exact Draft.adds_plain (hgap ' ' rfl) htidy htake hl hlead hopen hindent hdedent
  rcases plain_lands hm htake hindent hdedent with ⟨htag, hx, -, hclose⟩ | ⟨htag, hm', -⟩ |
    ⟨htag, hm'⟩ | ⟨htag, ⟨-, -, hm'⟩ | ⟨hm', -, -⟩⟩
  · exact kept_close hgap hcur hadv htag hx hwritten (hl (by simp [htag]) (by simp [htag])) hclose
  all_goals
    have hadds := hadds (by simp [hm'])
    unfold Kept
    rw [hm']
  · rw [if_neg (by rcases htag with htag | htag <;> simp [htag])] at hadds
    exact hadds.trans hkeep.symm
  · rw [if_pos htag] at hadds
    obtain ⟨rest, hrest⟩ := hadv.ahead
    have hstart := (Spot.place_of_ahead hrest).mono hadv.grows
    rw [← hadv.start_eq, hspot] at hstart
    refine ⟨s.seen ++ gap, x.text, hstart, hseen, ?_⟩
    rw [hadds, List.filter_append, hskip]
    rfl
  · rw [if_neg htag] at hadds
    have hstop := hadv.stop
    rw [hspot] at hstop
    refine ⟨s.seen ++ gap ++ x.text, [], [], hstop, ?_, ?_, ?_, rfl⟩
    · rw [List.append_nil]
      exact hstop
    · rw [List.append_nil]
      exact hseen
    · rw [hadds, ← hseen, hkeep]
  · rw [if_neg htag] at hadds
    exact hadds.trans hkeep.symm

/-- **One lexeme keeps what the draft has written.** -/
theorem Kept.advance (hs : source.Clean) (hgap : ∀ c, isGap c = true → keep c = false)
    (h : Kept keep s d) (htracked : Tracked (fun t ↦ t.filter keep = []) s d) (htidy : d.Tidy keep)
    (hlambda : ∀ p q depth colon, d.mode = .lambda p q depth colon →
      ∀ t : Text, (trim t).filter keep = t.filter keep)
    (hd : d.isComplete = false) (hsupply : s.supply = source.drop first)
    (hcur : s.current = some (b, r)) (hadv : Advance ⟨s.past, b, r, s.feed⟩ gap x drop s')
    (hindent : x.tag ≠ .indent) (hdedent : x.tag ≠ .dedent)
    (htake : d.take s'.rows x = .ok d') : Kept keep s' d' := by
  have hprep := htracked.prepared (remains_filter hs hgap).gap hcur hadv
  obtain ⟨hseen, hstop⟩ := seen_of_advance hs hsupply hcur hadv
  have hgrows : s.rows <+: s'.rows := by
    have hrows : s.rows = (Spot.mk s.past b r s.feed).rows := by simp [rows, Spot.rows, hcur]
    exact hrows ▸ hadv.grows
  unfold Tracked at htracked
  unfold Kept at h
  unfold Draft.Prepared at hprep
  unfold Draft.take at htake
  split at htake
  · rename_i hm
    rw [hm] at h htracked hprep
    exact kept_plain hgap hcur hadv hseen hindent hdedent hm htidy h hprep
      (filter_lead hgap hcur hadv htracked) htake
  · rename_i p q depth colon hm
    rw [hm] at h htracked hprep
    obtain ⟨done, body, more, hp, hq, hmore, hwritten, hbody⟩ := h
    have hslice : slice s'.rows p q = body := (hp.mono hgrows).slice_eq (hq.mono hgrows)
    rcases Draft.inLambda_cases htake with ⟨hends, htake'⟩ | ⟨depth', colon', rfl⟩
    · refine kept_plain hgap hcur hadv hseen hindent hdedent rfl ?_ ?_ (fun h₁ h₂ ↦ ?_) ?_ htake'
      · exact (Draft.tidy_push (d := d) (by simp : Token.Kind.lambdaBody ≠ _) _).congr rfl
      · rw [hslice, hmore, List.filter_append, ← hwritten, ← hbody, ← hlambda _ _ _ _ hm body]
        exact Draft.adds_push _ _
      · exact hprep hends h₁ h₂
      · exact filter_lead hgap hcur hadv (.inr ⟨q, rfl, rfl, htracked⟩)
    · refine ⟨done, more ++ gap ++ x.text, more ++ gap ++ x.text, hp.mono hgrows, ?_, ?_, hwritten,
        rfl⟩
      · simpa [hmore] using hstop
      · rw [hseen, hmore]
        simp
  · rename_i p nesting hm
    rw [hm] at h
    obtain ⟨done, more, hp, hmore, hwritten⟩ := h
    have hstop' : Place s'.rows x.stop (done ++ (more ++ gap ++ x.text)) := by
      simpa [hmore] using hstop
    rcases Draft.inFString_cases hm htake with ⟨-, rfl⟩ | ⟨nesting', rfl⟩
    · have hslice := (hp.mono hgrows).slice_eq hstop'
      show (spelled (d.operand (slice s'.rows p x.stop)).written).filter keep = s'.seen.filter keep
      have hadds := Draft.adds_operand (d := d) (hgap ' ' rfl) (slice s'.rows p x.stop)
      unfold Draft.Adds at hadds
      rw [hadds, hslice, hwritten, hseen, hmore]
      simp
    · refine ⟨done, more ++ gap ++ x.text, hp.mono hgrows, ?_, hwritten⟩
      rw [hseen, hmore]
      simp
  · rename_i hm
    exact absurd hd (by simp [Draft.isComplete, hm])

end Advance

/-- **One move keeps what the draft has written.** -/
theorem Kept.move (hs : source.Clean) (hgap : ∀ c, isGap c = true → keep c = false)
    (h : Kept keep s d) (htracked : Tracked (fun t ↦ t.filter keep = []) s d)
    (hleaves : Leaves (fun t ↦ t.filter keep = []) s d) (htidy : d.Tidy keep)
    (hlambda : ∀ p q depth colon, d.mode = .lambda p q depth colon →
      ∀ t : Text, (trim t).filter keep = t.filter keep)
    (hd : d.isComplete = false) (hsupply : s.supply = source.drop first) (hmove : Move s d s' d') :
    Kept keep s' d' := by
  cases hmove with
  | load hcur hload hpast hrows _ _ => exact h.load hd hcur hload hpast hrows
  | quiet hcur hu hr hpast hcur' _ => exact h.quiet hd hleaves hcur hu hr hpast hcur'
  | margin hcur hg htag hstop hpast hcur' _ htake =>
    exact h.margin hgap hcur hg htag hstop hpast hcur' htake
  | advance hcur hadv _ hindent hdedent htake =>
    exact h.advance hs hgap htracked htidy hlambda hd hsupply hcur hadv hindent hdedent htake

/-- **The tokens of a header spell out its rows**, up to blanks and backslashes. -/
theorem bare_tokens_of_read {header : Header} (hs : source.Clean)
    (h : (read source first).1 = .ok header) :
    ∃ rows : List Text, rows.map some = (source.drop first).take header.lineCount ∧
      bare (header.tokens.flatMap Token.text) = bare rows.flatten := by
  obtain ⟨s, d, hr, hcomplete, rfl⟩ := exists_reading_of_read h
  have hres := residual_bare hs
  have hrun := hr.induct (P := fun s d ↦ Kept isBare s d ∧ Tracked (fun t ↦ t.filter isBare = []) s d)
    ⟨rfl, tracked_start⟩
    fun h hd hmet hmove ↦ ⟨h.1.move hs isBare_of_isGap h.2 (hres.leaves hmet.supply)
        (fun _ _ _ ↦ bare_trimEnd _) (fun _ _ _ _ _ ↦ bare_trim) hd hmet.supply hmove,
      h.2.move (fun _ ↦ hres.toRemains) (hres.leaves hmet.supply) hmet.supply hmove⟩
  rcases hrun with ⟨-, hincomplete⟩ | ⟨hsound, hkept, -⟩
  · rw [hcomplete] at hincomplete
    exact absurd hincomplete (by simp)
  · refine ⟨s.rows, ?_, ?_⟩
    · rw [← hsound.supply, supply, List.take_append_of_le_length (by simp), List.take_of_length_le]
      simp
    · unfold Draft.isComplete at hcomplete
      split at hcomplete
      · rename_i hm
        unfold Kept at hkept
        rw [hm] at hkept
        obtain ⟨past, row, tail, hrows, htail, -, hwritten⟩ := hkept
        have hblank : bare tail = [] := bare_eq_nil fun c hc ↦ .inl (htail c hc)
        simp only [filter_isBare] at hwritten
        rw [hrows, List.flatten_append, List.flatten_singleton, ← List.append_assoc, bare_append _ tail,
          hblank, List.append_nil, ← hwritten, spelled_eq_flatMap]
        simp [Draft.tokens, Token.last, Token.text]
      · exact absurd hcomplete (by simp)

end Header

/-! ### Documents -/

namespace Text

theorem ne_nil_of_mem_rows {t row : Text} (h : row ∈ rows t) : row ≠ [] := by
  induction t generalizing row with
  | nil => exact absurd h (by simp [rows])
  | cons c t ih =>
    rw [rows] at h
    split at h
    · rcases List.mem_cons.1 h with rfl | h
      · simp
      · exact ih h
    · split at h
      · rw [List.mem_singleton.1 h]
        simp
      · rename_i hrows
        rcases List.mem_cons.1 h with rfl | h
        · simp
        · exact ih (by rw [hrows]; exact List.mem_cons_of_mem _ h)

theorem rows_lined (t : Text) :
    (∀ row ∈ rows t, ∀ {u v : Text}, row = u ++ '\n' :: v → v = []) ∧
      ∀ {pre post : List Text} {row next : Text}, rows t = pre ++ row :: next :: post →
        row.getLast? = some '\n' := by
  induction t with
  | nil => simp [rows]
  | cons c t ih =>
    obtain ⟨ihfeed, ihlast⟩ := ih
    rw [rows]
    by_cases hc : c = '\n'
    · -- the line feed is a row of its own
      rw [if_pos hc, hc]
      refine ⟨?_, ?_⟩
      · intro row hrow u v huv
        rcases List.mem_cons.1 hrow with rfl | hrow
        · cases u with
          | nil => exact (List.cons_eq_cons.1 huv).2.symm
          | cons a u => exact absurd huv (by simp)
        · exact ihfeed row hrow huv
      · intro pre post row next hsplit
        cases pre with
        | nil =>
          obtain ⟨rfl, -⟩ := List.cons_eq_cons.1 hsplit
          rfl
        | cons a pre => exact ihlast (List.cons_eq_cons.1 hsplit).2
    · rw [if_neg hc]
      cases hrows : rows t with
      | nil =>
        refine ⟨?_, ?_⟩
        · intro row hrow u v huv
          obtain rfl : row = [c] := by simpa using hrow
          cases u with
          | nil => exact absurd (List.cons_eq_cons.1 huv).1 hc
          | cons a u => exact absurd huv (by simp)
        · intro pre post row next hsplit
          have := congrArg List.length hsplit
          simp only [List.length_append, List.length_cons, List.length_nil] at this
          omega
      | cons first more =>
        rw [hrows] at ihfeed ihlast
        refine ⟨?_, ?_⟩
        · intro row hrow u v huv
          rcases List.mem_cons.1 hrow with rfl | hrow
          · cases u with
            | nil => exact absurd (List.cons_eq_cons.1 huv).1 hc
            | cons a u => exact ihfeed first (by simp) (List.cons_eq_cons.1 huv).2
          · exact ihfeed row (by simp [hrow]) huv
        · intro pre post row next hsplit
          cases pre with
          | nil =>
            obtain ⟨rfl, rfl⟩ := List.cons_eq_cons.1 hsplit
            have hlast := @ihlast [] _ _ _ rfl
            rw [List.getLast?_cons, hlast]
            rfl
          | cons a pre =>
            obtain ⟨rfl, rfl⟩ := List.cons_eq_cons.1 hsplit
            exact @ihlast (first :: pre) _ _ _ rfl

end Text

namespace Document

theorem source_lined (t : Text) : (ofText t).source.Lined := by
  intro pre row post hsource
  obtain ⟨pre', rest, hrows, rfl, hrest⟩ := List.map_eq_append_iff.1 hsource
  obtain ⟨row', post', rfl, hrow, rfl⟩ := List.map_eq_cons_iff.1 hrest
  obtain rfl := Option.some.inj hrow
  have hsplit : Text.rows t = pre' ++ row' :: post' := hrows
  obtain ⟨hfeed, hlast⟩ := Text.rows_lined t
  refine ⟨fun huv ↦ hfeed row' (by simp [hsplit]) huv, fun hpost ↦ ?_⟩
  obtain ⟨next, more, rfl, -, -⟩ := List.map_eq_cons_iff.1 hpost
  exact hlast hsplit

/-- A text in which each carriage return stands before a line feed is a clean source. -/
theorem source_clean {t : Text} (ht : ∀ {u v : Text}, t = u ++ '\r' :: v → v.head? = some '\n') :
    (ofText t).source.Clean := by
  refine ⟨source_lined t, ?_⟩
  intro row u v hmem hrow
  have hmem' : row ∈ Text.rows t := by simpa [source, ofText] using hmem
  obtain ⟨pre, post, hsplit⟩ := List.append_of_mem hmem'
  have hflat := Text.flatten_rows t
  rw [hsplit] at hflat
  have hhead : (v ++ post.flatten).head? = some '\n' := by
    refine ht (u := pre.flatten ++ u) ?_
    rw [← hflat, hrow]
    simp
  cases v with
  | cons c v => simpa using hhead
  | nil =>
    -- a row that another one follows does not end in a carriage return
    cases post with
    | nil => exact absurd hhead (by simp)
    | cons next post =>
      have hlast := (Text.rows_lined t).2 hsplit
      rw [hrow] at hlast
      exact absurd hlast (by simp)

/-- Rows of a source that hands out the rows of a document. -/
theorem exists_append_of_source {doc : Document} {rows : List Text} {left : Source}
    (h : rows.map some ++ left = doc.source) : ∃ more, doc = rows ++ more ∧ left = more.map some := by
  obtain ⟨front, more, rfl, hfront, rfl⟩ := List.map_eq_append_iff.1 h.symm
  obtain rfl : front = rows := (List.map_inj_right fun _ _ ↦ Option.some.inj).1 hfront
  exact ⟨more, rfl, rfl⟩

/-- Rows that are handed out one after another are joined. -/
theorem joined_eq_flatten {d : Document} {start count : Nat} {rows : List Text}
    (h : rows.map some = (d.source.drop start).take count) : d.joined start count = rows.flatten := by
  rw [source, ← List.map_drop, ← List.map_take, List.map_inj_right fun _ _ ↦ Option.some.inj] at h
  rw [h, joined]

end Document

namespace Header

open Text

/-- **Reading loses nothing.** The tokens of a header spell out the rows that it takes up, up to blanks
and backslashes. -/
theorem read_spells_rows {t : Text} {first : Nat} {header : Header}
    (ht : ∀ {u v : Text}, t = u ++ '\r' :: v → v.head? = some '\n')
    (hread : (read (Document.ofText t).source first).1 = .ok header) :
    bare (header.tokens.flatMap Token.text) =
      bare ((Document.ofText t).joined first header.lineCount) := by
  obtain ⟨rows, hrows, hbare⟩ := bare_tokens_of_read (Document.source_clean ht) hread
  rw [hbare, Document.joined_eq_flatten hrows]

/-- A header of six rows behind another row: a decorator, a comment, a function as a default value with a
formatted string in it, a joined row, and a string of two rows. -/
theorem read_spells_rows_six : ∃ (t : Text) (header : Header),
    t = "x = 1\n@d(1)\nasync def f(a: int,  # c\n  k=lambda x: (x,\n    f\"\x7bx\x7d\"), \\\n".toList ++
      "  s=\"\"\"p\n q\"\"\") -> None: pass\nz\n".toList ∧
    (read (Document.ofText t).source 1).1 = .ok header ∧ header.lineCount = 6 ∧
    bare (header.tokens.flatMap Token.text) = bare ((Document.ofText t).joined 1 6) := by
  have hread : (read (Document.ofText
      ("x = 1\n@d(1)\nasync def f(a: int,  # c\n  k=lambda x: (x,\n    f\"\x7bx\x7d\"), \\\n".toList ++
        "  s=\"\"\"p\n q\"\"\") -> None: pass\nz\n".toList)).source 1).1 =
      .ok ⟨[.of .endSeparator ['@'], .of .functionName ['d'], .of .endSeparator ['('],
        .of .argumentDefault ['1'], .of .endSeparator [')'], .of .endSeparator ['\n'],
        .of .keyword "async".toList, .of .definition "def".toList, .of .functionName ['f'],
        .of .endSeparator ['('], .of .argumentName ['a'], .of .typeDef [':'], .of .dottedName "int".toList,
        .of .endSeparator [','], .of .endSeparator "  # c".toList, .of .endSeparator ['\n'],
        .of .endSeparator "  ".toList, .of .argumentName ['k'], .of .defaultDef ['='],
        .of .argumentDefault "lambda".toList, .of .lambdaBody "x: (x,\n    f\"\x7bx\x7d\")".toList,
        .of .separator [','], .of .endSeparator " \\\n".toList, .of .endSeparator "  ".toList,
        .of .argumentName ['s'], .of .defaultDef ['='], .of .argumentDefault "\"\"\"p\n q\"\"\"".toList,
        .of .endSeparator [')'], .of .returnTypeDef "->".toList, .of .dottedName "None".toList,
        .of .endDefinition [':'], .of .endSeparator " pass".toList, Token.last], 6⟩ := by rfl
  refine ⟨_, _, rfl, hread, rfl, read_spells_rows (fun {u v} h ↦ ?_) hread⟩
  have hmem : '\r' ∈ u ++ '\r' :: v := List.mem_append_cons_self
  rw [← h] at hmem
  exact absurd hmem (by decide)

end Header

end HeaderHints
