import HeaderHints.Proofs.ScanRun
import HeaderHints.Token

/-!
# What a scan keeps in mind

Where a step of a scan lands is said in `ScanSteps`. This module says what a step does to the rest of
the scan, its `Context`: the brackets, blocks and strings that are open, whether the line has content, and
the lexemes that are due (`Scan.step_effect`). There is one constructor of `Scan.Effect` for each thing
that a step can do.

`Scan.Run` are the scans that are reached from the start of a source, with the lexemes produced on the way,
and `Scan.Run.induct` is the induction over them: a claim about the lexemes so far and the context has to be
shown for the start and for each effect, and the scan itself need not be opened.
-/

namespace HeaderHints

open Lexeme

namespace Lexeme

/-- The number of open brackets behind a lexeme, where `depth` were open before it. -/
def nest (x : Lexeme) (depth : Nat) : Nat :=
  if x.tag = .op ∧ Token.opensBracket x.text then depth + 1
  else if x.tag = .op ∧ Token.closesBracket x.text then depth - 1
  else depth

/-- The number of lexemes of a class. -/
def countTag (tag : Tag) (xs : List Lexeme) : Nat :=
  (xs.map Lexeme.tag).count tag

@[simp]
theorem countTag_nil (tag : Tag) : countTag tag [] = 0 := rfl

@[simp]
theorem countTag_append (tag : Tag) (xs ys : List Lexeme) :
    countTag tag (xs ++ ys) = countTag tag xs + countTag tag ys := by
  simp [countTag]

theorem countTag_cons (tag : Tag) (x : Lexeme) (xs : List Lexeme) :
    countTag tag (x :: xs) = countTag tag xs + if x.tag = tag then 1 else 0 := by
  simp [countTag, List.count_cons]

theorem countTag_singleton (tag : Tag) (x : Lexeme) : countTag tag [x] = if x.tag = tag then 1 else 0 := by
  simp [countTag_cons]

end Lexeme

namespace Scan

/-- What a scan keeps in mind, apart from where it stands. -/
structure Context where
  /-- Number of open brackets. -/
  depth : Nat
  /-- Widths of the open blocks, innermost first. -/
  levels : List Nat
  /-- Whether the logical line has content. -/
  hasContent : Bool
  /-- The open strings with replacement fields, innermost first. -/
  frames : List Frame
  /-- Lexemes that are due. -/
  queued : List Lexeme
  /-- Whether the source is exhausted. -/
  exhausted : Bool

/-- Whether literal text of a string with replacement fields comes next. -/
def Context.inLiteral (c : Context) : Bool :=
  c.frames.head?.any (·.isLiteral)

/-- What the scan keeps in mind. -/
def context (s : Scan) : Context :=
  ⟨s.depth, s.levels, s.hasContent, s.frames, s.queued, s.exhausted⟩

/-- **What a step does to the context**, where nothing is due and the source is not known to be exhausted. -/
inductive Effect (c : Context) : Option Lexeme × Scan → Prop
  /-- A row is left, and no lexeme is produced. -/
  | quiet {s' : Scan} : s'.context = c → Effect c (none, s')
  /-- The source runs out, and no block is open. -/
  | last {x : Lexeme} {s' : Scan} : x.tag = .endMarker → c.levels = [] →
      s'.context = { c with exhausted := true } → Effect c (some x, s')
  /-- The source runs out, and the open blocks are closed. -/
  | closeAll {x : Lexeme} {s' : Scan} :
      (x :: s'.queued).map Lexeme.tag = List.replicate c.levels.length .dedent →
      s'.context = { c with levels := [], queued := s'.queued, exhausted := true } → Effect c (some x, s')
  /-- A margin opens a block. -/
  | indent {x : Lexeme} {s' : Scan} {width : Nat} : x.tag = .indent → c.frames = [] →
      c.levels.headD 0 < width → s'.context = { c with levels := width :: c.levels } → Effect c (some x, s')
  /-- A margin closes the blocks `inner`, or fits no block. -/
  | dedent {x : Lexeme} {s' : Scan} {inner outer : List Nat} {rest : List Tag} : c.frames = [] →
      c.levels = inner ++ outer → rest ∈ [[], [.error]] →
      (x :: s'.queued).map Lexeme.tag = List.replicate inner.length .dedent ++ rest →
      s'.context = { c with levels := outer, queued := s'.queued } → Effect c (some x, s')
  /-- A line break ends a logical line if nothing is open and the line has content. -/
  | lineBreak {x : Lexeme} {s' : Scan} : c.inLiteral = false →
      x.tag = (if c.depth = 0 && c.frames.isEmpty && c.hasContent then .newline else .nl) →
      s'.context = { c with hasContent := c.hasContent && x.tag = .nl } → Effect c (some x, s')
  /-- A lexeme that opens and closes nothing. -/
  | plain {x : Lexeme} {s' : Scan} : c.inLiteral = false → x.tag ∈ [.name, .number, .string, .comment] →
      s'.context = { c with hasContent := c.hasContent || x.tag.isContent } → Effect c (some x, s')
  /-- A character that starts no lexeme, or a string that breaks off. -/
  | error {x : Lexeme} {s' : Scan} {frames : List Frame} {hasContent : Bool} : x.tag = .error →
      frames ∈ [c.frames, c.frames.tail] → s'.context = { c with frames, hasContent } → Effect c (some x, s')
  /-- An operator outside literal text. -/
  | operator {x : Lexeme} {s' : Scan} : c.inLiteral = false → x.tag = .op →
      s'.context = { c with
        depth := x.nest c.depth, frames := c.frames.modifyHead (·.after x.text), hasContent := true } →
      Effect c (some x, s')
  /-- A string with replacement fields is opened. -/
  | openString {x : Lexeme} {s' : Scan} {q : Quotes} : c.inLiteral = false → x.tag = .fstringStart →
      s'.context = { c with frames := ⟨q, []⟩ :: c.frames, hasContent := true } → Effect c (some x, s')
  /-- A piece of literal text. -/
  | literal {x : Lexeme} {s' : Scan} : c.inLiteral = true → x.tag = .fstringMiddle →
      s'.context = { c with hasContent := true } → Effect c (some x, s')
  /-- A replacement field is opened in literal text. -/
  | openField {x : Lexeme} {s' : Scan} {f : Frame} {outer : List Frame} : c.frames = f :: outer →
      f.isLiteral = true → x.tag = .op → x.text = ['{'] →
      s'.context = { c with
        depth := x.nest c.depth, frames := { f with fields := {} :: f.fields } :: outer, hasContent := true } →
      Effect c (some x, s')
  /-- A replacement field is closed behind its format specification. -/
  | closeField {x : Lexeme} {s' : Scan} {f : Frame} {field : Field} {fields : List Field}
      {outer : List Frame} : c.frames = f :: outer → f.fields = field :: fields → field.inSpec = true →
      x.tag = .op → x.text = ['}'] →
      s'.context = { c with
        depth := x.nest c.depth, frames := { f with fields } :: outer, hasContent := true } →
      Effect c (some x, s')
  /-- A string with replacement fields is closed, in which no field is open. -/
  | closeString {x : Lexeme} {s' : Scan} {f : Frame} {outer : List Frame} : c.frames = f :: outer →
      f.fields = [] → x.tag = .fstringEnd → s'.context = { c with frames := outer, hasContent := true } →
      Effect c (some x, s')

variable {s s' : Scan} {before rest : Text}

/-! ### The end of the source, and the margin -/

theorem context_load (s : Scan) : s.load.context = s.context := by
  unfold load
  split
  · rfl
  · split <;> rfl

/-- The text that has been seen stands before the reading point in the row at hand. -/
theorem seen_of_load {b r : Text} (h : s.load.current = some (b, r)) : s.seen = s.load.past.flatten ++ b := by
  cases hcur : s.current with
  | none =>
    obtain ⟨rfl, hpast, -⟩ := load_of_none hcur h
    simp [seen, behind, hcur, hpast]
  | some row =>
    rw [load_of_some hcur, hcur] at h
    rw [load_of_some hcur]
    simp [seen, behind, hcur, Option.some.inj h]

theorem rows_prefix_load {b r : Text} (h : s.load.current = some (b, r)) : s.rows <+: s.load.rows := by
  cases hcur : s.current with
  | none =>
    obtain ⟨-, -, -, hrows, -⟩ := load_of_none hcur h
    exact ⟨[r], hrows.symm⟩
  | some row => exact ⟨[], by rw [load_of_some hcur, List.append_nil]⟩

theorem effect_finish (s : Scan) : Effect s.context s.finish := by
  unfold finish
  split
  · rename_i hlevels
    exact .last rfl hlevels rfl
  · rename_i level outer hlevels
    refine .closeAll ?_ rfl
    simp [context, hlevels, mark, List.replicate_succ, List.map_const']

/-- A margin has an effect, or it has none and the scan stays as it is. -/
theorem effect_indentation (hframes : s.frames = []) (row : Text) :
    (∃ s', s.indentation row = (none, s') ∧ s'.context = s.context) ∨
      ∃ x s', s.indentation row = (some x, s') ∧ Effect s.context (some x, s') := by
  unfold indentation
  generalize row.span isGap = parts
  obtain ⟨margin, text⟩ := parts
  dsimp only
  split
  · exact .inl ⟨_, rfl, rfl⟩
  split
  · rename_i hwide
    exact .inr ⟨_, _, rfl, .indent rfl hframes hwide rfl⟩
  set width := marginWidth margin
  have hlevels : s.levels.takeWhile (width < ·) ++ s.levels.dropWhile (width < ·) = s.levels :=
    List.takeWhile_append_dropWhile
  split
  · -- no block is closed
    rename_i hnone
    have hinner : s.levels.takeWhile (width < ·) = [] := by
      rw [List.append_eq_nil_iff, List.map_eq_nil_iff] at hnone
      exact hnone.1
    rw [hinner, List.nil_append] at hlevels
    exact .inl ⟨_, rfl, by simp [context, hlevels]⟩
  · rename_i x queued hlist
    have hrest : (if (s.levels.dropWhile (width < ·)).headD 0 = width then [] else [Tag.error]) ∈
        [[], [Tag.error]] := by
      split <;> simp
    refine .inr ⟨_, _, rfl, .dedent hframes hlevels.symm hrest ?_ rfl⟩
    rw [← hlist, List.map_append, List.map_map]
    congr 1
    · exact List.map_const' ..
    · split <;> rfl

/-! ### Lexemes outside literal text -/

theorem effect_stringRows (hlit : s.context.inLiteral = false) {q : Quotes} {opening : Position} (n : Nat) :
    ∀ {s' : Scan}, s'.context = s.context → Effect s.context (stringRows q opening n s') := by
  induction n with
  | zero => exact fun h ↦ h ▸ effect_finish _
  | succ n ih =>
    intro s' h
    rw [stringRows]
    split
    · exact h ▸ effect_finish _
    split
    · refine .plain hlit (by simp) ?_
      rw [← h]
      simp [context, Tag.isContent]
    · exact .error rfl List.mem_cons_self h
    · exact ih (by rw [context_load]; exact h)

theorem effect_string (hlit : s.context.inLiteral = false) (word : Text) (q : Quotes) :
    Effect s.context (s.string before word q rest) := by
  unfold string
  split
  · exact .openString (q := q) hlit rfl (by simp [context, Tag.isContent])
  · exact effect_stringRows hlit _ rfl

theorem effect_lineBreak (hlit : s.context.inLiteral = false) (before text rest : Text) :
    Effect s.context (s.lineBreak before text rest) := by
  refine .lineBreak hlit rfl ?_
  generalize hends : (s.depth = 0 && s.frames.isEmpty && s.hasContent) = ends
  cases ends <;> simp [context]

theorem effect_operator (hlit : s.context.inLiteral = false) (op : Text) :
    Effect s.context (s.operator before op rest) := by
  refine .operator hlit rfl ?_
  simp only [context, nest, Tag.isContent, Bool.or_true, Token.opensBracket,
    Token.closesBracket]
  congr 1
  split <;> simp_all

theorem effect_produce (hlit : s.context.inLiteral = false) {tag : Tag} {text : Text}
    (htag : tag ∈ [.name, .number, .string, .comment]) :
    Effect s.context (s.produce tag before text rest) :=
  .plain hlit htag rfl

/-- Outside literal text. -/
theorem effect_plain (hlit : s.context.inLiteral = false) (before rest : Text) :
    Effect s.context (s.plain before rest) := by
  unfold plain
  generalize rest.span isGap = parts
  obtain ⟨gap, rest⟩ := parts
  dsimp only
  match rest with
  | [] => exact effect_lineBreak hlit ..
  | c :: t =>
    dsimp only
    split
    · exact effect_produce hlit (by simp)
    split
    · exact effect_lineBreak hlit ..
    split
    · split <;> exact effect_lineBreak hlit ..
    split
    · exact .quiet rfl
    split
    · exact effect_produce hlit (by simp)
    split
    · exact effect_string hlit ..
    split
    · -- a word is a name, or it belongs to the string that follows it
      split
      · split
        · exact effect_string hlit ..
        · exact effect_produce hlit (by simp)
      · exact effect_produce hlit (by simp)
    split
    · exact effect_operator hlit _
    · exact .error rfl List.mem_cons_self rfl

/-! ### Literal text -/

theorem effect_literal {frame : Frame} {outer : List Frame} (hframes : s.frames = frame :: outer)
    (hlit : frame.isLiteral = true) (before rest : Text) : Effect s.context (s.literal frame before rest) := by
  have hframes' : s.context.frames = frame :: outer := hframes
  have hlit' : s.context.inLiteral = true := by simp [Context.inLiteral, hframes', hlit]
  have hstop := @splitLiteral_nil_cons frame.quotes (!frame.fields.isEmpty) rest
  have htext : ∀ {before text rest : Text}, Effect s.context (s.produce .fstringMiddle before text rest) :=
    .literal hlit' rfl (by simp [context, Tag.isContent])
  have hbroken : ∀ {before text rest : Text},
      Effect s.context (s.closeFrame.produce .error before text rest) :=
    .error rfl (List.mem_cons_of_mem _ List.mem_cons_self) rfl
  unfold literal
  simp only
  generalize splitLiteral frame.quotes (!frame.fields.isEmpty) rest = parts at hstop
  split
  · split
    · -- the row is left, too
      refine .literal hlit' rfl ?_
      simp [leaveRow, produce, context, Tag.isContent]
    split
    · exact htext
    · exact hbroken
  · exact htext
  · split
    · exact .quiet rfl
    · exact hbroken
  · refine .openField hframes' hlit rfl rfl ?_
    simp [openField, context, nest, Tag.isContent, Token.opensBracket, hframes]
  · split
    · rename_i hspec
      obtain ⟨field, fields, hfields⟩ : ∃ field fields, frame.fields = field :: fields := by
        cases hfields : frame.fields with
        | nil => simp [hfields] at hspec
        | cons field fields => exact ⟨field, fields, rfl⟩
      refine .closeField hframes' hfields (by simpa [Frame.isLiteral, hfields] using hlit) rfl rfl ?_
      simp [closeField, context, nest, Tag.isContent, Token.opensBracket, Token.closesBracket,
        hframes, hfields]
    · exact .error rfl List.mem_cons_self rfl
  · rename_i after hnl hnil hopen hclose
    have hfields : frame.fields = [] := by
      cases after with
      | nil => exact (hnil rfl).elim
      | cons c r =>
        rcases hstop (c := c) (r := r) rfl with rfl | rfl | rfl | ⟨hspec, -⟩
        · exact (hnl _ rfl).elim
        · exact (hopen _ rfl).elim
        · exact (hclose _ rfl).elim
        · simpa using hspec
    exact .closeString hframes' hfields rfl (by simp [closeFrame, context, Tag.isContent, hframes])

/-! ### Steps -/

/-- **One step of a scan**, where nothing is due: what it does to what the scan keeps in mind. -/
theorem step_effect (hidle : s.queued = []) (hawake : s.exhausted = false) : Effect s.context s.step := by
  rw [← context_load s]
  unfold step
  rw [hidle, hawake]
  dsimp only
  rw [if_neg (by simp)]
  split
  · exact effect_finish _
  · rename_i frame outer _ hframes
    split
    · exact effect_literal hframes ‹_› ..
    · rename_i hlit
      refine effect_plain ?_ ..
      simpa [Context.inLiteral, context, hframes] using hlit
  · rename_i hframes
    have hlit : s.load.context.inLiteral = false := by simp [Context.inLiteral, context, hframes]
    split
    · rename_i b r _ _
      rcases effect_indentation hframes r with ⟨s', hind, hcontext⟩ | ⟨x, s', hind, heffect⟩
      · rw [hind, ← hcontext]
        exact effect_plain (hcontext ▸ hlit) ..
      · rw [hind]
        exact heffect
    · exact effect_plain hlit ..

/-! ### Runs -/

/-- The scans that are reached from line `first` of a source, with the lexemes produced on the way. It makes
no difference whether the end marker has been handed out. -/
inductive Run (source : Source) (first : Nat) : List Lexeme → Scan → Prop
  | start : Run source first [] (Scan.start source first)
  | quiet {xs : List Lexeme} {s s' : Scan} : Run source first xs s → s.step = (none, s') →
      Run source first xs s'
  | produce {xs : List Lexeme} {x : Lexeme} {s s' : Scan} : Run source first xs s →
      s.step = (some x, s') → Run source first (xs ++ [x]) s'
  | mark {xs : List Lexeme} {s : Scan} (ended : Bool) : Run source first xs s →
      Run source first xs { s with ended }

variable {source : Source} {first : Nat} {xs : List Lexeme}

/-- What is due closes blocks, or says that a margin fits none. -/
def Context.Due (c : Context) : Prop :=
  ∀ y ∈ c.queued, y.tag = .dedent ∨ y.tag = .error

theorem dedent_of_tags {xs : List Lexeme} {n : Nat} (htags : xs.map Lexeme.tag = List.replicate n .dedent) :
    ∀ y ∈ xs, y.tag = .dedent :=
  fun _ hy ↦ List.eq_of_mem_replicate (htags ▸ List.mem_map_of_mem hy)

theorem due_of_tags {xs : List Lexeme} {n : Nat} {rest : List Tag} (hrest : rest ∈ [[], [.error]])
    (htags : xs.map Lexeme.tag = List.replicate n .dedent ++ rest) :
    ∀ y ∈ xs, y.tag = .dedent ∨ y.tag = .error := by
  intro y hy
  have hmem := List.mem_map_of_mem (f := Lexeme.tag) hy
  rw [htags, List.mem_append] at hmem
  simp only [List.mem_cons, List.not_mem_nil, or_false] at hrest
  rcases hmem with hmem | hmem
  · exact .inl (List.eq_of_mem_replicate hmem)
  · rcases hrest with rfl | rfl
    · simp at hmem
    · exact .inr (by simpa using hmem)

theorem Effect.due {c : Context} {r : Option Lexeme × Scan} (h : Effect c r) (hc : c.Due) :
    r.2.context.Due := by
  cases h with
  | @closeAll x s' htags hs' =>
    intro y hy
    exact .inl (dedent_of_tags htags y (List.mem_cons_of_mem x hy))
  | @dedent x s' _ _ _ _ _ hrest htags _ =>
    intro y hy
    exact due_of_tags hrest htags y (List.mem_cons_of_mem x hy)
  | quiet hs' | last _ _ hs' | indent _ _ _ hs' | lineBreak _ _ hs' | plain _ _ hs' | error _ _ hs'
  | operator _ _ hs' | openString _ _ hs' | literal _ _ hs' | openField _ _ _ _ hs'
  | closeField _ _ _ _ _ hs' | closeString _ _ _ hs' =>
    rw [hs']
    exact hc

/-- **Induction over runs**, by what the steps do to the context. -/
theorem Run.induct {P : List Lexeme → Context → Prop} (start : P [] ⟨0, [], false, [], [], false⟩)
    (due : ∀ {xs c x queued}, P xs c → c.queued = x :: queued → x.tag = .dedent ∨ x.tag = .error →
      P (xs ++ [x]) { c with queued })
    (ended : ∀ {xs c x}, P xs c → c.queued = [] → c.exhausted = true → x.tag = .endMarker → P (xs ++ [x]) c)
    (effect : ∀ {xs c r}, P xs c → c.queued = [] → c.exhausted = false → Effect c r →
      P (xs ++ r.1.toList) r.2.context)
    (h : Run source first xs s) : P xs s.context := by
  -- a step takes what is due, repeats the end marker, or has an effect
  have hstep : ∀ {xs : List Lexeme} {s : Scan}, s.context.Due → P xs s.context →
      s.step.2.context.Due ∧ P (xs ++ s.step.1.toList) s.step.2.context := by
    intro xs s hdue hP
    cases hq : s.queued with
    | cons x queued =>
      have hall : ∀ y ∈ x :: queued, y.tag = .dedent ∨ y.tag = .error := hq ▸ hdue
      rw [step_of_queued hq]
      exact ⟨(List.forall_mem_cons.1 hall).2, due hP hq (List.forall_mem_cons.1 hall).1⟩
    | nil =>
      cases hx : s.exhausted with
      | true =>
        have hend : s.step = (some (s.mark .endMarker []), s) := by simp [step, hq, hx]
        rw [hend]
        exact ⟨hdue, ended hP hq hx rfl⟩
      | false =>
        have heffect := step_effect hq hx
        exact ⟨heffect.due hdue, effect hP hq hx heffect⟩
  suffices hall : s.context.Due ∧ P xs s.context from hall.2
  induction h with
  | start => exact ⟨fun _ hy ↦ absurd hy List.not_mem_nil, start⟩
  | @quiet xs s s' _ hs ih =>
    have := hstep ih.1 ih.2
    rwa [hs, Option.toList_none, List.append_nil] at this
  | @produce xs x s s' _ hs ih =>
    have := hstep ih.1 ih.2
    rwa [hs] at this
  | mark _ _ ih => exact ih

theorem Run.due (h : Run source first xs s) : s.context.Due := by
  refine h.induct (P := fun _ c ↦ c.Due) (fun _ hy ↦ absurd hy List.not_mem_nil) ?_ (fun h _ _ _ ↦ h)
    fun h _ _ hr ↦ hr.due h
  intro _ _ x _ h hqueued _ y hy
  exact h y (hqueued ▸ List.mem_cons_of_mem x hy)

theorem Run.between (h : Run source first xs s) : ∃ p, Between source first s p := by
  induction h with
  | start => exact ⟨_, .standing (standing_start source first)⟩
  | quiet _ hs ih =>
    obtain ⟨p, hp⟩ := ih
    rcases hp.step with ⟨s', hs', hbetween⟩ | ⟨x, s', hs', -⟩
    · obtain rfl := (Prod.mk.inj (hs.symm.trans hs')).2
      exact ⟨p, hbetween⟩
    · exact absurd (hs.symm.trans hs') (by simp)
  | produce _ hs ih =>
    obtain ⟨p, hp⟩ := ih
    rcases hp.step with ⟨s', hs', -⟩ | ⟨x, s', hs', hfollows⟩
    · exact absurd (hs.symm.trans hs') (by simp)
    · obtain rfl := (Prod.mk.inj (hs.symm.trans hs')).2
      exact ⟨_, hfollows.between⟩
  | mark ended _ ih =>
    obtain ⟨p, hp⟩ := ih
    exact ⟨p, hp.mark ended⟩

/-- The rows that have been read and those to come are the source. -/
theorem Run.supply (h : Run source first xs s) (hawake : s.exhausted = false) : s.supply = source.drop first := by
  obtain ⟨p, hp⟩ := h.between
  cases hp with
  | standing h => exact h.supply
  | margined h =>
    have hsupply := h.passed.supply
    rwa [Scan.supply, rows_passMargin h.current] at hsupply
  | spent h => exact absurd (h.exhausted.symm.trans hawake) (by simp)

theorem Run.nextWithin (n : Nat) : ∀ {s : Scan}, Run source first xs s → s.rowsLeft < n →
    Run source first (xs ++ [(Scan.nextWithin n s).1]) (Scan.nextWithin n s).2 := by
  induction n with
  | zero => exact fun _ h ↦ absurd h (Nat.not_lt_zero _)
  | succ n ih =>
    intro s h hleft
    have hprogress := step_progress s
    rw [Scan.nextWithin]
    split
    · rename_i x s' hs
      exact h.produce hs
    · rename_i s' hs
      rw [hs] at hprogress
      have hless : s'.rowsLeft < s.rowsLeft := hprogress.quiet rfl
      exact ih (h.quiet hs) (by omega)

theorem Run.next (h : Run source first xs s) : Run source first (xs ++ [s.next.1]) s.next.2 :=
  h.nextWithin _ s.rowsLeft_lt

theorem Run.restWithin (n : Nat) : ∀ {xs : List Lexeme} {s : Scan}, Run source first xs s →
    ∀ {ys : List Lexeme}, ys <+: (Scan.restWithin n s).1 → ∃ s', Run source first (xs ++ ys) s' := by
  induction n with
  | zero =>
    intro xs s h ys hys
    rw [List.prefix_nil.1 hys, List.append_nil]
    exact ⟨s, h⟩
  | succ n ih =>
    intro xs s h ys hys
    cases hended : s.ended with
    | true =>
      rw [restWithin_of_ended _ hended, List.prefix_nil] at hys
      rw [hys, List.append_nil]
      exact ⟨s, h⟩
    | false =>
      rw [restWithin_succ n hended] at hys
      rcases List.prefix_cons_iff.1 hys with rfl | ⟨zs, rfl, hzs⟩
      · rw [List.append_nil]
        exact ⟨s, h⟩
      · obtain ⟨s', hs'⟩ := ih (h.next.mark _) hzs
        rw [List.append_assoc] at hs'
        exact ⟨s', hs'⟩

/-- The lexemes of a text, up to any of them, are those of a run. -/
theorem exists_run_of_prefix {t : Text} (h : xs <+: ofText t) :
    ∃ s, Run (Document.ofText t).source 0 xs s :=
  Run.restWithin _ .start h

end Scan

end HeaderHints
