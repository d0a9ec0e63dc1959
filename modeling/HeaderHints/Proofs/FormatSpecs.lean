import HeaderHints.Proofs.FormattedStrings
import HeaderHints.Proofs.StringEnds

/-!
# Format specifications

A colon where no bracket of a replacement field is open starts the format specification of the field, and from
there to the closing brace of the field there is nothing but literal text and further fields
(`Scan.colon_starts_spec`). The exception is a colon with an equals sign behind it. Operators are read by
their longest match before the field is asked, so these two are one operator, and the field goes on as it was.

The field keeps its place in the stack of frames while the specification is read. `Deeper` says that a field
within it is open, and perhaps strings in that field. Such a field may hold anything, errors included, so of the
lexemes in it nothing is said here but where it starts and ends: the scan comes back to the specification by the
closing brace of the field and in no other way (`step_deeper`).
-/

namespace HeaderHints

open Lexeme

namespace Scan

variable {s s' s₁ s₂ : Scan} {x y : Lexeme} {xs ys zs : List Lexeme} {f : Frame} {outer : List Frame}
  {before rest : Text}

/-! ### Walks -/

/-- The scan comes from `s₁` to a further state and produces the lexemes on the way. All states meet `P`. -/
inductive Walk (P : Scan → Prop) (s₁ : Scan) : List Lexeme → Scan → Prop
  | start : P s₁ → Walk P s₁ [] s₁
  | quiet {xs : List Lexeme} {s s' : Scan} : Walk P s₁ xs s → s.step = (none, s') → P s' → Walk P s₁ xs s'
  | produce {xs : List Lexeme} {x : Lexeme} {s s' : Scan} : Walk P s₁ xs s → s.step = (some x, s') → P s' →
      Walk P s₁ (xs ++ [x]) s'

/-- Any walk. -/
abbrev Comes (s₁ : Scan) : List Lexeme → Scan → Prop :=
  Walk (fun _ ↦ True) s₁

theorem Run.walk {P : Scan → Prop} {source : Source} {first : Nat} (h : Run source first xs s)
    (hwalk : Walk P s ys s') : Run source first (xs ++ ys) s' := by
  induction hwalk with
  | start => simpa using h
  | quiet _ hstep _ ih => exact ih.quiet hstep
  | produce _ hstep _ ih =>
    rw [← List.append_assoc]
    exact ih.produce hstep

/-! ### A specification and the fields within it -/

/-- Within the innermost field of `f` a further field is open, and perhaps strings in it. -/
def Deeper (f : Frame) (outer : List Frame) (s : Scan) : Prop :=
  ∃ opened inner, inner ≠ [] ∧ s.frames = opened ++ { f with fields := inner ++ f.fields } :: outer

/-- The row at hand has come to its end or to its line feed. -/
def AtRowEnd (s : Scan) : Prop :=
  ∃ before rest, s.current = some (before, rest) ∧ (rest = [] ∨ rest.head? = some '\n')

/-- From `s₁` on there is nothing but literal text and whole fields, and nothing between them is passed over. -/
inductive Pieces (f : Frame) (outer : List Frame) (s₁ : Scan) : List Lexeme → Scan → Prop
  | nil : s₁.frames = f :: outer → Pieces f outer s₁ [] s₁
  | quiet {xs : List Lexeme} {s s' : Scan} : Pieces f outer s₁ xs s → s.step = (none, s') →
      s'.frames = f :: outer → s'.seen = s.seen → Pieces f outer s₁ xs s'
  | text {xs : List Lexeme} {x : Lexeme} {s s' : Scan} : Pieces f outer s₁ xs s → s.step = (some x, s') →
      s'.frames = f :: outer → x.tag = .fstringMiddle → s'.seen = s.seen ++ x.text →
      Pieces f outer s₁ (xs ++ [x]) s'
  | field {xs ys : List Lexeme} {x y : Lexeme} {s s₂ s₃ s' : Scan} : Pieces f outer s₁ xs s →
      s.step = (some x, s₂) → x.IsOp ['{'] → s₂.seen = s.seen ++ ['{'] → Walk (Deeper f outer) s₂ ys s₃ →
      s₃.step = (some y, s') → s'.frames = f :: outer → y.IsOp ['}'] → Pieces f outer s₁ (xs ++ x :: ys ++ [y]) s'

/-- The specification that starts at `s₁` has not ended yet: the scan stands in its literal text, or in a field
within it. -/
inductive InSpec (f : Frame) (outer : List Frame) (s₁ : Scan) : List Lexeme → Scan → Prop
  | text {xs : List Lexeme} {s : Scan} : Pieces f outer s₁ xs s → InSpec f outer s₁ xs s
  | field {xs ys : List Lexeme} {x : Lexeme} {s s₂ s' : Scan} : Pieces f outer s₁ xs s →
      s.step = (some x, s₂) → x.IsOp ['{'] → s₂.seen = s.seen ++ ['{'] → Walk (Deeper f outer) s₂ ys s' →
      InSpec f outer s₁ (xs ++ x :: ys) s'

/-- What the lexemes from the start of a specification at `s₁` on can be. -/
inductive Specified (f : Frame) (outer : List Frame) (s₁ : Scan) : List Lexeme → Scan → Prop
  | inside {xs : List Lexeme} {s : Scan} : InSpec f outer s₁ xs s → Specified f outer s₁ xs s
  /-- The closing brace ends the field. -/
  | closed {xs ys : List Lexeme} {y : Lexeme} {s s₂ s' : Scan} : Pieces f outer s₁ xs s →
      s.step = (some y, s₂) → s₂.frames = { f with fields := f.fields.tail } :: outer → y.IsOp ['}'] →
      s₂.seen = s.seen ++ ['}'] → Comes s₂ ys s' → Specified f outer s₁ (xs ++ y :: ys) s'
  /-- The row ends before the string, whose quotes are not tripled, and an error ends the string. -/
  | broken {xs ys : List Lexeme} {y : Lexeme} {s s₂ s' : Scan} : InSpec f outer s₁ xs s →
      s.step = (some y, s₂) → s₂.frames = outer → y.tag = .error → y.text = [] → s₂.AtRowEnd → Comes s₂ ys s' →
      Specified f outer s₁ (xs ++ y :: ys) s'
  /-- The source has run out, and the open blocks are closed. -/
  | ended {xs ys : List Lexeme} {s s' : Scan} : InSpec f outer s₁ xs s → s.load.current = none →
      (∀ y ∈ ys, y.tag = .dedent ∨ y.tag = .endMarker) → Comes s ys s' → Specified f outer s₁ (xs ++ ys) s'

/-! ### Steps in the literal text of a specification -/

/-- What a step can do in the literal text of a specification, where `done` has been seen. -/
inductive SpecStep (f : Frame) (outer : List Frame) (done : Text) : Option Lexeme × Scan → Prop
  | quiet {s' : Scan} : s'.frames = f :: outer → s'.seen = done → SpecStep f outer done (none, s')
  | text {x : Lexeme} {s' : Scan} : s'.frames = f :: outer → x.tag = .fstringMiddle →
      s'.seen = done ++ x.text → SpecStep f outer done (some x, s')
  | opened {x : Lexeme} {s' : Scan} : s'.frames = { f with fields := {} :: f.fields } :: outer → x.IsOp ['{'] →
      s'.seen = done ++ ['{'] → SpecStep f outer done (some x, s')
  | closed {x : Lexeme} {s' : Scan} : s'.frames = { f with fields := f.fields.tail } :: outer → x.IsOp ['}'] →
      s'.seen = done ++ ['}'] → SpecStep f outer done (some x, s')
  | broken {x : Lexeme} {s' : Scan} : s'.frames = outer → x.tag = .error → x.text = [] → s'.AtRowEnd →
      SpecStep f outer done (some x, s')

/-- The text that a lexeme of the row at hand takes has been seen behind it. -/
theorem seen_of_taken {text r : Text} (hcur : s.current = some (before, rest)) (hpast : s'.past = s.past)
    (hcur' : s'.current = some (before ++ text, r)) : s'.seen = s.seen ++ text := by
  simp [seen, behind, hcur, hpast, hcur']

theorem specStep_literal {field : Field} {fields : List Field} (hframes : s.frames = f :: outer)
    (hfields : f.fields = field :: fields) (hcur : s.current = some (before, rest))
    (hfeed : ∀ {u v : Text}, rest = u ++ '\n' :: v → v = []) :
    SpecStep f outer s.seen (s.literal f before rest) := by
  have happ := splitLiteral_append f.quotes (!f.fields.isEmpty) rest
  have hstop := @splitLiteral_nil_cons f.quotes (!f.fields.isEmpty) rest
  have htext : ∀ {text r : Text}, SpecStep f outer s.seen (s.produce .fstringMiddle before text r) := fun {text r} ↦
    .text hframes rfl (seen_of_taken hcur rfl rfl)
  have hbroken : ∀ {r : Text}, r = [] ∨ r.head? = some '\n' →
      SpecStep f outer s.seen (s.closeFrame.produce .error before [] r) := fun hr ↦
    .broken (congrArg List.tail hframes) rfl rfl ⟨_, _, rfl, hr⟩
  unfold literal
  dsimp only
  generalize splitLiteral f.quotes (!f.fields.isEmpty) rest = parts at happ hstop ⊢
  split
  · rename_i text after
    split
    · -- the rest of the row is empty, and the row is left
      obtain rfl : after = [] := hfeed happ.symm
      refine .text hframes rfl ?_
      simp [seen, behind, leaveRow, produce, rows, hcur]
    split
    · exact htext
    · exact hbroken (.inr rfl)
  · exact htext
  · split
    · refine .quiet hframes ?_
      have hrest : rest = [] := happ.symm
      simp [seen, behind, leaveRow, rows, hcur, hrest]
    · exact hbroken (.inl rfl)
  · refine .opened ?_ ⟨rfl, rfl⟩ (seen_of_taken hcur rfl rfl)
    show s.frames.modifyHead _ = _
    rw [hframes]
    rfl
  · rw [if_pos (by simp [hfields])]
    refine .closed ?_ ⟨rfl, rfl⟩ (seen_of_taken hcur rfl rfl)
    show s.frames.modifyHead _ = _
    rw [hframes]
    rfl
  · -- in a specification literal text does not stop at quotes
    rename_i after hnl hnil hopen hclose
    cases after with
    | nil => exact (hnil rfl).elim
    | cons c r =>
      rcases hstop (c := c) (r := r) rfl with rfl | rfl | rfl | ⟨hspec, -⟩
      · exact (hnl _ rfl).elim
      · exact (hopen _ rfl).elim
      · exact (hclose _ rfl).elim
      · exact absurd hspec (by simp [hfields])

/-! ### Errors -/

/-- An error does not close a string with replacement fields, unless the row has come to its end. -/
def ErrorAtEnd (frames : List Frame) (r : Option Lexeme × Scan) : Prop :=
  ∀ x ∈ r.1, x.tag = .error → r.2.frames = frames ∨ r.2.frames = frames.tail ∧ x.text = [] ∧ r.2.AtRowEnd

theorem errorAtEnd_of_frames {frames : List Frame} {r : Option Lexeme × Scan} (h : r.2.frames = frames) :
    ErrorAtEnd frames r :=
  fun _ _ _ ↦ .inl h

theorem errorAtEnd_of_tag {frames : List Frame} (h : x.tag ≠ .error) : ErrorAtEnd frames (some x, s') :=
  fun _ hx htag ↦ absurd htag (Option.some.inj hx ▸ h)

theorem frames_finish (s : Scan) : s.finish.2.frames = s.frames := by
  rw [finish]
  split <;> rfl

theorem frames_stringRows {q : Quotes} {opening : Position} (n : Nat) :
    ∀ s : Scan, (stringRows q opening n s).2.frames = s.frames := by
  induction n with
  | zero => exact frames_finish
  | succ n ih =>
    intro s
    rw [stringRows]
    split
    · exact frames_finish s
    split
    · rfl
    · rfl
    · exact (ih _).trans load_frames

theorem errorAtEnd_string (word : Text) (q : Quotes) : ErrorAtEnd s.frames (s.string before word q rest) := by
  rw [Scan.string]
  split
  · exact errorAtEnd_of_tag (by simp)
  · exact errorAtEnd_of_frames (frames_stringRows _ _)

theorem errorAtEnd_plain (before rest : Text) : ErrorAtEnd s.frames (s.plain before rest) := by
  rw [plain]
  generalize rest.span isGap = parts
  obtain ⟨gap, rest⟩ := parts
  dsimp only
  cases rest with
  | nil => exact errorAtEnd_of_frames rfl
  | cons c t =>
    dsimp only
    split
    · exact errorAtEnd_of_frames rfl
    split
    · exact errorAtEnd_of_frames rfl
    split
    · split <;> exact errorAtEnd_of_frames rfl
    split
    · exact errorAtEnd_of_frames rfl
    split
    · exact errorAtEnd_of_frames rfl
    split
    · exact errorAtEnd_string _ _
    split
    · split
      · split
        · exact errorAtEnd_string _ _
        · exact errorAtEnd_of_frames rfl
      · exact errorAtEnd_of_frames rfl
    split
    · exact errorAtEnd_of_tag (by simp)
    · exact errorAtEnd_of_frames rfl

theorem errorAtEnd_literal (f : Frame) (before rest : Text) : ErrorAtEnd s.frames (s.literal f before rest) := by
  have hbroken : ∀ {r : Text}, r = [] ∨ r.head? = some '\n' →
      ErrorAtEnd s.frames (s.closeFrame.produce .error before [] r) :=
    fun hr x hx _ ↦ .inr ⟨rfl, Option.some.inj hx ▸ rfl, _, _, rfl, hr⟩
  rw [literal]
  dsimp only
  generalize splitLiteral f.quotes (!f.fields.isEmpty) rest = parts
  split
  · split
    · exact errorAtEnd_of_frames rfl
    split
    · exact errorAtEnd_of_frames rfl
    · exact hbroken (.inr rfl)
  · exact errorAtEnd_of_frames rfl
  · split
    · exact errorAtEnd_of_frames rfl
    · exact hbroken (.inl rfl)
  · exact errorAtEnd_of_tag (by simp)
  · split
    · exact errorAtEnd_of_tag (by simp)
    · exact errorAtEnd_of_frames rfl
  · exact errorAtEnd_of_tag (by simp)

/-- **What an error does to the strings that are open.** -/
theorem errorAtEnd_step (hidle : s.queued = []) (hawake : s.exhausted = false) (hframes : s.frames ≠ []) :
    ErrorAtEnd s.frames s.step := by
  rw [← load_frames] at hframes ⊢
  rw [step, hidle, hawake]
  dsimp only
  rw [if_neg (by simp)]
  split
  · exact errorAtEnd_of_frames (frames_finish _)
  · split
    · exact errorAtEnd_literal _ _ _
    · exact errorAtEnd_plain _ _
  · exact absurd ‹_› hframes

/-! ### Steps in the fields of a specification -/

/-- When the innermost field is closed, another one is open in the specification, or the scan is back in its
literal text. -/
theorem deeper_or_back {inner : List Field} (h : s.frames = { f with fields := inner ++ f.fields } :: outer) :
    Deeper f outer s ∨ s.frames = f :: outer := by
  cases inner with
  | nil => exact .inr h
  | cons field inner => exact .inl ⟨[], field :: inner, by simp, h⟩

/-- **A step in a field of a specification.** The field ends with its closing brace, or the string ends with an
error at the end of the row. -/
theorem step_deeper (h : Deeper f outer s) (hidle : s.queued = []) (hawake : s.exhausted = false)
    (hstep : s.step = (some x, s')) :
    Deeper f outer s' ∨ (s'.frames = f :: outer ∧ x.IsOp ['}']) ∨
      s'.frames = outer ∧ x.tag = .error ∧ x.text = [] ∧ s'.AtRowEnd := by
  obtain ⟨opened, inner, hinner, hframes⟩ := h
  obtain ⟨field, inner, rfl⟩ := List.exists_cons_of_ne_nil hinner
  have hne : s.frames ≠ [] := by simp [hframes]
  have herror := errorAtEnd_step hidle hawake hne
  have heffect := step_effect hidle hawake
  rw [hstep] at heffect herror
  -- the strings that are open stay open
  have hsame : s'.frames = s.frames → Deeper f outer s' := fun heq ↦ ⟨opened, _, hinner, heq.trans hframes⟩
  -- a change in one of the strings that are open in the field
  have hopened : ∀ {g : Frame} {gs : List Frame},
      s'.frames = g :: (gs ++ { f with fields := field :: inner ++ f.fields } :: outer) → Deeper f outer s' :=
    fun {g gs} heq ↦ ⟨g :: gs, _, hinner, heq⟩
  cases heffect with
  | last _ _ hs' | closeAll _ hs' | lineBreak _ _ hs' | plain _ _ hs' | literal _ _ hs' =>
    exact .inl (hsame (congrArg Context.frames hs'))
  | indent _ hnone | dedent hnone => exact absurd hnone hne
  | error htag _ _ =>
    rcases herror x rfl htag with heq | ⟨heq, htext, hend⟩
    · exact .inl (hsame heq)
    · rw [hframes] at heq
      cases opened with
      | nil => exact .inr (.inr ⟨heq, htag, htext, hend⟩)
      | cons g gs => exact .inl ⟨gs, _, hinner, heq⟩
  | operator _ htag hs' =>
    have heq : s'.frames = s.frames.modifyHead (·.after x.text) := congrArg Context.frames hs'
    rw [hframes] at heq
    cases opened with
    | cons g gs => exact .inl (hopened heq)
    | nil =>
      have heq' : s'.frames = Frame.after x.text { f with fields := field :: (inner ++ f.fields) } :: outer := heq
      simp only [Frame.after, Bool.and_eq_true, decide_eq_true_eq] at heq'
      split at heq'
      · rename_i hclose
        exact (deeper_or_back heq').imp_right fun hback ↦ .inl ⟨hback, htag, hclose.1⟩
      · exact .inl ⟨[], field.after x.text :: inner, by simp, heq'⟩
  | @openString _ _ q _ _ hs' =>
    have heq : s'.frames = ⟨q, []⟩ :: s.frames := congrArg Context.frames hs'
    rw [hframes] at heq
    exact .inl (hopened heq)
  | openField hf _ _ _ hs' =>
    have heq := congrArg Context.frames hs'
    have hf' := hframes.symm.trans hf
    cases opened with
    | cons g gs =>
      obtain ⟨rfl, rfl⟩ := List.cons_eq_cons.1 hf'
      exact .inl (hopened heq)
    | nil =>
      obtain ⟨rfl, rfl⟩ := List.cons_eq_cons.1 hf'
      exact .inl ⟨[], {} :: field :: inner, by simp, heq⟩
  | closeField hf hfields _ htag htext hs' =>
    have heq := congrArg Context.frames hs'
    have hf' := hframes.symm.trans hf
    cases opened with
    | cons g gs =>
      obtain ⟨rfl, rfl⟩ := List.cons_eq_cons.1 hf'
      exact .inl (hopened heq)
    | nil =>
      obtain ⟨rfl, rfl⟩ := List.cons_eq_cons.1 hf'
      obtain ⟨-, rfl⟩ := List.cons_eq_cons.1 hfields
      exact (deeper_or_back heq).imp_right fun hback ↦ .inl ⟨hback, htag, htext⟩
  | closeString hf hfields _ hs' =>
    have heq := congrArg Context.frames hs'
    have hf' := hframes.symm.trans hf
    cases opened with
    | cons g gs =>
      obtain ⟨rfl, rfl⟩ := List.cons_eq_cons.1 hf'
      exact .inl ⟨gs, _, hinner, heq⟩
    | nil =>
      obtain ⟨rfl, rfl⟩ := List.cons_eq_cons.1 hf'
      exact absurd hfields (by simp)

/-! ### The extent of a specification -/

variable {P : Scan → Prop} {t : Text} {source : Source} {first : Nat} {field : Field} {fields : List Field}

/-- One step more. -/
theorem Walk.onward {x? : Option Lexeme} (h : Walk P s₁ xs s) (hstep : s.step = (x?, s')) (hs' : P s') :
    Walk P s₁ (xs ++ x?.toList) s' := by
  cases x? with
  | none =>
    rw [Option.toList_none, List.append_nil]
    exact h.quiet hstep hs'
  | some x => exact h.produce hstep hs'

theorem Walk.comes (h : Walk P s₁ xs s) : Comes s₁ xs s := by
  induction h with
  | start => exact .start trivial
  | quiet _ hstep _ ih => exact ih.quiet hstep trivial
  | produce _ hstep _ ih => exact ih.produce hstep trivial

theorem Walk.append (h : Comes s₁ xs s) (h' : Comes s ys s') : Comes s₁ (xs ++ ys) s' := by
  induction h' with
  | start => rwa [List.append_nil]
  | quiet _ hstep _ ih => exact ih.quiet hstep trivial
  | produce _ hstep _ ih =>
    rw [← List.append_assoc]
    exact ih.produce hstep trivial

theorem Pieces.frames (h : Pieces f outer s₁ xs s) : s.frames = f :: outer := by
  cases h with
  | nil h | quiet _ _ h | text _ _ h | field _ _ _ _ _ _ h => exact h

theorem Walk.enter (h : Comes s₁ xs s) (hstep : s.step = (some x, s₂)) (hwalk : Walk P s₂ ys s') :
    Comes s₁ (xs ++ x :: ys) s' := by
  rw [List.append_cons]
  exact (h.produce hstep trivial).append hwalk.comes

theorem Pieces.comes (h : Pieces f outer s₁ xs s) : Comes s₁ xs s := by
  induction h with
  | nil => exact .start trivial
  | quiet _ hstep _ _ ih => exact ih.quiet hstep trivial
  | text _ hstep _ _ _ ih => exact ih.produce hstep trivial
  | field _ hstep _ _ hwalk hstep' _ _ ih => exact (ih.enter hstep hwalk).produce hstep' trivial

theorem Walk.last (h : Walk P s₁ xs s) : P s := by
  cases h with
  | start h | quiet _ _ h | produce _ _ h => exact h

theorem InSpec.comes (h : InSpec f outer s₁ xs s) : Comes s₁ xs s := by
  cases h with
  | text h => exact h.comes
  | field h hstep _ _ hwalk => exact h.comes.enter hstep hwalk

theorem InSpec.frames_ne_nil (h : InSpec f outer s₁ xs s) : s.frames ≠ [] := by
  cases h with
  | text h => simp [h.frames]
  | field _ _ _ _ hwalk =>
    obtain ⟨opened, inner, -, hframes⟩ := hwalk.last
    simp [hframes]

/-- In a string nothing is due, unless the source has run out. -/
theorem Run.awake_of_row (h : Run source first xs s) (hframes : s.frames ≠ []) (hload : s.load.current ≠ none) :
    s.queued = [] ∧ s.exhausted = false := by
  obtain ⟨p, hp⟩ := h.between
  cases hp with
  | standing h => exact ⟨h.idle, h.awake⟩
  | margined h => exact absurd h.frames hframes
  | spent h => exact absurd h.load_current hload

/-- The next lexeme, and each one behind it, closes a block or is the end marker. -/
def AtEnd (s : Scan) : Prop :=
  ∃ x s', s.step = (some x, s') ∧ Ends x s'

theorem Spent.atEnd (h : s.Spent) : s.AtEnd := by
  obtain ⟨x, s', hstep, hends, -⟩ := h.step
  exact ⟨x, s', hstep, hends⟩

theorem Run.atEnd_of_no_row (h : Run source first xs s) (hframes : s.frames ≠ []) (hload : s.load.current = none) :
    s.AtEnd := by
  obtain ⟨p, hp⟩ := h.between
  cases hp with
  | standing h =>
    obtain ⟨x, s', hstep, hends, -⟩ := step_ends h.idle h.awake hload
    exact ⟨x, s', hstep, hends⟩
  | margined h => exact absurd h.frames hframes
  | spent h => exact h.atEnd

theorem AtEnd.comes (h : s.AtEnd) (hcomes : Comes s ys s') :
    s'.AtEnd ∧ ∀ y ∈ ys, y.tag = .dedent ∨ y.tag = .endMarker := by
  induction hcomes with
  | start => exact ⟨h, by simp⟩
  | quiet _ hstep _ ih =>
    obtain ⟨⟨x, s₂, hstep', -⟩, -⟩ := ih
    exact absurd (hstep.symm.trans hstep') (by simp)
  | produce _ hstep _ ih =>
    obtain ⟨⟨x, s₂, hstep', hends⟩, hall⟩ := ih
    obtain ⟨hx, rfl⟩ := Prod.mk.inj (hstep.symm.trans hstep')
    obtain rfl := Option.some.inj hx
    exact ⟨hends.spent.atEnd, List.forall_mem_append.2 ⟨hall, List.forall_mem_singleton.2 hends.tag⟩⟩

theorem seen_load {b r : Text} (h : s.load.current = some (b, r)) : s.load.seen = s.seen := by
  rw [seen_of_load h]
  simp [seen, behind, h]

/-- A line feed ends the row at hand. -/
theorem Run.eq_nil_of_feed (h : Run (Document.ofText t).source 0 xs s) (hawake : s.exhausted = false)
    {b u v : Text} (hload : s.load.current = some (b, u ++ '\n' :: v)) : v = [] := by
  have hsupply := (load_supply hload).trans (h.supply hawake)
  obtain ⟨more, hdoc, -⟩ := Document.exists_append_of_source hsupply
  have hrow : b ++ (u ++ '\n' :: v) ∈ Text.rows t := by
    rw [show Text.rows t = s.load.rows ++ more from hdoc]
    simp [rows, hload]
  exact (Text.rows_lined t).1 _ hrow (List.append_assoc ..).symm

/-- In literal text a step reads on in it. -/
theorem step_eq_literal {b r : Text} (hidle : s.queued = []) (hawake : s.exhausted = false)
    (hload : s.load.current = some (b, r)) (hframes : s.frames = f :: outer) (hliteral : f.isLiteral = true) :
    s.step = s.load.literal f b r := by
  rw [← load_frames] at hframes
  rw [step, hidle, hawake]
  dsimp only
  rw [if_neg (by simp), hload, hframes]
  exact if_pos hliteral

/-- A step of a specification, in its literal text or in a field within it. -/
theorem InSpec.step {x? : Option Lexeme} (hrun : Run (Document.ofText t).source 0 xs s₁)
    (hfields : f.fields = field :: fields) (hspec : field.inSpec = true) (h : InSpec f outer s₁ ys s)
    (hstep : s.step = (x?, s')) : Specified f outer s₁ (ys ++ x?.toList) s' := by
  have hrun' := hrun.walk h.comes
  cases hload : s.load.current with
  | none =>
    have hcomes : Comes s ([] ++ x?.toList) s' := (Walk.start trivial).onward hstep trivial
    exact .ended h hload ((hrun'.atEnd_of_no_row h.frames_ne_nil hload).comes hcomes).2 hcomes
  | some row =>
    obtain ⟨b, r⟩ := row
    obtain ⟨hidle, hawake⟩ := hrun'.awake_of_row h.frames_ne_nil (by simp [hload])
    cases h with
    | text hpieces =>
      have hliteral : f.isLiteral = true := by simp [Frame.isLiteral, hfields, hspec]
      have hfeed : ∀ {u v : Text}, r = u ++ '\n' :: v → v = [] := by
        rintro u v rfl
        exact hrun'.eq_nil_of_feed hawake hload
      have hout := specStep_literal (s := s.load) (load_frames.trans hpieces.frames) hfields hload hfeed
      rw [seen_load hload, ← step_eq_literal hidle hawake hload hpieces.frames hliteral, hstep] at hout
      cases hout with
      | quiet hframes hseen =>
        rw [Option.toList_none, List.append_nil]
        exact .inside (.text (hpieces.quiet hstep hframes hseen))
      | text hframes htag hseen => exact .inside (.text (hpieces.text hstep hframes htag hseen))
      | opened hframes hx hseen =>
        refine .inside (.field hpieces hstep hx hseen (.start ⟨[], [{}], by simp, ?_⟩))
        exact hframes
      | closed hframes hx hseen => exact .closed hpieces hstep hframes hx hseen (.start trivial)
      | broken hframes htag htext hend =>
        exact .broken (.text hpieces) hstep hframes htag htext hend (.start trivial)
    | @field ys zs y s₀ s₂ _ hpieces hopen hy hseen hwalk =>
      cases x? with
      | none =>
        have heffect := step_effect hidle hawake
        rw [hstep] at heffect
        cases heffect with
        | quiet hs' =>
          obtain ⟨opened, inner, hinner, hframes⟩ := hwalk.last
          have hdeep : Deeper f outer s' :=
            ⟨opened, inner, hinner, (congrArg Context.frames hs').trans hframes⟩
          rw [Option.toList_none, List.append_nil]
          exact .inside (.field hpieces hopen hy hseen (hwalk.quiet hstep hdeep))
      | some x =>
        rcases step_deeper hwalk.last hidle hawake hstep with hdeep | ⟨hframes, hx⟩ | ⟨hframes, htag, htext, hend⟩
        · rw [List.append_assoc, List.cons_append]
          exact .inside (.field hpieces hopen hy hseen (hwalk.produce hstep hdeep))
        · exact .inside (.text (.field hpieces hopen hy hseen hwalk hstep hframes hx))
        · exact .broken (.field hpieces hopen hy hseen hwalk) hstep hframes htag htext hend (.start trivial)

/-- **The extent of a specification.** Whatever lexemes follow, they are literal text and whole fields up to the
closing brace. -/
theorem specified_of_comes (hrun : Run (Document.ofText t).source 0 xs s₁) (hframes : s₁.frames = f :: outer)
    (hfields : f.fields = field :: fields) (hspec : field.inSpec = true) (h : Comes s₁ ys s) :
    Specified f outer s₁ ys s := by
  have hnext : ∀ {ys : List Lexeme} {s s' : Scan} {x? : Option Lexeme}, Specified f outer s₁ ys s →
      s.step = (x?, s') → Specified f outer s₁ (ys ++ x?.toList) s' := by
    intro ys s s' x? h hstep
    cases h with
    | inside h => exact h.step hrun hfields hspec hstep
    | closed hpieces hclose hframes hy hseen hcomes =>
      rw [List.append_assoc, List.cons_append]
      exact .closed hpieces hclose hframes hy hseen (hcomes.onward hstep trivial)
    | broken hin hbreak hframes htag htext hend hcomes =>
      rw [List.append_assoc, List.cons_append]
      exact .broken hin hbreak hframes htag htext hend (hcomes.onward hstep trivial)
    | ended hin hload _ hcomes =>
      have hcomes' := hcomes.onward hstep trivial
      have hatEnd := (hrun.walk hin.comes).atEnd_of_no_row hin.frames_ne_nil hload
      rw [List.append_assoc]
      exact .ended hin hload (hatEnd.comes hcomes').2 hcomes'
  induction h with
  | start => exact .inside (.text (.nil hframes))
  | quiet _ hstep _ ih =>
    have := hnext ih hstep
    rwa [Option.toList_none, List.append_nil] at this
  | produce _ hstep _ ih => exact hnext ih hstep

/-! ### The colon -/

/-- A colon is an operator of its own, unless an equals sign follows. -/
theorem operator?_colon (t : Text) :
    operator? (':' :: t) = some (if t.head? = some '=' then [':', '='] else [':']) := by
  rcases t with - | ⟨c, t⟩
  · rfl
  · by_cases hc : c = '='
    · rw [hc]
      rfl
    · have hc' : ('=' == c) = false := by simpa using Ne.symm hc
      simp [operator?, operators, List.find?, List.isPrefixOf, hc, hc']

theorem plain_colon {gap after : Text} (hgap : ∀ c ∈ gap, isGap c = true) :
    let op := if after.head? = some '=' then [':', '='] else [':']
    s.plain before (gap ++ ':' :: after) = s.operator (before ++ gap) op ((':' :: after).drop op.length) := by
  have hspan : (gap ++ ':' :: after).span isGap = (gap, ':' :: after) := by
    rw [List.span_eq_takeWhile_dropWhile, List.takeWhile_append_of_pos hgap, List.dropWhile_append_of_pos hgap]
    simp [isGap]
  rw [plain, hspan]
  simp only [operator?_colon]
  rfl

/-- **A colon starts the format specification.** Where a scan of a text gets to a colon in a replacement field,
outside the brackets that are open in it, the colon is a lexeme of its own, and literal text and whole fields
follow up to the closing brace. Only a colon with an equals sign behind it is part of a longer operator, and the
field goes on. -/
theorem colon_starts_spec (gap : Text) {after : Text} (hrun : Run (Document.ofText t).source 0 xs s)
    (hframes : s.frames = f :: outer) (hfields : f.fields = field :: fields) (hplain : field.inSpec = false)
    (htop : field.isTop = true) (hload : s.load.current = some (before, gap ++ ':' :: after))
    (hgap : ∀ c ∈ gap, isGap c = true) :
    let start := s.load.position (before ++ gap)
    let g := { f with fields := { field with inSpec := true } :: fields }
    (after.head? ≠ some '=' → ∃ s₁,
      s.step = (some ⟨.op, [':'], start, s.load.position (before ++ gap ++ [':'])⟩, s₁) ∧
      s₁.seen = s.seen ++ gap ++ [':'] ∧ s₁.frames = g :: outer ∧
      ∀ ys s', Comes s₁ ys s' → Specified g outer s₁ ys s') ∧
    (after.head? = some '=' → ∃ s₁,
      s.step = (some ⟨.op, [':', '='], start, s.load.position (before ++ gap ++ [':', '='])⟩, s₁) ∧
      s₁.frames = s.frames) := by
  intro start g
  have hne : s.frames ≠ [] := by simp [hframes]
  obtain ⟨hidle, hawake⟩ := hrun.awake_of_row hne (by simp [hload])
  have hliteral : f.isLiteral = false := by simp [Frame.isLiteral, hfields, hplain]
  have hframes' : s.load.frames = f :: outer := load_frames.trans hframes
  have hstep : s.step = s.load.plain before (gap ++ ':' :: after) := by
    rw [step, hidle, hawake]
    dsimp only
    rw [if_neg (by simp), hload, hframes']
    exact if_neg (by simp [hliteral])
  rw [plain_colon hgap] at hstep
  have hfield : ∀ {op : Text}, op ≠ ['}'] → s.load.frames.modifyHead (·.after op) =
      { f with fields := field.after op :: fields } :: outer := by
    intro op hop
    rw [hframes', List.modifyHead_cons, Frame.after, hfields]
    simp [hop]
  refine ⟨fun hafter ↦ ?_, fun hafter ↦ ?_⟩
  · rw [if_neg hafter] at hstep
    have hspec : field.after [':'] = { field with inSpec := true } := by simp [Field.after, htop]
    have hopened : (s.load.operator (before ++ gap) [':'] after).2.frames = g :: outer :=
      (hfield (by simp)).trans (by rw [hspec])
    have hpast : (s.load.operator (before ++ gap) [':'] after).2.past = s.load.past := rfl
    have hcur : (s.load.operator (before ++ gap) [':'] after).2.current = some (before ++ (gap ++ [':']), after) := by
      rw [← List.append_assoc]
      rfl
    have hseen := seen_of_taken hload hpast hcur
    refine ⟨_, hstep, ?_, hopened, fun ys s' hcomes ↦ ?_⟩
    · rwa [seen_load hload, ← List.append_assoc] at hseen
    · exact specified_of_comes (hrun.produce hstep) hopened rfl rfl hcomes
  · rw [if_pos hafter] at hstep
    have hsame : field.after [':', '='] = field := rfl
    refine ⟨_, hstep, (hfield (by simp)).trans ?_⟩
    rw [hsame, ← hfields]
    exact hframes.symm

/-- A specification with a field in it, behind a field in brackets. -/
theorem colon_starts_spec_nested :
    let source := (Document.ofText "f\"\x7b(x) :>\x7bw\x7d\x7d\"\n".toList).source
    ∃ xs s s₁ ys s', Run source 0 xs s ∧ s.frames = [⟨⟨'"', false⟩, [{}]⟩] ∧
      s.load.current = some ("f\"\x7b(x)".toList, " :>\x7bw\x7d\x7d\"\n".toList) ∧
      s.step = (some ⟨.op, [':'], ⟨0, 7⟩, ⟨0, 8⟩⟩, s₁) ∧ Comes s₁ ys s' ∧
      ys.map Lexeme.text = [['>'], ['\x7b'], ['w'], ['\x7d'], ['\x7d']] ∧
      Specified ⟨⟨'"', false⟩, [{ inSpec := true }]⟩ [] s₁ ys s' := by
  intro source
  have hrun : Run source 0 _ _ := .start
  iterate 5 replace hrun := hrun.produce rfl
  obtain ⟨s₁, hstep, -, -, hspec⟩ :=
    (colon_starts_spec [' '] hrun rfl rfl rfl rfl rfl (by decide)).1 (by decide)
  have hcomes : Comes s₁ [] s₁ := .start trivial
  obtain rfl := congrArg Prod.snd hstep
  iterate 5 replace hcomes := hcomes.produce rfl trivial
  exact ⟨_, _, _, _, _, hrun, rfl, rfl, hstep, hcomes, rfl, hspec _ _ hcomes⟩

/-- Before an equals sign the colon does not start a specification: it is no lexeme of its own. -/
theorem colon_joins_equals :
    let t := "f\"\x7bx:=5\x7d\"\n".toList
    ofText t = [⟨.fstringStart, ['f', '"'], ⟨0, 0⟩, ⟨0, 2⟩⟩, ⟨.op, ['\x7b'], ⟨0, 2⟩, ⟨0, 3⟩⟩,
        ⟨.name, ['x'], ⟨0, 3⟩, ⟨0, 4⟩⟩, ⟨.op, [':', '='], ⟨0, 4⟩, ⟨0, 6⟩⟩, ⟨.number, ['5'], ⟨0, 6⟩, ⟨0, 7⟩⟩,
        ⟨.op, ['\x7d'], ⟨0, 7⟩, ⟨0, 8⟩⟩, ⟨.fstringEnd, ['"'], ⟨0, 8⟩, ⟨0, 9⟩⟩,
        ⟨.newline, ['\n'], ⟨0, 9⟩, ⟨0, 10⟩⟩, ⟨.endMarker, [], ⟨1, 0⟩, ⟨1, 0⟩⟩] ∧
      ∃ xs s f outer field fields before after, Run (Document.ofText t).source 0 xs s ∧ s.frames = f :: outer ∧
        f.fields = field :: fields ∧ field.inSpec = false ∧ field.isTop = true ∧
        s.load.current = some (before, ':' :: after) ∧ ¬ ∃ x s', s.step = (some x, s') ∧ x.IsOp [':'] := by
  intro t
  have hrun : Run (Document.ofText t).source 0 _ ((start (Document.ofText t).source 0).after 3) :=
    Run.start.next.next.next
  refine ⟨by rfl, _, _, ⟨⟨'"', false⟩, [{}]⟩, [], {}, [], "f\"\x7bx".toList, "=5\x7d\"\n".toList, hrun, by rfl,
    rfl, rfl, rfl, by decide +kernel, ?_⟩
  rintro ⟨x, s', hstep, -, hx⟩
  obtain rfl := Option.some.inj (congrArg Prod.fst hstep)
  exact absurd hx (by decide +kernel)

end Scan

end HeaderHints
