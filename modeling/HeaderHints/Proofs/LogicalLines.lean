import Mathlib.Data.List.DropRight
import HeaderHints.Proofs.ScanEffects
import HeaderHints.Proofs.ScanEnd

/-!
# Logical lines

Whether a line break ends a logical line can be told from the lexemes before it, as long as none of them is an
error (`Lexeme.newline_iff`): no bracket may be open, nor a string with replacement fields, and the line has to
hold something besides comments.

The scan does not look back. It keeps a depth, a stack of frames and a note on the content of the line, and
`Scan.Recalls` says what these have to do with the lexemes so far.
-/

namespace HeaderHints

open Lexeme

namespace Lexeme

/-- The number of brackets that are open behind some lexemes. A bracket that closes nothing does not count. -/
def openBrackets (xs : List Lexeme) : Nat :=
  xs.foldl (fun depth x ↦ x.nest depth) 0

theorem openBrackets_concat (xs : List Lexeme) (x : Lexeme) :
    openBrackets (xs ++ [x]) = x.nest (openBrackets xs) := by
  simp [openBrackets]

/-- The lexemes behind the last end of a logical line. -/
def sinceNewline (xs : List Lexeme) : List Lexeme :=
  xs.rtakeWhile (·.tag ≠ .newline)

theorem sinceNewline_concat (xs : List Lexeme) (x : Lexeme) :
    sinceNewline (xs ++ [x]) = if x.tag = .newline then [] else sinceNewline xs ++ [x] := by
  simp [sinceNewline, List.rtakeWhile_concat]

/-- Whether the logical line that goes on behind some lexemes has content. -/
def HasContent (xs : List Lexeme) : Prop :=
  ∃ y ∈ sinceNewline xs, y.tag ∉ [.comment, .nl, .indent, .dedent]

theorem hasContent_concat (xs : List Lexeme) (x : Lexeme) :
    HasContent (xs ++ [x]) ↔
      x.tag ≠ .newline ∧ (HasContent xs ∨ x.tag ∉ [.comment, .nl, .indent, .dedent]) := by
  unfold HasContent
  rw [sinceNewline_concat]
  by_cases hx : x.tag = .newline
  · simp [hx]
  · simp [hx, or_and_right, exists_or]

/-- None of the lexemes is an error or the end marker. -/
def Regular (xs : List Lexeme) : Prop :=
  ∀ y ∈ xs, y.tag ≠ .error ∧ y.tag ≠ .endMarker

/-- The line breaks among some lexemes are told apart by what stands before them. -/
def Classified (xs : List Lexeme) : Prop :=
  ∀ before x after, xs = before ++ x :: after → x.tag = .newline ∨ x.tag = .nl → Regular before →
    (x.tag = .newline ↔ openBrackets before = 0 ∧
      countTag .fstringEnd before = countTag .fstringStart before ∧ HasContent before)

theorem Regular.of_concat {xs : List Lexeme} {x : Lexeme} (h : Regular (xs ++ [x])) :
    Regular xs ∧ x.tag ≠ .error ∧ x.tag ≠ .endMarker :=
  ⟨fun y hy ↦ h y (List.mem_append_left _ hy), h x (by simp)⟩

/-- One lexeme more. -/
theorem Classified.concat {xs : List Lexeme} {x : Lexeme} (h : Classified xs)
    (hx : x.tag = .newline ∨ x.tag = .nl → Regular xs → (x.tag = .newline ↔ openBrackets xs = 0 ∧
      countTag .fstringEnd xs = countTag .fstringStart xs ∧ HasContent xs)) : Classified (xs ++ [x]) := by
  intro before y after hsplit
  rcases List.eq_nil_or_concat' after with rfl | ⟨after, z, rfl⟩
  · obtain ⟨rfl, hy⟩ := List.append_inj' hsplit rfl
    obtain rfl := List.singleton_inj.1 hy
    exact hx
  · rw [← List.cons_append, ← List.append_assoc] at hsplit
    exact h before y after (List.append_inj' hsplit rfl).1

end Lexeme

namespace Scan

/-- What the scan keeps in mind goes with the lexemes so far. -/
structure Recalls (xs : List Lexeme) (c : Context) : Prop where
  depth : c.depth = openBrackets xs
  frames : c.frames.length + countTag .fstringEnd xs = countTag .fstringStart xs
  content : c.hasContent = true ↔ HasContent xs

variable {xs : List Lexeme} {x : Lexeme} {c c' : Context} {s' : Scan}

/-- A line break ends a logical line if nothing is open and the line has content. -/
theorem Effect.ends_line_iff (h : Effect c (some x, s')) (hx : x.tag = .newline ∨ x.tag = .nl) :
    x.tag = .newline ↔ c.depth = 0 ∧ c.frames = [] ∧ c.hasContent = true := by
  cases h with
  | lineBreak _ htag _ =>
    rw [htag]
    split <;> simp_all [and_assoc]
  | closeAll htags _ =>
    have htag := dedent_of_tags htags x List.mem_cons_self
    rcases hx with hx | hx <;> simp [hx] at htag
  | dedent _ _ hrest htags _ =>
    have htag := due_of_tags hrest htags x (by simp)
    rcases hx with hx | hx <;> simp [hx] at htag
  | last htag | indent htag | plain _ htag | error htag | operator _ htag | openString _ htag | literal _ htag
  | openField _ _ htag | closeField _ _ _ htag | closeString _ _ htag =>
    rcases hx with hx | hx <;> simp [hx] at htag

/-- A lexeme that has been produced is taken note of. -/
theorem Recalls.concat (h : Recalls xs c) (hdepth : c'.depth = x.nest c.depth)
    (hframes : c'.frames.length + countTag .fstringEnd [x] = c.frames.length + countTag .fstringStart [x])
    (hcontent : c'.hasContent = true ↔
      x.tag ≠ .newline ∧ (c.hasContent = true ∨ x.tag ∉ [.comment, .nl, .indent, .dedent])) :
    Recalls (xs ++ [x]) c' where
  depth := by rw [hdepth, h.depth, openBrackets_concat]
  frames := by
    have hxs := h.frames
    rw [countTag_append, countTag_append]
    omega
  content := by rw [hcontent, h.content, hasContent_concat]

theorem Recalls.effect (h : Recalls xs c) (hx : x.tag ≠ .error ∧ x.tag ≠ .endMarker)
    (hr : Effect c (some x, s')) : Recalls (xs ++ [x]) s'.context := by
  cases hr with
  | last htag => exact absurd htag hx.2
  | error htag => exact absurd htag hx.1
  | closeAll htags hc =>
    have htag := dedent_of_tags htags x List.mem_cons_self
    refine h.concat ?_ ?_ ?_ <;> simp [hc, htag, nest, countTag_singleton]
  | dedent _ _ hrest htags hc =>
    obtain htag := (due_of_tags hrest htags x (by simp)).resolve_right hx.1
    refine h.concat ?_ ?_ ?_ <;> simp [hc, htag, nest, countTag_singleton]
  | indent htag _ _ hc => refine h.concat ?_ ?_ ?_ <;> simp [hc, htag, nest, countTag_singleton]
  | lineBreak _ htag hc =>
    have hcases : x.tag = .newline ∨ x.tag = .nl := by
      rw [htag]
      split <;> simp
    refine h.concat ?_ ?_ ?_ <;> rcases hcases with htag | htag <;> simp [hc, htag, nest, countTag_singleton]
  | plain _ htag hc =>
    simp only [List.mem_cons, List.not_mem_nil, or_false] at htag
    refine h.concat ?_ ?_ ?_ <;> rcases htag with htag | htag | htag | htag <;>
      simp [hc, htag, nest, countTag_singleton, Tag.isContent]
  | operator _ htag hc => refine h.concat ?_ ?_ ?_ <;> simp [hc, htag, countTag_singleton]
  | openString _ htag hc => refine h.concat ?_ ?_ ?_ <;> simp [hc, htag, nest, countTag_singleton]
  | literal _ htag hc => refine h.concat ?_ ?_ ?_ <;> simp [hc, htag, nest, countTag_singleton]
  | openField hframes _ htag _ hc | closeField hframes _ _ htag _ hc =>
    refine h.concat ?_ ?_ ?_ <;> simp [hc, htag, hframes, countTag_singleton]
  | closeString hframes _ htag hc =>
    refine h.concat ?_ ?_ ?_ <;> simp [hc, htag, hframes, nest, countTag_singleton]

/-- **Line breaks in the course of a scan.** -/
theorem Run.classified {source : Source} {first : Nat} {s : Scan} (h : Run source first xs s) :
    Classified xs ∧ (Regular xs → Recalls xs s.context) := by
  refine h.induct (P := fun xs c ↦ Classified xs ∧ (Regular xs → Recalls xs c)) ?_ ?_ ?_ ?_
  · refine ⟨fun before x after hsplit ↦ absurd hsplit (by simp), fun _ ↦ ⟨rfl, rfl, ?_⟩⟩
    simp [HasContent, sinceNewline]
  · intro xs c x queued ⟨hclass, hrecalls⟩ _ hx
    refine ⟨hclass.concat fun htag ↦ ?_, fun hregular ↦ ?_⟩
    · rcases hx with hx | hx <;> simp [hx] at htag
    · obtain ⟨hxs, herror, -⟩ := hregular.of_concat
      have htag := hx.resolve_right herror
      refine (hrecalls hxs).concat ?_ ?_ ?_ <;> simp [htag, nest, countTag_singleton]
  · intro xs c x ⟨hclass, hrecalls⟩ _ _ hx
    refine ⟨hclass.concat fun htag ↦ ?_, fun hregular ↦ absurd hx hregular.of_concat.2.2⟩
    simp [hx] at htag
  · intro xs c r ⟨hclass, hrecalls⟩ _ _ hr
    obtain ⟨_ | x, s'⟩ := r
    · cases hr with
      | quiet hc =>
        rw [Option.toList_none, List.append_nil, hc]
        exact ⟨hclass, hrecalls⟩
    · refine ⟨hclass.concat fun htag hxs ↦ ?_, fun hregular ↦ ?_⟩
      · have hc := hrecalls hxs
        have hframes := hc.frames
        rw [hr.ends_line_iff htag, hc.depth, hc.content, ← List.length_eq_zero_iff]
        refine and_congr_right fun _ ↦ and_congr_left fun _ ↦ ?_
        omega
      · obtain ⟨hxs, hx⟩ := hregular.of_concat
        exact (hrecalls hxs).effect hx hr

end Scan

namespace Lexeme

open Scan

/-- **Line breaks by what is open.** If none of the lexemes before a line break is an error, the line break ends
a logical line exactly when the brackets before it are closed, as many strings with replacement fields have been
closed as opened, and since the last end of a logical line there was a lexeme besides comments, other line breaks
and margins. -/
theorem newline_iff {t : Text} {before after : List Lexeme} {x : Lexeme}
    (ht : ofText t = before ++ x :: after) (hx : x.tag = .newline ∨ x.tag = .nl)
    (hbefore : ∀ y ∈ before, y.tag ≠ .error) :
    x.tag = .newline ↔ openBrackets before = 0 ∧
      countTag .fstringEnd before = countTag .fstringStart before ∧
      ∃ y ∈ sinceNewline before, y.tag ∉ [.comment, .nl, .indent, .dedent] := by
  obtain ⟨s, hs⟩ := exists_run_of_prefix (List.prefix_refl (ofText t))
  obtain ⟨lexemes, last, hall, -, hmem⟩ := exists_last_ofText t
  -- the end marker is the last lexeme, and a line break stands before it
  have hlexemes : lexemes = before ++ (x :: after).dropLast := by
    have hdrop := congrArg List.dropLast (hall.symm.trans ht)
    rwa [List.dropLast_concat, List.dropLast_append_of_ne_nil (by simp)] at hdrop
  refine hs.classified.1 before x after ht hx fun y hy ↦ ⟨hbefore y hy, hmem y ?_⟩
  rw [hlexemes]
  exact List.mem_append_left _ hy

/-- The line break behind a call that goes over two lines, with a string with a replacement field and a comment
in it. -/
theorem newline_iff_call : ∃ before x after,
    ofText "f(f'{a}', # b\n  1)\n\nc\n".toList = before ++ x :: after ∧ x.tag = .newline ∧
    (∀ y ∈ before, y.tag ≠ .error) ∧ (before.map Lexeme.tag).count .nl = 1 ∧ openBrackets before = 0 ∧
    countTag .fstringEnd before = countTag .fstringStart before ∧
    ∃ y ∈ sinceNewline before, y.tag ∉ [.comment, .nl, .indent, .dedent] := by
  have ht : ofText "f(f'{a}', # b\n  1)\n\nc\n".toList =
      (ofText "f(f'{a}', # b\n  1)\n\nc\n".toList).take 12 ++
        ⟨.newline, ['\n'], ⟨1, 4⟩, ⟨1, 5⟩⟩ ::
        (ofText "f(f'{a}', # b\n  1)\n\nc\n".toList).drop 13 := by decide +kernel
  have hbefore : ∀ y ∈ (ofText "f(f'{a}', # b\n  1)\n\nc\n".toList).take 12, y.tag ≠ .error := by
    decide +kernel
  exact ⟨_, _, _, ht, rfl, hbefore, by decide +kernel, (newline_iff ht (.inl rfl) hbefore).1 rfl⟩

end Lexeme

end HeaderHints
