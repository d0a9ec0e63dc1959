import Mathlib.Logic.Relation
import HeaderHints.Header.Draft
import HeaderHints.Proofs.Shapes

/-!
# The tokens of a header

What a draft knows when it gives the next lexeme its role can be read off the tokens that it has
written: `Stage` is that knowledge, and `Stage.after` says how one token changes it. So each token of
a header stands where its kind may stand (`Formed`): a named argument outside annotations and default
values, a bare mark outside default values, the closing colon outside all brackets, and the body of a
lambda right after its word.

All that a draft does with its tokens is one of the four steps of `Writes`: it writes a token in its
place, it writes layout, its last token grows, or a comma loses the space after it. What these steps
keep holds of every header (`Written.invariant`).

The tokens stay in their places as long as the layout between them cannot be mistaken for a bracket,
a comma or a mark (`Loose`). That is a fact about the scan and not about the draft, so the layout has
a property `Q` here, about which nothing is said.
-/

namespace HeaderHints.Header

open Lexeme

/-! ### Stages -/

/-- What is known where a token is to be written. -/
structure Stage where
  /-- Whether `def` has been seen. -/
  sawDef : Bool := false
  /-- Whether the bracket of the argument list has been seen. -/
  inArguments : Bool := false
  /-- Number of open brackets. -/
  openBrackets : Nat := 0
  /-- Positive inside an annotation. -/
  annotationDepth : Nat := 0
  /-- Positive inside a default value. -/
  valueDepth : Nat := 0

namespace Stage

/-- The stage after an opening bracket. -/
def opened (g : Stage) (text : Text) : Stage :=
  { g with
    inArguments := g.inArguments || (text = ['('] && g.sawDef && g.openBrackets = 0)
    openBrackets := g.openBrackets + 1
    annotationDepth := if 0 < g.annotationDepth then g.annotationDepth + 1 else 0
    valueDepth := if 0 < g.valueDepth then g.valueDepth + 1 else 0 }

/-- The stage after a closing bracket. -/
def closed (g : Stage) : Stage :=
  { g with
    openBrackets := g.openBrackets - 1
    annotationDepth := g.annotationDepth - 1
    valueDepth := g.valueDepth - 1 }

/-- The stage after a comma. -/
def divided (g : Stage) : Stage :=
  { g with
    annotationDepth := if g.annotationDepth = 1 then 0 else g.annotationDepth
    valueDepth := if g.valueDepth = 1 then 0 else g.valueDepth }

/-- The stage after a token. -/
def after (g : Stage) (t : Token) : Stage :=
  if t.isOpener then g.opened t.text
  else if t.isCloser then g.closed
  else
    match t.kind with
    | .definition => { g with sawDef := true }
    | .typeDef | .returnTypeDef => { g with annotationDepth := 1 }
    | .defaultDef => { g with annotationDepth := 0, valueDepth := 1 }
    | .separator | .endSeparator => if t.text = [','] then g.divided else g
    | _ => g

/-- The stage after the tokens `ts`, newest first. -/
def of : List Token → Stage
  | [] => {}
  | t :: ts => (of ts).after t

end Stage

/-! ### Tokens in their places -/

/-- Characters that a name or a piece of a default value does not start with. -/
def reserved : Text :=
  "()[]\x7b\x7d,|:".toList

/-- A text that cannot be mistaken for punctuation by its first character. -/
def Wordy (t : Text) : Prop :=
  ∃ c r, t = c :: r ∧ c ∉ reserved

/-- What the text of a token looks like by its kind. -/
def Proper (t : Token) : Prop :=
  match t.kind with
  | .dottedName | .argumentDefault | .functionName | .keyword | .definition => Wordy t.text
  | .argumentName => Named t.text
  | .separator => t.text = [','] ∨ t.text = ['|']
  | .colon | .typeDef => t.text = [':']
  | .defaultDef => t.text = ['=']
  | .returnTypeDef => t.text = ['-', '>']
  | .endSeparator | .lambdaBody => True
  | .name | .operator | .endDefinition | .stop => False

theorem Proper.kind_ne_stop {t : Token} (h : Proper t) : t.kind ≠ .stop :=
  fun hk ↦ by simp [Proper, hk] at h

theorem Proper.kind_ne_endDefinition {t : Token} (h : Proper t) : t.kind ≠ .endDefinition :=
  fun hk ↦ by simp [Proper, hk] at h

theorem Proper.separator_text {t : Token} (h : Proper t) (hk : t.kind = .separator) :
    t.text = [','] ∨ t.text = ['|'] := by
  simpa [Proper, hk] using h

/-- Where a token may stand by its kind. -/
def Legal (g : Stage) (t : Token) : Prop :=
  match t.kind with
  | .argumentName => g.inArguments = true ∧ g.annotationDepth = 0 ∧ g.valueDepth = 0
  | .endSeparator => t.text = ['*'] ∨ t.text = ['/'] → g.valueDepth = 0
  | .typeDef => g.valueDepth = 0
  | .defaultDef => g.valueDepth ≤ 1
  | _ => True

/-- The word before the body of a lambda. -/
def lambdaWord : Token :=
  .of .argumentDefault "lambda".toList

/-- The tokens of a header before its closing colon, newest first. -/
def Formed : List Token → Prop
  | [] => True
  | t :: ts =>
    (Proper t ∧ Legal (Stage.of ts) t ∧ (t.kind = .lambdaBody → ts.head? = some lambdaWord)) ∧
      Formed ts

/-- The tokens of a complete header without the end token, newest first: the closing colon stands
outside brackets, and at most the rest of its row follows. -/
def Finished (ts : List Token) : Prop :=
  ∃ tail before, ts = tail ++ .of .endDefinition [':'] :: before ∧
    (tail = [] ∨ ∃ rest, tail = [.of .endSeparator rest]) ∧ Formed before ∧
    (Stage.of before).inArguments = true ∧ (Stage.of before).openBrackets = 0

/-- A text that is neither a bracket nor a comma nor a bare mark. -/
def Loose (t : Text) : Prop :=
  t ∉ [['('], ['['], ['{'], [')'], [']'], ['}'], [','], ['*'], ['/']]

theorem loose_nil : Loose [] := by simp [Loose]

/-- A text with a character that is no bracket, comma or mark is loose. -/
theorem loose_of_mem {c : Char} {t : Text} (h : c ∈ t)
    (hc : c ∉ ['(', '[', '{', ')', ']', '}', ',', '*', '/']) : Loose t := by
  intro ht
  simp only [List.mem_cons, List.not_mem_nil, or_false, not_or] at ht hc
  rcases ht with rfl | rfl | rfl | rfl | rfl | rfl | rfl | rfl | rfl <;>
    simp only [List.mem_singleton] at h <;> tauto

theorem loose_of_isGap {t : Text} (h : ∀ c ∈ t, isGap c = true) : Loose t := by
  cases t with
  | nil => exact loose_nil
  | cons c t =>
    refine loose_of_mem (c := c) (by simp) ?_
    have hc := h c (by simp)
    simp only [isGap, Bool.or_eq_true, decide_eq_true_eq] at hc
    rcases hc with (rfl | rfl) | rfl <;> decide

/-! ### Writing tokens -/

/-- Where the words of the opening may stand: `def` once, and none of them in the argument list. -/
def Early (g : Stage) (t : Token) : Prop :=
  match t.kind with
  | .definition => g.sawDef = false ∧ g.inArguments = false
  | .functionName | .keyword => g.inArguments = false
  | _ => True

/-- A token with a text. Only the body of a lambda may be empty. -/
def Worded (t : Token) : Prop :=
  t.text?.isSome = true ∧ (t.kind ≠ .lambdaBody → t.text ≠ [])

/-- The token `t` may be written at the stage `g` after the tokens `ts`. -/
structure Placed (g : Stage) (ts : List Token) (t : Token) : Prop where
  proper : Proper t
  legal : Legal g t
  early : Early g t
  lambda : t.kind = .lambdaBody → ts.head? = some lambdaWord
  worded : Worded t

/-- The kinds of tokens that grow while they are the last one. -/
def Growing (kind : Token.Kind) : Prop :=
  kind = .dottedName ∨ kind = .argumentDefault ∨ kind = .functionName

/-- One step of writing, from what is known and the tokens that there are, newest first. The layout
that is written has the property `Q`; before the argument list it cannot be mistaken for punctuation. -/
inductive Writes (Q : Text → Prop) : Stage × List Token → Stage × List Token → Prop
  /-- A token is written in its place. -/
  | token {g : Stage} {ts : List Token} {t : Token} : Placed g ts t →
      Writes Q (g, ts) (g.after t, t :: ts)
  /-- Layout is written, which changes nothing of what is known. -/
  | layout {g : Stage} {ts : List Token} {text : Text} : text ≠ [] → Q text →
      (g.inArguments = false → Loose text) → Writes Q (g, ts) (g, .of .endSeparator text :: ts)
  /-- The last token grows. -/
  | grow {g : Stage} {ts : List Token} {t : Token} {text : Text} : Growing t.kind →
      (Wordy t.text → Wordy text) → Writes Q (g, t :: ts) (g, .of t.kind text :: ts)
  /-- A separator is written without a space after it. -/
  | tighten {g : Stage} {ts : List Token} {t : Token} : t.kind = .separator →
      Writes Q (g, t :: ts) (g, { t with kind := .endSeparator } :: ts)

/-- Any number of steps of writing. -/
def Written (Q : Text → Prop) : Stage × List Token → Stage × List Token → Prop :=
  Relation.ReflTransGen (Writes Q)

variable {Q : Text → Prop} {a b : Stage × List Token} {g : Stage} {t : Token} {ts : List Token}

/-- **What each step keeps, any number of steps keeps.** -/
theorem Written.invariant {I : Stage × List Token → Prop} (h : Written Q a b)
    (step : ∀ {a b}, I a → Writes Q a b → I b) (ha : I a) : I b := by
  induction h with
  | refl => exact ha
  | tail _ hstep ih => exact step ih hstep

theorem Writes.inArguments (h : Writes Q a b) (ha : a.1.inArguments = true) : b.1.inArguments = true := by
  cases h with
  | @token g _ t _ =>
    show (g.after t).inArguments = true
    unfold Stage.after
    split
    · exact Bool.or_eq_true_iff.2 (.inl ha)
    split
    · exact ha
    split <;> try exact ha
    all_goals split <;> exact ha
  | layout _ _ _ | grow _ _ | tighten _ => exact ha

theorem after_of_growing (hk : Growing t.kind) : g.after t = g := by
  rcases hk with hk | hk | hk <;> simp [Stage.after, Token.isOpener, Token.isCloser, hk]

theorem not_bracket_of_loose {text : Text} (h : Loose text) :
    (Token.of .endSeparator text).isOpener = false ∧ (Token.of .endSeparator text).isCloser = false := by
  simp only [Loose, List.mem_cons, List.not_mem_nil, or_false, not_or] at h
  simp [Token.isOpener, Token.isCloser, Token.opensBracket, Token.closesBracket, Token.of, Token.text, h]

theorem after_loose {text : Text} (h : Loose text) : g.after (.of .endSeparator text) = g := by
  obtain ⟨hopen, hclose⟩ := not_bracket_of_loose h
  simp only [Loose, List.mem_cons, List.not_mem_nil, or_false, not_or] at h
  rw [Stage.after, if_neg (by simp [hopen]), if_neg (by simp [hclose])]
  simp [Token.of, Token.text, h]

theorem legal_loose {text : Text} (h : Loose text) : Legal g (.of .endSeparator text) := by
  simp only [Loose, List.mem_cons, List.not_mem_nil, or_false, not_or] at h
  intro hmark
  simp [Token.of, Token.text, h] at hmark

/-- Without the space after it, a separator says what it said. -/
theorem after_tightened (hk : t.kind = .separator) (ht : Proper t) :
    g.after { t with kind := .endSeparator } = g.after t ∧ Legal g { t with kind := .endSeparator } := by
  have hp := ht.separator_text hk
  refine ⟨?_, fun hmark ↦ ?_⟩
  · rcases hp with hp | hp <;> simp only [Token.text] at hp <;>
      simp [Stage.after, Token.isOpener, Token.isCloser, Token.opensBracket, Token.closesBracket,
        Token.text, hk, hp]
  · rcases hp with hp | hp <;> simp only [Token.text] at hp <;> simp [Token.text, hp] at hmark

theorem proper_grown {text : Text} (hk : Growing t.kind) (htext : Wordy t.text → Wordy text) (ht : Proper t) :
    Proper (.of t.kind text) := by
  rcases hk with hk | hk | hk <;> simp only [Proper, Token.of, hk] at ht ⊢ <;> exact htext ht

theorem Writes.proper (h : Writes Q a b) (ha : ∀ t ∈ a.2, Proper t) : ∀ t ∈ b.2, Proper t := by
  cases h with
  | token ht => exact List.forall_mem_cons.2 ⟨ht.proper, ha⟩
  | layout _ _ _ => exact List.forall_mem_cons.2 ⟨trivial, ha⟩
  | grow hk htext =>
    obtain ⟨hproper, hrest⟩ := List.forall_mem_cons.1 ha
    exact List.forall_mem_cons.2 ⟨proper_grown hk htext hproper, hrest⟩
  | tighten _ => exact List.forall_mem_cons.2 ⟨trivial, (List.forall_mem_cons.1 ha).2⟩

/-- **Every token that is written looks as its kind says.** -/
theorem Written.proper (h : Written Q ({}, []) a) : ∀ t ∈ a.2, Proper t :=
  h.invariant (I := fun a ↦ ∀ t ∈ a.2, Proper t) (fun ha hstep ↦ hstep.proper ha) (by simp)

/-- What each step keeps of proper tokens, all of them together keep. -/
theorem Written.induct {I : Stage × List Token → Prop} (h : Written Q ({}, []) a) (start : I ({}, []))
    (step : ∀ {a b}, (∀ t ∈ a.2, Proper t) → I a → Writes Q a b → I b) : I a :=
  (h.invariant (I := fun a ↦ (∀ t ∈ a.2, Proper t) ∧ I a)
    (fun ha hstep ↦ ⟨hstep.proper ha.1, step ha.1 ha.2 hstep⟩) ⟨by simp, start⟩).2

/-- **Where layout cannot be mistaken for punctuation**, what is known is what the tokens say, and the
tokens stand where they may. -/
theorem Writes.framed (h : Writes Loose a b) (ha : a.1 = Stage.of a.2 ∧ Formed a.2) :
    b.1 = Stage.of b.2 ∧ Formed b.2 := by
  obtain ⟨hstage, hformed⟩ := ha
  cases h with
  | @token g ts t h =>
    obtain rfl : g = Stage.of ts := hstage
    exact ⟨rfl, ⟨h.proper, h.legal, h.lambda⟩, hformed⟩
  | @layout g ts text _ htext _ =>
    obtain rfl : g = Stage.of ts := hstage
    exact ⟨(after_loose htext).symm, ⟨trivial, legal_loose htext, by simp [Token.of]⟩, hformed⟩
  | @grow g ts t text hk htext =>
    obtain ⟨⟨hproper, -, -⟩, hts⟩ := hformed
    have hof : Stage.of (.of t.kind text :: ts) = Stage.of (t :: ts) := by
      rw [Stage.of, Stage.of, after_of_growing hk, after_of_growing (t := .of t.kind text) hk]
    refine ⟨hstage.trans hof.symm, ⟨proper_grown hk htext hproper, ?_, ?_⟩, hts⟩
    · rcases hk with hk | hk | hk <;> simp [Legal, Token.of, hk]
    · rcases hk with hk | hk | hk <;> simp [Token.of, hk]
  | @tighten g ts t hk =>
    obtain ⟨⟨hproper, -, -⟩, hts⟩ := hformed
    obtain ⟨hafter, hlegal⟩ := after_tightened (g := Stage.of ts) hk hproper
    exact ⟨hstage.trans hafter.symm, ⟨trivial, hlegal, by simp⟩, hts⟩

end HeaderHints.Header
