import HeaderHints.Proofs.ScanEffects

/-!
# Strings with replacement fields

A string with replacement fields comes as lexemes of three classes, with the lexemes of its fields between them.
`Formatted` is the grammar of these lexemes: literal text and fields, each of which an opening brace starts and a
closing brace ends, with a format specification before the closing brace in which there may be fields again.

A scan knows of the strings that are open only the fields that are open in them. `Unfinished` says which lexemes
bring about a stack of frames. A step within such strings takes that on, or it ends the outermost of them, and
then its lexemes are those of a whole string (`Unfinished.step`).
-/

namespace HeaderHints

open Lexeme

namespace Lexeme

/-- The number of strings with replacement fields that are open behind a lexeme, where `n` are open before it. -/
def nestStrings (x : Lexeme) (n : Nat) : Nat :=
  if x.tag = .fstringStart then n + 1 else if x.tag = .fstringEnd then n - 1 else n

/-! ### The grammar -/

/-- An operator with a given text. -/
def IsOp (x : Lexeme) (text : Text) : Prop :=
  x.tag = .op ∧ x.text = text

mutual

/-- The lexemes of a string with replacement fields. -/
inductive Formatted : List Lexeme → Prop
  | mk {x y : Lexeme} {parts : List Lexeme} : x.tag = .fstringStart → Parts parts → y.tag = .fstringEnd →
      Formatted (x :: parts ++ [y])

/-- Literal text and replacement fields. -/
inductive Parts : List Lexeme → Prop
  | nil : Parts []
  | text {x : Lexeme} {xs : List Lexeme} : Parts xs → x.tag = .fstringMiddle → Parts (xs ++ [x])
  | field {xs ys : List Lexeme} : Parts xs → Replacement ys → Parts (xs ++ ys)

/-- A replacement field, with a format specification or without. -/
inductive Replacement : List Lexeme → Prop
  | bare {x y : Lexeme} {expression : List Lexeme} {field : Field} : x.IsOp ['{'] → Expression expression field →
      field.isTop = true → y.IsOp ['}'] → Replacement (x :: expression ++ [y])
  | formatted {x colon y : Lexeme} {expression spec : List Lexeme} {field : Field} : x.IsOp ['{'] →
      Expression expression field → field.isTop = true → colon.IsOp [':'] → Parts spec → y.IsOp ['}'] →
      Replacement (x :: expression ++ colon :: spec ++ [y])

/-- The lexemes of a field before its format specification, and the brackets that they leave open. A closing
brace or a colon where no bracket is open is not among them. -/
inductive Expression : List Lexeme → Field → Prop
  | nil : Expression [] {}
  | lexeme {xs : List Lexeme} {field : Field} {x : Lexeme} : Expression xs field →
      x.tag ∈ [.name, .number, .string, .comment, .nl] → Expression (xs ++ [x]) field
  | operator {xs : List Lexeme} {field : Field} {x : Lexeme} : Expression xs field → x.tag = .op →
      (field.isTop = true → x.text ≠ ['}'] ∧ x.text ≠ [':']) → Expression (xs ++ [x]) (field.after x.text)
  | string {xs ys : List Lexeme} {field : Field} : Expression xs field → Formatted ys → Expression (xs ++ ys) field

end

end Lexeme

/-- An operator starts a format specification only if it is a colon where no bracket is open. -/
theorem Field.inSpec_after {f : Field} {op : Text} (h : f.isTop = true → op ≠ [':']) :
    (f.after op).inSpec = f.inSpec := by
  unfold Field.after
  split <;> try rfl
  cases htop : f.isTop with
  | true => exact absurd rfl (h htop)
  | false => simp

/-- The format specification of a field has not started in front of it. -/
theorem Lexeme.Expression.inSpec : ∀ {xs : List Lexeme} {field : Field}, Expression xs field → field.inSpec = false
  | _, _, .nil => rfl
  | _, _, .lexeme h _ => h.inSpec
  | _, _, .operator h _ hop => (Field.inSpec_after fun htop ↦ (hop htop).2).trans h.inSpec
  | _, _, .string h _ => h.inSpec

namespace Scan

variable {xs ys : List Lexeme} {x : Lexeme} {field : Field} {fields : List Field} {f g : Frame} {fs : List Frame}

/-! ### Strings that are open -/

/-- Literal text comes next in a string with these fields open. -/
def InText (fields : List Field) : Prop :=
  fields.head?.all (·.inSpec) = true

/-- Outside literal text a field is open, and its format specification has not started. -/
theorem exists_field (h : f.isLiteral = false) :
    ∃ field fields, f.fields = field :: fields ∧ field.inSpec = false := by
  cases hfields : f.fields with
  | nil => exact absurd h (by simp [Frame.isLiteral, hfields])
  | cons field fields => exact ⟨field, fields, rfl, by simpa [Frame.isLiteral, hfields] using h⟩

/-- The lexemes behind the start of a string that leave these fields open. -/
inductive Within : List Lexeme → List Field → Prop
  | text {parts : List Lexeme} : Parts parts → Within parts []
  | expression {xs expression : List Lexeme} {x : Lexeme} {field : Field} {fields : List Field} : Within xs fields →
      InText fields → x.IsOp ['{'] → Expression expression field → Within (xs ++ x :: expression) (field :: fields)
  | spec {xs expression spec : List Lexeme} {x colon : Lexeme} {field : Field} {fields : List Field} :
      Within xs fields → InText fields → x.IsOp ['{'] → Expression expression field → field.isTop = true →
      colon.IsOp [':'] → Parts spec →
      Within (xs ++ x :: expression ++ colon :: spec) (field.after [':'] :: fields)

/-- The lexemes that leave these strings open, innermost first. -/
inductive Unfinished : List Lexeme → List Frame → Prop
  | string {x : Lexeme} {xs : List Lexeme} {f : Frame} : x.tag = .fstringStart → Within xs f.fields →
      Unfinished (x :: xs) [f]
  | nested {x : Lexeme} {xs ys : List Lexeme} {f g : Frame} {fs : List Frame} : Unfinished xs (f :: fs) →
      f.isLiteral = false → x.tag = .fstringStart → Within ys g.fields → Unfinished (xs ++ x :: ys) (g :: f :: fs)

variable {c : Context} {outer : List Frame} {s' : Scan}

/-- The start of a string opens a frame, and the end of a string removes its frame, in which no field is open. -/
theorem Effect.of_quotes (h : Effect c (some x, s')) (hx : x.tag = .fstringStart ∨ x.tag = .fstringEnd) :
    (x.tag = .fstringStart ∧ ∃ q, s'.context = { c with frames := ⟨q, []⟩ :: c.frames, hasContent := true }) ∨
    x.tag = .fstringEnd ∧ ∃ f, c.frames = f :: s'.context.frames ∧ f.fields = [] := by
  cases h with
  | openString _ htag hs' => exact .inl ⟨htag, _, hs'⟩
  | closeString hframes hfields htag hs' => exact .inr ⟨htag, _, by rw [hs', hframes], hfields⟩
  | closeAll htags =>
    have htag := dedent_of_tags htags x List.mem_cons_self
    simp [htag] at hx
  | dedent _ _ hrest htags =>
    rcases due_of_tags hrest htags x List.mem_cons_self with htag | htag <;> simp [htag] at hx
  | lineBreak _ htag =>
    split at htag <;> simp [htag] at hx
  | plain _ htag =>
    rcases hx with hx | hx <;> simp [hx] at htag
  | last htag | indent htag | error htag | operator _ htag | literal _ htag | openField _ _ htag
  | closeField _ _ _ htag => simp [htag] at hx

namespace Within

/-- What stands in literal text. -/
theorem parts (h : Within xs fields) (htext : InText fields)
    (hys : ∀ {spec}, Parts spec → Parts (spec ++ ys)) : Within (xs ++ ys) fields := by
  cases h with
  | text hparts => exact .text (hys hparts)
  | expression _ _ _ hexpression => exact absurd htext (by simp [InText, hexpression.inSpec])
  | spec hwithin htext' hopen hexpression htop hcolon hparts =>
    rw [List.append_assoc, List.cons_append]
    exact .spec hwithin htext' hopen hexpression htop hcolon (hys hparts)

/-- Where no format specification has started, the innermost field has come to its expression. -/
theorem exists_expression (h : Within xs (field :: fields)) (hplain : field.inSpec = false) :
    ∃ front x expression, xs = front ++ x :: expression ∧ Within front fields ∧ InText fields ∧ x.IsOp ['{'] ∧
      Expression expression field := by
  generalize hall : field :: fields = all at h
  cases h with
  | text => exact absurd hall (by simp)
  | expression hwithin htext hopen hexpression =>
    obtain ⟨rfl, rfl⟩ := List.cons_eq_cons.1 hall
    exact ⟨_, _, _, rfl, hwithin, htext, hopen, hexpression⟩
  | spec _ _ _ _ htop =>
    obtain ⟨rfl, -⟩ := List.cons_eq_cons.1 hall
    exact absurd hplain (by simp [Field.after, htop])

/-- What stands in the expression of the innermost field. -/
theorem inExpression {field' : Field} (h : Within xs (field :: fields)) (hplain : field.inSpec = false)
    (hys : ∀ {expression}, Expression expression field → Expression (expression ++ ys) field') :
    Within (xs ++ ys) (field' :: fields) := by
  obtain ⟨front, x, expression, rfl, hwithin, htext, hopen, hexpression⟩ := h.exists_expression hplain
  rw [List.append_assoc, List.cons_append]
  exact .expression hwithin htext hopen (hys hexpression)

/-- A colon where no bracket is open starts the format specification. -/
theorem colon (h : Within xs (field :: fields)) (hplain : field.inSpec = false) (htop : field.isTop = true)
    (hx : x.IsOp [':']) : Within (xs ++ [x]) (field.after [':'] :: fields) := by
  obtain ⟨front, x, expression, rfl, hwithin, htext, hopen, hexpression⟩ := h.exists_expression hplain
  exact .spec hwithin htext hopen hexpression htop hx .nil

/-- A closing brace ends the innermost field, in its format specification or where no bracket is open. -/
theorem close (h : Within xs (field :: fields)) (hclose : field.inSpec = true ∨ field.isTop = true)
    (hx : x.IsOp ['}']) : Within (xs ++ [x]) fields := by
  generalize hall : field :: fields = all at h
  cases h with
  | text => exact absurd hall (by simp)
  | expression hwithin htext hopen hexpression =>
    obtain ⟨rfl, rfl⟩ := List.cons_eq_cons.1 hall
    have htop := hclose.resolve_left (by simp [hexpression.inSpec])
    rw [List.append_assoc]
    exact hwithin.parts htext fun hparts ↦ .field hparts (.bare hopen hexpression htop hx)
  | spec hwithin htext hopen hexpression htop hcolon hspec =>
    obtain ⟨rfl, rfl⟩ := List.cons_eq_cons.1 hall
    rw [List.append_assoc, List.append_assoc]
    exact hwithin.parts htext fun hparts ↦
      .field hparts (by simpa using Replacement.formatted hopen hexpression htop hcolon hspec hx)

/-- An operator in the expression of the innermost field. -/
theorem operator (h : Within xs f.fields) (hplain : f.isLiteral = false) (hx : x.tag = .op) :
    Within (xs ++ [x]) (f.after x.text).fields := by
  obtain ⟨field, fields, hfields, hspec⟩ := exists_field hplain
  rw [hfields] at h
  simp only [Frame.after, hfields, Bool.and_eq_true, decide_eq_true_eq]
  split
  · rename_i hclose
    exact h.close (.inr hclose.2) ⟨hx, hclose.1⟩
  · rename_i hopen
    by_cases hcolon : x.text = [':'] ∧ field.isTop = true
    · show Within (xs ++ [x]) (field.after x.text :: fields)
      rw [hcolon.1]
      exact h.colon hspec hcolon.2 ⟨hx, hcolon.1⟩
    · refine h.inExpression hspec fun hexpression ↦ .operator hexpression hx fun htop ↦ ⟨?_, ?_⟩
      · exact fun htext ↦ hopen ⟨htext, htop⟩
      · exact fun htext ↦ hcolon ⟨htext, htop⟩

end Within

namespace Unfinished

/-- What stands in the innermost string. -/
theorem inner (h : Unfinished xs (f :: fs)) (hys : ∀ {parts}, Within parts f.fields → Within (parts ++ ys) g.fields) :
    Unfinished (xs ++ ys) (g :: fs) := by
  generalize hall : f :: fs = all at h
  cases h with
  | string hstart hwithin =>
    obtain ⟨rfl, rfl⟩ := List.cons_eq_cons.1 hall
    exact .string hstart (hys hwithin)
  | nested houter hplain hstart hwithin =>
    obtain ⟨rfl, rfl⟩ := List.cons_eq_cons.1 hall
    rw [List.append_assoc, List.cons_append]
    exact .nested houter hplain hstart (hys hwithin)

/-- The end of the innermost string, in which no field is open, makes it a whole one. It is part of the expression
of a field, or nothing stands before it. -/
theorem close (h : Unfinished xs (f :: fs)) (hfields : f.fields = []) (hx : x.tag = .fstringEnd) :
    ∃ front string, xs = front ++ string ∧ Formatted (string ++ [x]) ∧
      (fs = [] ∧ front = [] ∨ Unfinished (xs ++ [x]) fs) := by
  have hwhole : ∀ {y : Lexeme} {parts : List Lexeme}, y.tag = .fstringStart → Within parts f.fields →
      Formatted (y :: parts ++ [x]) := by
    intro y parts hy hwithin
    rw [hfields] at hwithin
    cases hwithin with
    | text hparts => exact .mk hy hparts hx
  generalize hall : f :: fs = all at h
  cases h with
  | @string y parts _ hstart hwithin =>
    obtain ⟨rfl, rfl⟩ := List.cons_eq_cons.1 hall
    exact ⟨[], y :: parts, rfl, hwhole hstart hwithin, .inl ⟨rfl, rfl⟩⟩
  | @nested y front parts g _ gs houter hplain hstart hwithin =>
    obtain ⟨rfl, rfl⟩ := List.cons_eq_cons.1 hall
    have hformatted := hwhole hstart hwithin
    refine ⟨front, y :: parts, rfl, hformatted, .inr ?_⟩
    obtain ⟨field, fields, hopen, hspec⟩ := exists_field hplain
    rw [List.append_assoc]
    refine houter.inner fun hwithin ↦ ?_
    rw [hopen] at hwithin ⊢
    exact hwithin.inExpression hspec fun hexpression ↦ .string hexpression hformatted

theorem ne_nil (h : Unfinished xs fs) : fs ≠ [] := by
  cases h <;> simp

/-- A lexeme that leaves the strings open. -/
theorem onward (h : Unfinished xs (f :: fs)) (hx : x.tag ≠ .fstringStart ∧ x.tag ≠ .fstringEnd)
    (hys : ∀ {parts}, Within parts f.fields → Within (parts ++ [x]) g.fields) :
    (g :: fs).length = x.nestStrings (f :: fs).length ∧ Unfinished (xs ++ [x]) (g :: fs) :=
  ⟨by simp [nestStrings, hx.1, hx.2], h.inner hys⟩

/-- **One step within strings that are open.** Nothing but their quotes opens and closes strings, and the end of the
outermost one makes a whole string of the lexemes. At the end of the source the strings stay open. -/
theorem step (h : Unfinished xs fs) (hframes : c.frames = fs ++ outer) (heffect : Effect c (some x, s'))
    (hx : x.tag ≠ .error ∧ x.tag ≠ .endMarker) :
    (x.tag = .dedent ∧ s'.context.frames = c.frames ∧ s'.context.exhausted = true) ∨
    ∃ fs', s'.context.frames = fs' ++ outer ∧ s'.context.queued = c.queued ∧
      s'.context.exhausted = c.exhausted ∧ fs'.length = x.nestStrings fs.length ∧
      (Unfinished (xs ++ [x]) fs' ∨ fs' = [] ∧ x.tag = .fstringEnd ∧ Formatted (xs ++ [x])) := by
  obtain ⟨f, fs, rfl⟩ := List.exists_cons_of_ne_nil h.ne_nil
  have hliteral : c.inLiteral = f.isLiteral := by simp [Context.inLiteral, hframes]
  have hlexeme : c.inLiteral = false → x.tag ∈ [.name, .number, .string, .comment, .nl] →
      (f :: fs).length = x.nestStrings (f :: fs).length ∧ Unfinished (xs ++ [x]) (f :: fs) := by
    intro hplain htag
    rw [hliteral] at hplain
    obtain ⟨field, fields, hfields, hspec⟩ := exists_field hplain
    refine h.onward ?_ fun hwithin ↦ ?_
    · simp only [List.mem_cons, List.not_mem_nil, or_false] at htag
      rcases htag with htag | htag | htag | htag | htag <;> simp [htag]
    · rw [hfields] at hwithin ⊢
      exact hwithin.inExpression hspec fun hexpression ↦ .lexeme hexpression htag
  cases heffect with
  | last htag => exact absurd htag hx.2
  | closeAll htags hs' =>
    exact .inl ⟨dedent_of_tags htags x List.mem_cons_self, by rw [hs'], by rw [hs']⟩
  | indent _ hnone | dedent hnone => exact absurd (hframes.symm.trans hnone) (by simp)
  | error htag => exact absurd htag hx.1
  | lineBreak hplain htag hs' =>
    have hnl : x.tag = .nl := by simpa [hframes] using htag
    obtain ⟨hlength, hnext⟩ := hlexeme hplain (by simp [hnl])
    exact .inr ⟨f :: fs, by rw [hs', ← hframes], by rw [hs'], by rw [hs'], hlength, .inl hnext⟩
  | plain hplain htag hs' =>
    obtain ⟨hlength, hnext⟩ := hlexeme hplain (by simp only [List.mem_cons] at htag ⊢; tauto)
    exact .inr ⟨f :: fs, by rw [hs', ← hframes], by rw [hs'], by rw [hs'], hlength, .inl hnext⟩
  | operator hplain htag hs' =>
    obtain ⟨hlength, hnext⟩ := h.onward (g := f.after x.text) (by simp [htag]) fun hwithin ↦
      hwithin.operator (hliteral ▸ hplain) htag
    exact .inr ⟨_ :: fs, by rw [hs', hframes]; rfl, by rw [hs'], by rw [hs'], hlength, .inl hnext⟩
  | @openString _ _ q hplain htag hs' =>
    exact .inr ⟨⟨q, []⟩ :: f :: fs, by rw [hs', hframes]; rfl, by rw [hs'], by rw [hs'], by simp [nestStrings, htag],
      .inl (h.nested (hliteral ▸ hplain) htag (.text .nil))⟩
  | literal hlit htag hs' =>
    obtain ⟨hlength, hnext⟩ := h.onward (g := f) (by simp [htag]) fun hwithin ↦
      hwithin.parts (hliteral.symm.trans hlit) fun hparts ↦ .text hparts htag
    exact .inr ⟨f :: fs, by rw [hs', ← hframes], by rw [hs'], by rw [hs'], hlength, .inl hnext⟩
  | openField hf hlit htag htext hs' =>
    obtain ⟨rfl, rfl⟩ := List.cons_eq_cons.1 (hframes.symm.trans hf)
    obtain ⟨hlength, hnext⟩ := h.onward (g := { f with fields := {} :: f.fields }) (by simp [htag]) fun hwithin ↦
      .expression hwithin hlit ⟨htag, htext⟩ .nil
    exact .inr ⟨_ :: fs, by rw [hs']; rfl, by rw [hs'], by rw [hs'], hlength, .inl hnext⟩
  | closeField hf hfields hspec htag htext hs' =>
    obtain ⟨rfl, rfl⟩ := List.cons_eq_cons.1 (hframes.symm.trans hf)
    obtain ⟨hlength, hnext⟩ := h.onward (g := { f with fields := _ }) (by simp [htag]) fun hwithin ↦
      (hfields ▸ hwithin).close (.inl hspec) ⟨htag, htext⟩
    exact .inr ⟨_ :: fs, by rw [hs']; rfl, by rw [hs'], by rw [hs'], hlength, .inl hnext⟩
  | closeString hf hfields htag hs' =>
    obtain ⟨rfl, rfl⟩ := List.cons_eq_cons.1 (hframes.symm.trans hf)
    obtain ⟨front, string, rfl, hformatted, hrest⟩ := h.close hfields htag
    refine .inr ⟨fs, by rw [hs']; rfl, by rw [hs'], by rw [hs'], by simp [nestStrings, htag], ?_⟩
    rcases hrest with ⟨rfl, rfl⟩ | hnext
    · exact .inr ⟨rfl, htag, hformatted⟩
    · exact .inl hnext

end Unfinished

end Scan

end HeaderHints
