import Mathlib.Data.List.TakeDrop
import Mathlib.Data.List.TakeWhile
import Mathlib.Tactic.Common
import HeaderHints.Lexeme.Scan

/-!
# What the shapes of lexemes take from a row

Each function that reads a lexeme off the rest of a row splits that rest in two: putting the parts
together gives the rest back. With the first character of each class of lexemes this is all that a
reader of lexemes has to know about their shapes; it is recorded in `Lexeme.Fits`.
-/

namespace HeaderHints.Lexeme

/-! ### Numbers -/

theorem splitExponent_append (t : Text) : (splitExponent t).1 ++ (splitExponent t).2 = t := by
  unfold splitExponent
  split
  · split
    · split
      · split
        · simp [List.span_eq_takeWhile_dropWhile]
        · split <;> simp [List.span_eq_takeWhile_dropWhile]
      · split <;> simp
      · simp
    · simp
  · simp

theorem splitDecimal_append (t : Text) : (splitDecimal t).1 ++ (splitDecimal t).2 = t := by
  -- the fraction, the exponent and the unit are each split off what the part before left
  simp only [splitDecimal, List.span_eq_takeWhile_dropWhile]
  conv_rhs => rw [← List.takeWhile_append_dropWhile (p := isDigitPart) (l := t)]
  generalize List.dropWhile isDigitPart t = r
  split
  · rename_i r
    have he := splitExponent_append (List.dropWhile isDigitPart r)
    conv_rhs => rw [← List.takeWhile_append_dropWhile (p := isDigitPart) (l := r), ← he]
    generalize splitExponent (List.dropWhile isDigitPart r) = e
    split <;> simp_all
  · have he := splitExponent_append r
    conv_rhs => rw [← he]
    generalize splitExponent r = e
    split <;> simp_all

theorem splitNumber_append (t : Text) : (splitNumber t).1 ++ (splitNumber t).2 = t := by
  unfold splitNumber
  split
  · split
    · simp [List.span_eq_takeWhile_dropWhile]
    · exact splitDecimal_append _
  · exact splitDecimal_append _

/-- A number takes the character that it was recognised by. -/
theorem splitNumber_fst_ne_nil {c : Char} {t : Text}
    (h : (c.isDigit || (c = '.' && t.head?.any Char.isDigit)) = true) :
    (splitNumber (c :: t)).1 ≠ [] := by
  have hdecimal : (splitDecimal (c :: t)).1 ≠ [] := by
    by_cases hd : isDigitPart c = true
    · simp [splitDecimal, List.span_eq_takeWhile_dropWhile, hd]
    · have hc : c = '.' := by
        simp only [isDigitPart, Bool.or_eq_true, not_or, Bool.not_eq_true] at hd
        simp only [hd.1, Bool.false_or, Bool.and_eq_true, decide_eq_true_eq] at h
        exact h.1
      subst hc
      have hspan : List.takeWhile isDigitPart ('.' :: t) = [] := by simp [hd]
      have hrest : List.dropWhile isDigitPart ('.' :: t) = '.' :: t := by simp [hd]
      simp [splitDecimal, List.span_eq_takeWhile_dropWhile, hspan, hrest]
  generalize c :: t = row at hdecimal ⊢
  unfold splitNumber
  split
  · split
    · simp
    · exact hdecimal
  · exact hdecimal

theorem head_splitNumber {c : Char} {t : Text}
    (h : (c.isDigit || (c = '.' && t.head?.any Char.isDigit)) = true) :
    ∃ w, (splitNumber (c :: t)).1 = c :: w := by
  have happ := splitNumber_append (c :: t)
  have hne := splitNumber_fst_ne_nil h
  cases hsplit : (splitNumber (c :: t)).1 with
  | nil => exact absurd hsplit hne
  | cons d w =>
    rw [hsplit, List.cons_append] at happ
    exact ⟨w, by rw [(List.cons_eq_cons.1 happ).1]⟩

theorem feed_notMem_takeWhile {p : Char → Bool} (hp : p '\n' = false) (t : Text) :
    '\n' ∉ t.takeWhile p := fun h ↦
  absurd (List.mem_takeWhile_imp h) (by simp [hp])

theorem feed_notMem_splitExponent (t : Text) : '\n' ∉ (splitExponent t).1 := by
  have hdigits := @feed_notMem_takeWhile isDigitPart (by decide)
  have hletter : ∀ {e : Char}, (e = 'e' || e = 'E') = true → '\n' ≠ e := by
    rintro _ he rfl
    exact absurd he (by decide)
  unfold splitExponent
  split
  · split
    · rename_i he
      split
      · split
        · simp [List.span_eq_takeWhile_dropWhile, hletter he, hdigits]
        · split
          · rename_i hsign
            simp only [Bool.and_eq_true, Bool.or_eq_true, decide_eq_true_eq] at hsign
            obtain ⟨rfl | rfl, -⟩ := hsign <;>
              simp [List.span_eq_takeWhile_dropWhile, hletter he, hdigits]
          · simp
      · split
        · rename_i s hdigit
          have hs : '\n' ≠ s := by
            rintro rfl
            exact absurd hdigit (by decide)
          simp [hletter he, hs]
        · simp
      · simp
    · simp
  · simp

/-- A number stays in its row. -/
theorem feed_notMem_splitNumber (t : Text) : '\n' ∉ (splitNumber t).1 := by
  have hdigits := @feed_notMem_takeWhile isDigitPart (by decide)
  have hdecimal : ∀ r : Text, '\n' ∉ (splitDecimal r).1 := by
    intro r
    simp only [splitDecimal, List.span_eq_takeWhile_dropWhile, List.mem_append, not_or]
    refine ⟨⟨⟨hdigits r, ?_⟩, feed_notMem_splitExponent _⟩, ?_⟩ <;> split <;> simp [hdigits]
  unfold splitNumber
  split
  · split
    · rename_i base t hbase
      have hb : '\n' ≠ base := by
        rintro rfl
        exact absurd hbase (by decide)
      simp [List.span_eq_takeWhile_dropWhile, hb, feed_notMem_takeWhile (p := isHexPart) (by decide)]
    · exact hdecimal _
  · exact hdecimal _

/-! ### Operators and quotes -/

theorem operator?_eq_some {t op : Text} (h : operator? t = some op) :
    op ∈ operators ∧ t = op ++ t.drop op.length := by
  refine ⟨List.mem_of_find?_eq_some h, ?_⟩
  have hpre : op.isPrefixOf t = true := by
    have := List.find?_some h
    simpa using this
  obtain ⟨rest, rfl⟩ := List.isPrefixOf_iff_prefix.1 hpre
  simp

theorem Quotes.of?_eq_some {t : Text} {q : Quotes} (h : Quotes.of? t = some q) :
    (q.char = '"' ∨ q.char = '\'') ∧ (∃ w, q.text = q.char :: w) ∧
      t = q.text ++ t.drop q.text.length := by
  match t, h with
  | c :: r, h =>
    simp only [Quotes.of?] at h
    split at h
    · rename_i hc
      obtain rfl := Option.some.inj h
      refine ⟨by simpa using hc, ?_, ?_⟩
      · simp only [Quotes.text]
        split <;> simp
      · simp only [Quotes.text]
        split
        · rename_i htriple
          obtain ⟨rest, rfl⟩ := List.isPrefixOf_iff_prefix.1 htriple
          simp
        · simp
    · exact absurd h (by simp)

/-! ### Strings -/

/-- What a string takes from a row where it ends or breaks off and what it leaves make up the row. -/
def Body.Splits (t : Text) : Body → Prop
  | closed text rest => text ++ rest = t
  | broken text rest => text ++ rest = t
  | continued => True

theorem Body.Splits.preceded {t : Text} {b : Body} (h : b.Splits t) (lead : Text) :
    (b.preceded lead).Splits (lead ++ t) := by
  cases b with
  | closed text rest => exact (List.append_assoc _ _ _).trans (congrArg (lead ++ ·) h)
  | broken text rest => exact (List.append_assoc _ _ _).trans (congrArg (lead ++ ·) h)
  | continued => trivial

theorem body_splits (q : Quotes) (t : Text) : (body q t).Splits t := by
  fun_induction body q t with
  | case5 c r _ ih => exact ih.preceded ['\\', c]
  | case8 c r _ _ _ _ ih => exact ih.preceded [c]
  | case10 c r _ _ _ _ _ htriple =>
    obtain ⟨rest, rfl⟩ := List.isPrefixOf_iff_prefix.1 htriple
    simp [Body.Splits]
  | case11 c r _ _ _ _ _ _ ih => exact ih.preceded [c]
  | _ => simp [Body.Splits]

theorem append_of_body_eq_closed {q : Quotes} {t text rest : Text}
    (h : body q t = .closed text rest) : text ++ rest = t := by
  have hsplits := body_splits q t
  rwa [h] at hsplits

/-- A string ends in the character of its quotes. -/
theorem getLast?_of_body_eq_closed {q : Quotes} {t text rest : Text}
    (h : body q t = .closed text rest) : text.getLast? = some q.char := by
  -- what is taken before the closing quotes does not change the last character
  have hpreceded : ∀ {b : Body} {lead text rest : Text}, b.preceded lead = .closed text rest →
      (∀ {text rest}, b = .closed text rest → text.getLast? = some q.char) →
      text.getLast? = some q.char := by
    intro b lead text rest hb ih
    cases b with
    | closed text' rest' =>
      obtain ⟨rfl, -⟩ := Body.closed.inj hb
      rw [List.getLast?_append, ih rfl]
      rfl
    | broken => exact absurd hb (by simp [Body.preceded])
    | continued => exact absurd hb (by simp [Body.preceded])
  fun_induction body q t generalizing text rest with
  | case5 c r _ ih => exact hpreceded h ih
  | case8 c r _ _ _ _ ih => exact hpreceded h ih
  | case9 c r _ _ _ hc =>
    obtain ⟨rfl, -⟩ := Body.closed.inj h
    simpa using hc
  | case10 c r _ _ _ hc =>
    obtain ⟨rfl, -⟩ := Body.closed.inj h
    simpa using hc
  | case11 c r _ _ _ _ _ _ ih => exact hpreceded h ih
  | _ => exact absurd h (by simp)

theorem append_of_body_eq_broken {q : Quotes} {t text rest : Text}
    (h : body q t = .broken text rest) : text ++ rest = t := by
  have hsplits := body_splits q t
  rwa [h] at hsplits

theorem splitLiteral_append (q : Quotes) (inSpec : Bool) (t : Text) :
    (splitLiteral q inSpec t).1 ++ (splitLiteral q inSpec t).2 = t := by
  fun_induction splitLiteral q inSpec t <;> simp_all [preceded]

/-! ### Classes of lexemes by their text -/

/-- A text that reads as a name. -/
def Named (t : Text) : Prop :=
  ∃ c w, t = c :: w ∧ isNameStart c = true ∧ ∀ e ∈ w, isNamePart e = true

instance : DecidablePred Named
  | [] => isFalse (by simp [Named])
  | c :: w => decidable_of_iff (isNameStart c = true ∧ ∀ e ∈ w, isNamePart e = true) (by simp [Named])

theorem isNamePart_of_isNameStart {c : Char} (h : isNameStart c = true) : isNamePart c = true := by
  simp only [isNameStart, isNamePart, Char.isAlphanum, Bool.or_eq_true] at h ⊢
  tauto

theorem Named.isNamePart {t : Text} (h : Named t) : ∀ c ∈ t, isNamePart c = true := by
  obtain ⟨c, w, rfl, hc, hw⟩ := h
  intro e he
  rcases List.mem_cons.1 he with rfl | he
  · exact isNamePart_of_isNameStart hc
  · exact hw e he

/-- What the text of a lexeme looks like, as far as its class says something about it. -/
def Fits (x : Lexeme) : Prop :=
  match x.tag with
  | .name => Named x.text
  | .number => (∃ c w, x.text = c :: w ∧ (c.isDigit ∨ c = '.')) ∧ '\n' ∉ x.text
  | .string => (∃ c w, x.text = c :: w ∧ (isNameStart c ∨ c = '"' ∨ c = '\'')) ∧
      x.text.getLast? ∈ [some '"', some '\'']
  | .fstringStart => ∃ c w, x.text = c :: w ∧ (isNameStart c ∨ c = '"' ∨ c = '\'')
  | .fstringEnd => x.text.getLast? ∈ [some '"', some '\'']
  | .op => x.text ∈ operators
  | .comment => ∃ w, x.text = '#' :: w
  | .newline | .nl => x.text ∈ [[], ['\n'], ['\r'], ['\r', '\n']]
  | _ => True

end HeaderHints.Lexeme
