import Mathlib.Tactic.Common
import Mathlib.Data.List.TakeDrop
import HeaderHints.Json.Basic

/-!
# JSON texts

`Json.Spells t v` says that `t` is a JSON text of the value `v`, by the grammar of such texts: white space around
every part, every escape of a string literal, every form of a number. The reader accepts all of them and finds the
value (`Json.read_of_spells`), so each text has one value at most.

A number can only be told from what follows it by a character that ends it. Such a character is there, since
after a value comes white space, a comma, a closing bracket, or nothing (`Json.Delimited`). The depth of calls that
the reader is allowed grows twice as fast as the text, which is what an array of arrays needs.
-/

namespace HeaderHints

namespace Json

variable {t u w r rest : Text} {c : Char}

/-! ### White space -/

/-- The characters of white space. -/
def isSpace (c : Char) : Bool :=
  c = ' ' || c = '\t' || c = '\n' || c = '\r'

/-- White space. -/
def Blank (t : Text) : Prop :=
  ∀ c ∈ t, isSpace c = true

theorem skipSpace_blank (hu : Blank u) : skipSpace (u ++ t) = skipSpace t :=
  List.dropWhile_append_of_pos hu

theorem skipSpace_cons (hc : isSpace c = false) : skipSpace (c :: t) = c :: t :=
  List.dropWhile_cons_of_neg (by rw [← isSpace, hc]; exact Bool.false_ne_true)

/-- What can follow a value. -/
def Delimited (rest : Text) : Prop :=
  ∀ c, rest.head? = some c → isSpace c = true ∨ c = ',' ∨ c = ']' ∨ c = '\x7d'

theorem delimited_cons (hc : isSpace c = true ∨ c = ',' ∨ c = ']' ∨ c = '\x7d') : Delimited (c :: rest) := by
  rintro _ ⟨⟩
  exact hc

theorem delimited_blank (hu : Blank u) (hrest : Delimited rest) : Delimited (u ++ rest) := by
  cases u with
  | nil => exact hrest
  | cons c u =>
    rintro _ ⟨⟩
    exact .inl (hu c List.mem_cons_self)

/-! ### String literals -/

/-- The text is an escape for the second half of a surrogate pair, with something behind it. -/
def StartsLow (t : Text) : Prop :=
  ∃ a b c d r m, t = '\\' :: 'u' :: a :: b :: c :: d :: r ∧ unit? a b c d = some m ∧ isLow m = true

/-- What stands between the quotes of a string literal, and the text that it stands for. -/
inductive Literal : Text → Option Text → Prop
  | nil : Literal [] (some [])
  | plain {c : Char} {t : Text} {text? : Option Text} : 0x20 ≤ c.toNat → c ≠ '"' → c ≠ '\\' → Literal t text? →
      Literal (c :: t) (text?.map (c :: ·))
  | short {e c : Char} {t : Text} {text? : Option Text} : shortEscape? e = some c → Literal t text? →
      Literal ('\\' :: e :: t) (text?.map (c :: ·))
  | unit {a b c d : Char} {n : Nat} {t : Text} {text? : Option Text} : unit? a b c d = some n →
      isHigh n = false → isLow n = false → Literal t text? →
      Literal ('\\' :: 'u' :: a :: b :: c :: d :: t) (text?.map (Char.ofNat n :: ·))
  | pair {a b c d a' b' c' d' : Char} {n m : Nat} {t : Text} {text? : Option Text} : unit? a b c d = some n →
      isHigh n = true → unit? a' b' c' d' = some m → isLow m = true → Literal t text? →
      Literal ('\\' :: 'u' :: a :: b :: c :: d :: '\\' :: 'u' :: a' :: b' :: c' :: d' :: t)
        (text?.map (paired n m :: ·))
  /-- A second half without a first one before it. -/
  | low {a b c d : Char} {n : Nat} {t : Text} {text? : Option Text} : unit? a b c d = some n → isLow n = true →
      Literal t text? → Literal ('\\' :: 'u' :: a :: b :: c :: d :: t) none
  /-- A first half without a second one behind it. -/
  | high {a b c d : Char} {n : Nat} {t : Text} {text? : Option Text} : unit? a b c d = some n →
      isHigh n = true → ¬ StartsLow t → Literal t text? → Literal ('\\' :: 'u' :: a :: b :: c :: d :: t) none

section Readers

variable {a b d a' b' c' d' : Char} {n m : Nat}

theorem readString_plain (hcontrol : 0x20 ≤ c.toNat) (hquote : c ≠ '"') (hslash : c ≠ '\\') :
    readString (c :: r) = startingWith c (readString r) := by
  rw [readString, if_neg]
  · simp only [Bool.or_eq_true, decide_eq_true_eq, not_or]
    exact ⟨Nat.not_lt.2 hcontrol, hslash⟩
  · exact hquote
  · exact fun _ _ _ _ _ h _ ↦ hslash h
  · exact fun _ _ h _ ↦ hslash h

theorem readString_short {e : Char} (h : shortEscape? e = some c) :
    readString ('\\' :: e :: r) = startingWith c (readString r) := by
  rw [readString]
  · rw [h]
  · rintro _ _ _ _ _ rfl -
    have hnone : shortEscape? 'u' = none := rfl
    exact absurd (hnone.symm.trans h) (Option.some_ne_none c).symm

theorem readString_unit (h : unit? a b c d = some n) (hhigh : isHigh n = false) (hlow : isLow n = false) :
    readString ('\\' :: 'u' :: a :: b :: c :: d :: r) = startingWith (Char.ofNat n) (readString r) := by
  rw [readString]
  simp only [h, hhigh, hlow, Bool.false_eq_true, if_false]

theorem readString_pair (h : unit? a b c d = some n) (hhigh : isHigh n = true) (h' : unit? a' b' c' d' = some m)
    (hlow : isLow m = true) :
    readString ('\\' :: 'u' :: a :: b :: c :: d :: '\\' :: 'u' :: a' :: b' :: c' :: d' :: r) =
      startingWith (paired n m) (readString r) := by
  rw [readString]
  simp only [h, hhigh, h', hlow, if_true]

theorem not_isHigh_of_isLow (h : isLow n = true) : isHigh n = false := by
  simp only [isLow, isHigh, Bool.and_eq_true, decide_eq_true_eq, Bool.and_eq_false_iff,
    decide_eq_false_iff_not] at h ⊢
  omega

theorem readString_low (h : unit? a b c d = some n) (hlow : isLow n = true) :
    readString ('\\' :: 'u' :: a :: b :: c :: d :: r) = unpaired (readString r) := by
  rw [readString]
  simp only [h, not_isHigh_of_isLow hlow, hlow, Bool.false_eq_true, if_false, if_true]

theorem readString_high (h : unit? a b c d = some n) (hhigh : isHigh n = true)
    (hr : ∀ a b c d r', r = '\\' :: 'u' :: a :: b :: c :: d :: r' → ∃ m, unit? a b c d = some m ∧ isLow m = false) :
    readString ('\\' :: 'u' :: a :: b :: c :: d :: r) = unpaired (readString r) := by
  rw [readString]
  simp only [h, hhigh, if_true]
  split
  · rename_i a' b' c' d' r'
    obtain ⟨m, hm, hlow⟩ := hr _ _ _ _ _ rfl
    simp only [hm, hlow, Bool.false_eq_true, if_false]
  · rfl

end Readers

/-- An escape by number in a literal is whole, also when the closing quote stands behind the literal. -/
theorem Literal.unit_of_cons {text? : Option Text} (h : Literal t text?) {a b c d : Char} {r : Text}
    (ht : t ++ '"' :: rest = '\\' :: 'u' :: a :: b :: c :: d :: r) :
    ∃ m r', unit? a b c d = some m ∧ t = '\\' :: 'u' :: a :: b :: c :: d :: r' := by
  cases h with
  | nil => simp at ht
  | plain _ _ hslash _ => exact absurd (List.cons_eq_cons.1 ht).1 hslash
  | @short e c t _ he _ =>
    obtain ⟨rfl, -⟩ := List.cons_eq_cons.1 (List.cons_eq_cons.1 ht).2
    exact absurd he (by simp [shortEscape?])
  | unit hm _ _ _ | pair hm _ _ _ _ | low hm _ _ | high hm _ _ _ =>
    simp only [List.cons_append, List.cons.injEq, true_and] at ht
    obtain ⟨rfl, rfl, rfl, rfl, -⟩ := ht
    exact ⟨_, _, hm, rfl⟩

/-- **A string literal is read** up to its closing quote. -/
theorem readString_of_literal {text? : Option Text} (h : Literal t text?) :
    readString (t ++ '"' :: rest) = some (text?, rest) := by
  induction h with
  | nil => rw [List.nil_append, readString]
  | plain hcontrol hquote hslash _ ih =>
    rw [List.cons_append, readString_plain hcontrol hquote hslash, ih]
    rfl
  | short he _ ih =>
    rw [List.cons_append, List.cons_append, readString_short he, ih]
    rfl
  | unit hn hhigh hlow _ ih =>
    simp only [List.cons_append]
    rw [readString_unit hn hhigh hlow, ih]
    rfl
  | pair hn hhigh hm hlow _ ih =>
    simp only [List.cons_append]
    rw [readString_pair hn hhigh hm hlow, ih]
    rfl
  | low hn hlow _ ih =>
    simp only [List.cons_append]
    rw [readString_low hn hlow, ih]
    rfl
  | high hn hhigh hstarts hliteral ih =>
    simp only [List.cons_append]
    rw [readString_high hn hhigh, ih]
    · rfl
    · intro a b c d r' hr
      obtain ⟨m, r'', hm, rfl⟩ := hliteral.unit_of_cons hr
      refine ⟨m, hm, Bool.eq_false_iff.2 fun hlow ↦ hstarts ?_⟩
      exact ⟨a, b, c, d, r'', m, rfl, hm, hlow⟩

/-! ### Numbers -/

/-- One digit or more. -/
def Digits (t : Text) : Prop :=
  t ≠ [] ∧ ∀ c ∈ t, c.isDigit = true

/-- The whole part of a number. -/
inductive Whole : Text → Prop
  | zero : Whole ['0']
  | digits {c : Char} {t : Text} : c ≠ '0' → Digits (c :: t) → Whole (c :: t)

/-- The fraction of a number, if it has one. -/
inductive Fraction : Text → Prop
  | none : Fraction []
  | digits {t : Text} : Digits t → Fraction ('.' :: t)

/-- The exponent of a number, if it has one. -/
inductive Exponent : Text → Prop
  | none : Exponent []
  | digits {e : Char} {sign t : Text} : e = 'e' ∨ e = 'E' → sign = [] ∨ sign = ['+'] ∨ sign = ['-'] → Digits t →
      Exponent (e :: (sign ++ t))

/-- A number, with its value if it is written as a natural below `Decimal.wordSize`. -/
inductive Numeral : Text → Option Nat → Prop
  | natural {whole : Text} : Whole whole → Decimal.value whole < Decimal.wordSize →
      Numeral whole (some (Decimal.value whole))
  | large {whole : Text} : Whole whole → Decimal.wordSize ≤ Decimal.value whole → Numeral whole none
  | other {sign whole fraction exponent : Text} : sign = [] ∨ sign = ['-'] → Whole whole → Fraction fraction →
      Exponent exponent → sign ≠ [] ∨ fraction ≠ [] ∨ exponent ≠ [] →
      Numeral (sign ++ (whole ++ (fraction ++ exponent))) none

/-- A text that cannot go on with digits. -/
def EndsDigits (t : Text) : Prop :=
  t.head?.any Char.isDigit = false

theorem span_digits (ht : ∀ c ∈ t, c.isDigit = true) (hr : EndsDigits r) :
    (t ++ r).takeWhile Char.isDigit = t ∧ (t ++ r).dropWhile Char.isDigit = r := by
  rw [List.takeWhile_append_of_pos ht, List.dropWhile_append_of_pos ht]
  cases r with
  | nil => simp
  | cons c r =>
    have hc : ¬ c.isDigit = true := Bool.eq_false_iff.1 hr
    rw [List.takeWhile_cons_of_neg hc, List.dropWhile_cons_of_neg hc, List.append_nil]
    exact ⟨rfl, rfl⟩

theorem Whole.head (h : Whole w) : ∃ c t, w = c :: t ∧ c.isDigit = true := by
  cases h with
  | zero => exact ⟨'0', [], rfl, rfl⟩
  | digits _ hdigits => exact ⟨_, _, rfl, hdigits.2 _ List.mem_cons_self⟩

theorem readWhole_append (h : Whole w) (hr : EndsDigits r) : readWhole (w ++ r) = some (w, r) := by
  cases h with
  | zero =>
    show (if r.head?.any Char.isDigit then none else some (['0'], r)) = _
    rw [hr]
    rfl
  | @digits c t hzero hdigits =>
    show (if c = '0' then _ else if c.isDigit then some ((c :: t ++ r).span Char.isDigit) else none) = _
    obtain ⟨htake, hdrop⟩ := span_digits hdigits.2 hr
    rw [if_neg hzero, if_pos (hdigits.2 c List.mem_cons_self), List.span_eq_takeWhile_dropWhile, htake, hdrop]

theorem readDigits_append (h : Digits t) (hr : EndsDigits r) : readDigits (t ++ r) = some r := by
  obtain ⟨c, t, rfl⟩ := List.exists_cons_of_ne_nil h.1
  show (if c.isDigit then some ((c :: t ++ r).dropWhile Char.isDigit) else none) = _
  rw [if_pos (h.2 c List.mem_cons_self), (span_digits h.2 hr).2]

theorem readFraction_append (h : Fraction t) (hr : EndsDigits r) (hdot : r.head? ≠ some '.') :
    readFraction (t ++ r) = some (!t.isEmpty, r) := by
  cases h with
  | none =>
    rw [List.nil_append, readFraction]
    · rfl
    · rintro r' rfl
      exact hdot rfl
  | digits hdigits =>
    show (readDigits (_ ++ r)).map (true, ·) = _
    rw [readDigits_append hdigits hr]
    rfl

theorem readExponent_append (h : Exponent t) (hr : EndsDigits r) (he : r.head? ≠ some 'e')
    (hE : r.head? ≠ some 'E') : readExponent (t ++ r) = some (!t.isEmpty, r) := by
  cases h with
  | none =>
    cases r with
    | nil => rfl
    | cons c r =>
      have hc : ¬ (c = 'e' ∨ c = 'E') := by
        rintro (rfl | rfl)
        · exact he rfl
        · exact hE rfl
      show (if c = 'e' || c = 'E' then _ else some (false, c :: r)) = _
      rw [if_neg (by simpa only [Bool.or_eq_true, decide_eq_true_eq] using hc)]
      rfl
  | @digits e sign t hmark hsign hdigits =>
    have hread : readExponent (e :: (sign ++ t) ++ r) = (readDigits (t ++ r)).map (true, ·) := by
      show (if e = 'e' || e = 'E' then _ else _) = _
      rw [if_pos (by simpa only [Bool.or_eq_true, decide_eq_true_eq] using hmark)]
      rcases hsign with rfl | rfl | rfl
      · obtain ⟨c, t, rfl⟩ := List.exists_cons_of_ne_nil hdigits.1
        have hc := hdigits.2 c List.mem_cons_self
        have hplus : c ≠ '+' := by rintro rfl; exact absurd hc (by decide)
        have hminus : c ≠ '-' := by rintro rfl; exact absurd hc (by decide)
        simp [hplus, hminus]
      · rfl
      · rfl
    rw [hread, readDigits_append hdigits hr]
    rfl

theorem Delimited.head (h : Delimited rest) (hc : rest.head? = some c) :
    c.isDigit = false ∧ c ≠ '.' ∧ c ≠ 'e' ∧ c ≠ 'E' := by
  have hfew : c = ' ' ∨ c = '\t' ∨ c = '\n' ∨ c = '\r' ∨ c = ',' ∨ c = ']' ∨ c = '\x7d' := by
    simpa only [isSpace, Bool.or_eq_true, decide_eq_true_eq, or_assoc] using h c hc
  rcases hfew with rfl | rfl | rfl | rfl | rfl | rfl | rfl <;> decide

theorem Delimited.endsDigits (h : Delimited rest) : EndsDigits rest := by
  cases rest with
  | nil => rfl
  | cons c rest => exact (h.head rfl).1

theorem Exponent.endsDigits (h : Exponent t) (hrest : Delimited rest) :
    EndsDigits (t ++ rest) ∧ (t ++ rest).head? ≠ some '.' := by
  cases h with
  | none => exact ⟨hrest.endsDigits, fun hdot ↦ (hrest.head hdot).2.1 rfl⟩
  | digits he _ _ =>
    rcases he with rfl | rfl
    · exact ⟨rfl, by simp⟩
    · exact ⟨rfl, by simp⟩

theorem Fraction.endsDigits (h : Fraction t) (hr : EndsDigits r) : EndsDigits (t ++ r) := by
  cases h with
  | none => exact hr
  | digits _ => rfl

/-- A number of any form is read up to what ends it. -/
theorem readNumber_append {sign whole fraction exponent : Text} (hsign : sign = [] ∨ sign = ['-'])
    (hwhole : Whole whole) (hfraction : Fraction fraction) (hexponent : Exponent exponent)
    (hrest : Delimited rest) :
    readNumber (sign ++ (whole ++ (fraction ++ (exponent ++ rest)))) =
      some (number (if sign.isEmpty && fraction.isEmpty && exponent.isEmpty &&
        Decimal.value whole < Decimal.wordSize then some (Decimal.value whole) else none), rest) := by
  obtain ⟨hends, hdot⟩ := hexponent.endsDigits hrest
  have hw := readWhole_append hwhole (hfraction.endsDigits hends)
  have hf := readFraction_append hfraction hends hdot
  have he := readExponent_append hexponent hrest.endsDigits (fun h ↦ (hrest.head h).2.2.1 rfl)
    (fun h ↦ (hrest.head h).2.2.2 rfl)
  rcases hsign with rfl | rfl
  · rw [List.nil_append, readNumber]
    · simp [hw, hf, he]
    · intro r hminus
      obtain ⟨c, t, rfl, hc⟩ := hwhole.head
      obtain rfl : c = '-' := (List.cons_eq_cons.1 hminus).1
      exact absurd hc (by decide)
  · simp [readNumber, hw, hf, he]

/-! ### Values -/

/-- The name of a field, with white space around it. -/
inductive Key : Text → Option Text → Prop
  | mk {u t w : Text} {key : Option Text} : Blank u → Literal t key → Blank w →
      Key (u ++ ('"' :: (t ++ '"' :: w))) key

theorem Key.start {key : Option Text} (h : Key t key) : ∃ u r, t = u ++ '"' :: r ∧ Blank u := by
  cases h with
  | mk hu _ _ => exact ⟨_, _, rfl, hu⟩

/-- The text of a field. -/
def fieldText (p : (Text × Option Text) × (Text × Json)) : Text :=
  p.1.1 ++ ':' :: p.2.1

/-- A text of a value, with white space around it. -/
inductive Spells : Text → Json → Prop
  | null : Spells "null".toList null
  | true : Spells "true".toList (bool true)
  | false : Spells "false".toList (bool false)
  | number {t : Text} {natural? : Option Nat} : Numeral t natural? → Spells t (number natural?)
  | string {t : Text} {text? : Option Text} : Literal t text? → Spells ('"' :: (t ++ ['"'])) (string text?)
  | emptyArray {u : Text} : Blank u → Spells ('[' :: (u ++ [']'])) (array [])
  | array {parts : List (Text × Json)} : parts ≠ [] → (∀ p ∈ parts, Spells p.1 p.2) →
      Spells ('[' :: ([','].intercalate (parts.map Prod.fst) ++ [']'])) (array (parts.map Prod.snd))
  | emptyObject {u : Text} : Blank u → Spells ('\x7b' :: (u ++ ['\x7d'])) (object [])
  | object {parts : List ((Text × Option Text) × (Text × Json))} : parts ≠ [] →
      (∀ p ∈ parts, Key p.1.1 p.1.2) → (∀ p ∈ parts, Spells p.2.1 p.2.2) →
      Spells ('\x7b' :: ([','].intercalate (parts.map fieldText) ++ ['\x7d']))
        (object (parts.map fun p ↦ (p.1.2, p.2.2)))
  | spaced {u t w : Text} {v : Json} : Blank u → Spells t v → Blank w → Spells (u ++ (t ++ w)) v

theorem Numeral.head {natural? : Option Nat} (h : Numeral t natural?) :
    ∃ c r, t = c :: r ∧ (c = '-' ∨ c.isDigit = Bool.true) := by
  cases h with
  | natural hwhole _ | large hwhole _ =>
    obtain ⟨c, r, rfl, hc⟩ := hwhole.head
    exact ⟨c, r, rfl, .inr hc⟩
  | other hsign hwhole _ _ _ =>
    obtain ⟨c, r, rfl, hc⟩ := hwhole.head
    rcases hsign with rfl | rfl
    · exact ⟨c, _, rfl, .inr hc⟩
    · exact ⟨'-', _, rfl, .inl rfl⟩

/-- A number starts like no other value. -/
theorem starts_number (hc : c = '-' ∨ c.isDigit = Bool.true) :
    isSpace c = Bool.false ∧ c ≠ ']' ∧ c ≠ '"' ∧ c ≠ '[' ∧ c ≠ '\x7b' := by
  have hne : ∀ d : Char, d ≠ '-' → d.isDigit = Bool.false → c ≠ d := by
    rintro d hminus hdigit rfl
    exact hc.elim hminus fun h ↦ absurd (hdigit.symm.trans h) Bool.false_ne_true
  refine ⟨?_, hne _ (by decide) (by decide), hne _ (by decide) (by decide), hne _ (by decide) (by decide),
    hne _ (by decide) (by decide)⟩
  simp only [isSpace, hne ' ' (by decide) (by decide), hne '\t' (by decide) (by decide),
    hne '\n' (by decide) (by decide), hne '\r' (by decide) (by decide), decide_false, Bool.or_self]

/-- A value starts with a character that is neither white space nor a closing bracket. -/
theorem Spells.start {v : Json} (h : Spells t v) :
    ∃ u c r, t = u ++ c :: r ∧ Blank u ∧ isSpace c = Bool.false ∧ c ≠ ']' := by
  have hfirst : ∀ {c : Char} {r : Text}, isSpace c = Bool.false → c ≠ ']' →
      ∃ u c' r', c :: r = u ++ c' :: r' ∧ Blank u ∧ isSpace c' = Bool.false ∧ c' ≠ ']' := fun hc hne ↦
    ⟨[], _, _, rfl, fun _ h ↦ absurd h List.not_mem_nil, hc, hne⟩
  induction h with
  | null | true | false => exact hfirst (by decide) (by decide)
  | number hnumeral =>
    obtain ⟨c, r, rfl, hc⟩ := hnumeral.head
    obtain ⟨hspace, hclose, -⟩ := starts_number hc
    exact hfirst hspace hclose
  | string | emptyArray | array | emptyObject | object => exact hfirst (by decide) (by decide)
  | @spaced u t w _ hu _ _ ih =>
    obtain ⟨u', c, r, rfl, hu', hc, hne⟩ := ih
    refine ⟨u ++ u', c, r ++ w, ?_, ?_, hc, hne⟩
    · simp only [List.append_assoc, List.cons_append]
    · exact fun c hc ↦ (List.mem_append.1 hc).elim (hu c) (hu' c)

/-- The reader takes a text as a value, if its calls may go deep enough. -/
def Reads (t : Text) (v : Json) : Prop :=
  ∀ n rest, 2 * t.length + 1 ≤ n → Delimited rest →
    ∃ rest', readValue n (t ++ rest) = some (v, rest') ∧ skipSpace rest' = skipSpace rest

variable {n : Nat} {v : Json}

theorem readItems_last (hread : readValue n t = some (v, r)) (hskip : skipSpace r = ']' :: rest) :
    readItems (n + 1) t = some ([v], rest) := by
  rw [readItems, hread]
  simp only [Option.bind_eq_bind, Option.bind_some, hskip]
  rfl

theorem readItems_more {items : List Json} (hread : readValue n t = some (v, r)) (hskip : skipSpace r = ',' :: u)
    (hmore : readItems n u = some (items, rest)) : readItems (n + 1) t = some (v :: items, rest) := by
  rw [readItems, hread]
  simp only [Option.bind_eq_bind, Option.bind_some, hskip, hmore]
  rfl

/-- The values of an array are read, by induction on them. Each takes a call that is one deeper. -/
theorem readItems_append (rest : Text) {parts : List (Text × Json)} (hne : parts ≠ [])
    (hparts : ∀ p ∈ parts, Reads p.1 p.2)
    (hn : 2 * ([','].intercalate (parts.map Prod.fst)).length + 2 ≤ n) :
    readItems n ([','].intercalate (parts.map Prod.fst) ++ ']' :: rest) = some (parts.map Prod.snd, rest) := by
  induction parts generalizing n with
  | nil => exact absurd rfl hne
  | cons p parts ih =>
    obtain ⟨n, rfl⟩ : ∃ m, n = m + 1 := ⟨n - 1, by omega⟩
    have hp := hparts p List.mem_cons_self
    cases parts with
    | nil =>
      rw [List.map_singleton, List.intercalate_singleton] at hn ⊢
      obtain ⟨rest', hread, hskip⟩ := hp n (']' :: rest) (by omega) (delimited_cons (by simp))
      exact readItems_last hread (hskip.trans (skipSpace_cons (by decide)))
    | cons q parts =>
      rw [List.map_cons, List.map_cons, List.intercalate_cons_cons, ← List.map_cons] at hn ⊢
      simp only [List.length_append, List.length_singleton] at hn
      rw [List.append_assoc, List.append_assoc, List.singleton_append]
      obtain ⟨rest', hread, hskip⟩ := hp n (',' :: ([','].intercalate ((q :: parts).map Prod.fst) ++ ']' :: rest))
        (by omega) (delimited_cons (by simp))
      refine readItems_more hread (hskip.trans (skipSpace_cons (by decide))) (ih (List.cons_ne_nil _ _) ?_ ?_)
      · exact fun p hp ↦ hparts p (List.mem_cons_of_mem _ hp)
      · omega

/-- The name of a field and its value are read; the next character says whether further fields follow. -/
theorem readFields_value {key : Option Text} (hkey : Key t key) (hread : readValue n u = some (v, r)) :
    readFields (n + 1) (t ++ ':' :: u) =
      match skipSpace r with
      | ',' :: more => (readFields n more).bind fun p ↦ some ((key, v) :: p.1, p.2)
      | '\x7d' :: rest => some ([(key, v)], rest)
      | _ => none := by
  obtain ⟨hu, hliteral, hw⟩ := hkey
  rw [readFields, List.append_assoc, skipSpace_blank hu, List.cons_append, skipSpace_cons (by decide)]
  simp only [List.append_assoc, List.cons_append, readString_of_literal hliteral, Option.bind_eq_bind,
    Option.bind_some, skipSpace_blank hw, skipSpace_cons (by decide : isSpace ':' = false), hread]
  rfl

theorem readFields_last {key : Option Text} (hkey : Key t key) (hread : readValue n u = some (v, r))
    (hskip : skipSpace r = '\x7d' :: rest) : readFields (n + 1) (t ++ ':' :: u) = some ([(key, v)], rest) := by
  rw [readFields_value hkey hread, hskip]
  rfl

theorem readFields_more {key : Option Text} {fields : List (Option Text × Json)} {more : Text} (hkey : Key t key)
    (hread : readValue n u = some (v, r)) (hskip : skipSpace r = ',' :: more)
    (hmore : readFields n more = some (fields, rest)) :
    readFields (n + 1) (t ++ ':' :: u) = some ((key, v) :: fields, rest) := by
  rw [readFields_value hkey hread, hskip]
  simp only [hmore, Option.bind_some]

/-- The fields of an object are read, by the same induction. -/
theorem readFields_append (rest : Text) {parts : List ((Text × Option Text) × (Text × Json))} (hne : parts ≠ [])
    (hkeys : ∀ p ∈ parts, Key p.1.1 p.1.2) (hparts : ∀ p ∈ parts, Reads p.2.1 p.2.2)
    (hn : 2 * ([','].intercalate (parts.map fieldText)).length + 2 ≤ n) :
    readFields n ([','].intercalate (parts.map fieldText) ++ '\x7d' :: rest) =
      some (parts.map fun p ↦ (p.1.2, p.2.2), rest) := by
  induction parts generalizing n with
  | nil => exact absurd rfl hne
  | cons p parts ih =>
    obtain ⟨n, rfl⟩ : ∃ m, n = m + 1 := ⟨n - 1, by omega⟩
    have hkey := hkeys p List.mem_cons_self
    have hp := hparts p List.mem_cons_self
    have hlen : (fieldText p).length = p.1.1.length + (p.2.1.length + 1) := List.length_append
    have htext : ∀ r, fieldText p ++ r = p.1.1 ++ ':' :: (p.2.1 ++ r) := fun r ↦ List.append_assoc _ _ _
    cases parts with
    | nil =>
      rw [List.map_singleton, List.intercalate_singleton] at hn ⊢
      rw [htext]
      obtain ⟨rest', hread, hskip⟩ := hp n ('\x7d' :: rest) (by omega) (delimited_cons (by simp))
      exact readFields_last hkey hread (hskip.trans (skipSpace_cons (by decide)))
    | cons q parts =>
      rw [List.map_cons, List.map_cons, List.intercalate_cons_cons, ← List.map_cons] at hn ⊢
      simp only [List.length_append, List.length_singleton] at hn
      rw [List.append_assoc, List.append_assoc, List.singleton_append, htext]
      obtain ⟨rest', hread, hskip⟩ := hp n (',' :: ([','].intercalate ((q :: parts).map fieldText) ++ '\x7d' :: rest))
        (by omega) (delimited_cons (by simp))
      refine readFields_more hkey hread (hskip.trans (skipSpace_cons (by decide)))
        (ih (List.cons_ne_nil _ _) ?_ ?_ ?_)
      · exact fun p hp ↦ hkeys p (List.mem_cons_of_mem _ hp)
      · exact fun p hp ↦ hparts p (List.mem_cons_of_mem _ hp)
      · omega

/-! ### The reader finds the value -/

theorem readValue_blank (hu : Blank u) : readValue n (u ++ t) = readValue n t := by
  cases n with
  | zero => rw [readValue, readValue]
  | succ n => rw [readValue, readValue, skipSpace_blank hu]

theorem readNumber_numeral {natural? : Option Nat} (h : Numeral t natural?) (hrest : Delimited rest) :
    readNumber (t ++ rest) = some (number natural?, rest) := by
  cases h with
  | natural hwhole hlt => simpa [hlt] using readNumber_append (.inl rfl) hwhole .none .none hrest
  | large hwhole hle => simpa [Nat.not_lt.2 hle] using readNumber_append (.inl rfl) hwhole .none .none hrest
  | @other sign whole fraction exponent hsign hwhole hfraction hexponent hany =>
    have hparts : (sign.isEmpty && fraction.isEmpty && exponent.isEmpty) = false := by
      rcases hany with h | h | h <;> simp [List.isEmpty_eq_false_iff.2 h]
    simp only [List.append_assoc]
    rw [readNumber_append hsign hwhole hfraction hexponent hrest, hparts]
    rfl

theorem reads_number {natural? : Option Nat} (h : Numeral t natural?) : Reads t (number natural?) := by
  intro n rest hn hrest
  obtain ⟨n, rfl⟩ : ∃ m, n = m + 1 := ⟨n - 1, by omega⟩
  refine ⟨rest, ?_, rfl⟩
  have hread := readNumber_numeral h hrest
  obtain ⟨c, r, rfl, hc⟩ := h.head
  obtain ⟨hspace, -, hquote, hopen, hbrace⟩ := starts_number hc
  rw [List.cons_append] at hread ⊢
  rw [readValue, skipSpace_cons hspace]
  split
  · rename_i heq
    exact absurd heq (List.cons_ne_nil _ _)
  · rename_i heq
    exact absurd (List.cons_eq_cons.1 heq).1 hquote
  · rename_i heq
    exact absurd (List.cons_eq_cons.1 heq).1 hopen
  · rename_i heq
    exact absurd (List.cons_eq_cons.1 heq).1 hbrace
  · rename_i heq
    obtain ⟨rfl, rfl⟩ := List.cons_eq_cons.1 heq
    rw [if_pos (by simpa only [Bool.or_eq_true, decide_eq_true_eq] using hc)]
    exact hread

theorem reads_word (h : ∀ n rest, readValue (n + 1) (t ++ rest) = some (v, rest)) : Reads t v := by
  intro n rest hn _
  obtain ⟨n, rfl⟩ : ∃ m, n = m + 1 := ⟨n - 1, by omega⟩
  exact ⟨rest, h n rest, rfl⟩

theorem reads_string {text? : Option Text} (h : Literal t text?) : Reads ('"' :: (t ++ ['"'])) (string text?) := by
  refine reads_word fun n rest ↦ ?_
  rw [List.cons_append, List.append_assoc, List.singleton_append, readValue, skipSpace_cons (by decide)]
  simp only [readString_of_literal h, Option.map_some]

theorem reads_emptyArray (hu : Blank u) : Reads ('[' :: (u ++ [']'])) (array []) := by
  refine reads_word fun n rest ↦ ?_
  rw [List.cons_append, List.append_assoc, List.singleton_append, readValue, skipSpace_cons (by decide)]
  simp only [skipSpace_blank hu, skipSpace_cons (by decide : isSpace ']' = false)]

theorem reads_emptyObject (hu : Blank u) : Reads ('\x7b' :: (u ++ ['\x7d'])) (object []) := by
  refine reads_word fun n rest ↦ ?_
  rw [List.cons_append, List.append_assoc, List.singleton_append, readValue, skipSpace_cons (by decide)]
  simp only [skipSpace_blank hu, skipSpace_cons (by decide : isSpace '\x7d' = false)]

theorem exists_intercalate {α : Type} (f : α → Text) (p : α) (parts : List α) :
    ∃ r, [','].intercalate ((p :: parts).map f) = f p ++ r := by
  cases parts with
  | nil => exact ⟨[], by rw [List.map_singleton, List.intercalate_singleton, List.append_nil]⟩
  | cons q parts =>
    refine ⟨[','] ++ [','].intercalate ((q :: parts).map f), ?_⟩
    rw [List.map_cons, List.map_cons, List.intercalate_cons_cons, List.append_assoc, ← List.map_cons]

theorem reads_array {parts : List (Text × Json)} (hne : parts ≠ []) (hspells : ∀ p ∈ parts, Spells p.1 p.2)
    (hparts : ∀ p ∈ parts, Reads p.1 p.2) :
    Reads ('[' :: ([','].intercalate (parts.map Prod.fst) ++ [']'])) (array (parts.map Prod.snd)) := by
  intro n rest hn _
  obtain ⟨n, rfl⟩ : ∃ m, n = m + 1 := ⟨n - 1, by omega⟩
  simp only [List.length_cons, List.length_append] at hn
  have hitems := readItems_append rest hne hparts (n := n) (by omega)
  refine ⟨rest, ?_, rfl⟩
  rw [List.cons_append, List.append_assoc, List.singleton_append, readValue, skipSpace_cons (by decide)]
  obtain ⟨p, parts, rfl⟩ := List.exists_cons_of_ne_nil hne
  obtain ⟨r, hr⟩ := exists_intercalate Prod.fst p parts
  obtain ⟨u, c, r', hp, hu, hc, hclose⟩ := (hspells p List.mem_cons_self).start
  -- a value does not start with a closing bracket, so the array is not taken for an empty one
  have hskip : skipSpace ([','].intercalate ((p :: parts).map Prod.fst) ++ ']' :: rest) =
      c :: (r' ++ (r ++ ']' :: rest)) := by
    rw [hr, hp, List.append_assoc, List.append_assoc, skipSpace_blank hu, List.cons_append, skipSpace_cons hc]
  simp only [hitems, Option.map_some]
  split
  · rename_i heq
    exact absurd (List.cons_eq_cons.1 (hskip.symm.trans heq)).1 hclose
  · rfl

theorem reads_object {parts : List ((Text × Option Text) × (Text × Json))} (hne : parts ≠ [])
    (hkeys : ∀ p ∈ parts, Key p.1.1 p.1.2) (hparts : ∀ p ∈ parts, Reads p.2.1 p.2.2) :
    Reads ('\x7b' :: ([','].intercalate (parts.map fieldText) ++ ['\x7d']))
      (object (parts.map fun p ↦ (p.1.2, p.2.2))) := by
  intro n rest hn _
  obtain ⟨n, rfl⟩ : ∃ m, n = m + 1 := ⟨n - 1, by omega⟩
  simp only [List.length_cons, List.length_append] at hn
  have hfields := readFields_append rest hne hkeys hparts (n := n) (by omega)
  refine ⟨rest, ?_, rfl⟩
  rw [List.cons_append, List.append_assoc, List.singleton_append, readValue, skipSpace_cons (by decide)]
  obtain ⟨p, parts, rfl⟩ := List.exists_cons_of_ne_nil hne
  obtain ⟨r, hr⟩ := exists_intercalate fieldText p parts
  obtain ⟨u, r', hp, hu⟩ := (hkeys p List.mem_cons_self).start
  have hskip : ∃ r'', skipSpace ([','].intercalate ((p :: parts).map fieldText) ++ '\x7d' :: rest) = '"' :: r'' := by
    rw [hr, fieldText, hp]
    simp only [List.append_assoc, skipSpace_blank hu, List.cons_append,
      skipSpace_cons (by decide : isSpace '"' = false)]
    exact ⟨_, rfl⟩
  obtain ⟨r'', hskip⟩ := hskip
  simp only [hfields, Option.map_some]
  split
  · rename_i heq
    exact absurd (List.cons_eq_cons.1 (hskip.symm.trans heq)).1 (by decide)
  · rfl

/-- **A text of a value is read as this value**, up to white space behind it. -/
theorem Spells.reads (h : Spells t v) : Reads t v := by
  induction h with
  | null | true | false =>
    refine reads_word fun n rest ↦ ?_
    rw [readValue]
    rfl
  | number hnumeral => exact reads_number hnumeral
  | string hliteral => exact reads_string hliteral
  | emptyArray hu => exact reads_emptyArray hu
  | array hne hspells ih => exact reads_array hne hspells ih
  | emptyObject hu => exact reads_emptyObject hu
  | object hne hkeys _ ih => exact reads_object hne hkeys ih
  | @spaced u t w v hu _ hw ih =>
    intro n rest hn hrest
    simp only [List.length_append] at hn
    obtain ⟨rest', hread, hskip⟩ := ih n (w ++ rest) (by omega) (delimited_blank hw hrest)
    refine ⟨rest', ?_, hskip.trans (skipSpace_blank hw)⟩
    rw [List.append_assoc, List.append_assoc, readValue_blank hu, hread]

/-- **The reader accepts every JSON text** and finds the value that it spells. -/
theorem read_of_spells (h : Spells t v) : read t = some v := by
  obtain ⟨rest, hread, hskip⟩ := h.reads (2 * t.length + 2) [] (by omega) (by rintro _ ⟨⟩)
  rw [List.append_nil] at hread
  rw [read, hread]
  simp only [Option.bind_eq_bind, Option.bind_some, hskip]
  rfl

end Json

end HeaderHints
