import HeaderHints.Proofs.SpelledTypes
import HeaderHints.TypeExpr.Tokens
import Mathlib.Data.List.DropRight

/-!
# Types as texts

An inferred type arrives as a text. The text of a regular type is lexed into the tokens of the type
(`lex_render`), if its names are made of word characters and none of them stands for a single time zone.

The lexer of types works with a bound on the number of steps and with no memory, so a piece of text can be
looked at by itself: `Lexes text P ts` says that `text` gives the tokens `ts` wherever it stands, as long as
`P` holds of what follows it. A name in particular must not go on: `Breaks` says what can follow one.
-/

namespace HeaderHints

/-! ### Characters -/

namespace Text

/-- The blanks lie in ten short ranges. -/
theorem exists_range_of_isBlank {c : Char} (h : isBlank c = true) :
    ∃ range ∈ (0x20, 0x20) :: (0x09, 0x0d) :: blankRanges, range.1 ≤ c.toNat ∧ c.toNat ≤ range.2 := by
  unfold isBlank at h
  split at h
  · simp only [Bool.or_eq_true, decide_eq_true_eq, Bool.and_eq_true] at h
    rcases h with rfl | h
    · exact ⟨_, List.mem_cons_self, by decide⟩
    · exact ⟨_, List.mem_cons_of_mem _ List.mem_cons_self, h⟩
  · obtain ⟨range, hmem, hin⟩ := List.any_eq_true.1 h
    exact ⟨range, by simp [hmem], by simpa using hin⟩

theorem isWord_eq_false_of_isBlank {c : Char} (h : isBlank c = true) : isWord c = false := by
  have hall : ∀ range ∈ (0x20, 0x20) :: (0x09, 0x0d) :: blankRanges, range.2 < range.1 + 12 ∧
      ∀ n < 12, range.2 < range.1 + n ∨ isWord (Char.ofNat (range.1 + n)) = false := by
    decide +kernel
  obtain ⟨range, hmem, hlow, hhigh⟩ := exists_range_of_isBlank h
  obtain ⟨hshort, hword⟩ := hall range hmem
  obtain ⟨n, hn⟩ := Nat.exists_eq_add_of_le hlow
  have hcode := (hword n (by omega)).resolve_left (by omega)
  rwa [← hn, Char.ofNat_toNat] at hcode

theorem not_isBlank_of_isWord {c : Char} (h : isWord c = true) : isBlank c = false := by
  cases hblank : isBlank c with
  | false => rfl
  | true =>
    rw [isWord_eq_false_of_isBlank hblank] at h
    exact absurd h (by simp)

/-- A run of characters ends where one comes that does not belong to it. -/
theorem span_append {p : Char → Bool} {t u : Text} (ht : ∀ c ∈ t, p c = true)
    (hu : ∀ c ∈ u.head?, p c = false) : (t ++ u).span p = (t, u) := by
  rw [List.span_eq_takeWhile_dropWhile, List.takeWhile_append_of_pos ht, List.dropWhile_append_of_pos ht]
  cases u with
  | nil => simp
  | cons c u => simp [hu c rfl]

end Text

namespace TypeExpr

open Text

variable {name rest : Text} {modules : Modules} {t : TypeExpr} {args : List TypeExpr}

/-! ### Names -/

/-- A name that the lexer of types takes in one piece and leaves as it is: word characters, with dots and
colons behind the first of them, and not the class of a single time zone. -/
structure Wordy (name : Text) : Prop where
  head : ∃ c ∈ name.head?, isWord c = true
  all : ∀ c ∈ name, isWord c = true ∨ c = '.' ∨ c = ':'
  kept : ¬ "pytz.tzfile.".toList <+: name

/-- What can follow a name: blanks, and then a bracket, a comma or a bar, or nothing. -/
def Breaks (rest : Text) : Prop :=
  ∀ c ∈ (rest.dropWhile isBlank).head?, c ∈ "[],|".toList

theorem breaks_cons {c : Char} (hc : c ∈ "[],|".toList) : Breaks (c :: rest) := by
  have hmark : ∀ e ∈ "[],|".toList, isBlank e = false := by decide
  intro d hd
  obtain rfl : c = d := by simpa [hmark c hc] using hd
  exact hc

theorem Breaks.space (h : Breaks rest) : Breaks (' ' :: rest) := by
  rwa [Breaks, List.dropWhile_cons_of_pos (by decide)]

theorem Breaks.not_isPart (h : Breaks rest) : ∀ c ∈ rest.head?, isHead c = false ∧ isPart c = false := by
  rintro c hc
  obtain ⟨rest, rfl⟩ := List.head?_eq_some_iff.1 hc
  cases hblank : isBlank c with
  | true =>
    have hother : ∀ e ∈ ['-', '\x60', '/'], isBlank e = false := by decide
    have hne : ∀ e ∈ ['-', '\x60', '/'], c ≠ e := by
      rintro e he rfl
      rw [hother c he] at hblank
      exact absurd hblank (by simp)
    simp [isHead, isPart, isWord_eq_false_of_isBlank hblank, hne]
  | false =>
    have hmark : ∀ e ∈ "[],|".toList, isHead e = false ∧ isPart e = false := by decide
    exact hmark c (h c (by simp [hblank]))

theorem Breaks.dropWhile (h : Breaks rest) : Breaks (rest.dropWhile isBlank) := by
  rwa [Breaks, List.dropWhile_idempotent]

/-- Nothing more of a name is found behind it. -/
theorem splitParts_of_breaks (h : Breaks rest) (n : Nat) : splitParts n rest = ([], rest) := by
  cases n with
  | zero => rfl
  | succ n =>
    rw [splitParts, List.span_eq_takeWhile_dropWhile]
    unfold Breaks at h
    cases hrest : rest.dropWhile isBlank with
    | nil => rfl
    | cons c r =>
      have hmark : ∀ e ∈ "[],|".toList, (decide (e = '.') || decide (e = ':')) = false := by decide
      rw [hrest] at h
      dsimp only
      rw [hmark c (h c rfl)]
      rfl

theorem head?_dropWhile_isWord {t : Text} : ∀ c ∈ (t.dropWhile isWord).head?, isWord c = false := by
  intro c hc
  have := List.head?_dropWhile_not isWord t
  rw [hc] at this
  simpa using this

/-- A run of word characters ends where a name is divided and where it ends. -/
theorem span_word {p : Char → Bool} {t : Text} (hword : ∀ c, isWord c = true → p c = true)
    (hmark : p '.' = false ∧ p ':' = false) (hall : ∀ c ∈ t, isWord c = true ∨ c = '.' ∨ c = ':')
    (hrest : ∀ c ∈ rest.head?, p c = false) :
    (t ++ rest).span p = (t.takeWhile isWord, t.dropWhile isWord ++ rest) := by
  have hsplit : t ++ rest = t.takeWhile isWord ++ (t.dropWhile isWord ++ rest) := by
    rw [← List.append_assoc, List.takeWhile_append_dropWhile]
  rw [hsplit]
  refine span_append (fun c hc ↦ hword c (List.mem_takeWhile_imp hc)) ?_
  cases htail : t.dropWhile isWord with
  | nil => exact hrest
  | cons c tail =>
    rintro _ ⟨⟩
    have hc : isWord c = false := head?_dropWhile_isWord (t := t) c (by rw [htail]; rfl)
    have hmem : c ∈ t := (List.dropWhile_sublist isWord).mem (by simp [htail])
    rcases hall c hmem with h | rfl | rfl
    · rw [hc] at h
      exact absurd h (by simp)
    · exact hmark.1
    · exact hmark.2

/-- A part of a name, with the divider before it. -/
theorem splitParts_part {c : Char} {n : Nat} {t u v space part parts rest' : Text} (hc : c = '.' ∨ c = ':')
    (hspace : t.span isBlank = (space, u)) (hpart : u.span isPart = (part, v))
    (hparts : splitParts n v = (parts, rest')) :
    splitParts (n + 1) (c :: t) = (c :: (space ++ (part ++ parts)), rest') := by
  have hgap : (c :: t).span isBlank = ([], c :: t) := by
    refine span_append (t := []) (by simp) ?_
    rintro _ ⟨⟩
    rcases hc with rfl | rfl <;> decide
  have hdivides : (decide (c = '.') || decide (c = ':')) = true := by simpa using hc
  rw [splitParts, hgap]
  dsimp only
  rw [if_pos hdivides, hspace]
  dsimp only
  rw [hpart]
  dsimp only
  rw [hparts]
  simp

/-- **The parts of a name are found.** Blanks behind a dot at the end of the name go with it. -/
theorem splitParts_append (hrest : Breaks rest) {n : Nat} {t : Text}
    (hall : ∀ c ∈ t, isWord c = true ∨ c = '.' ∨ c = ':') (hhead : ∀ c ∈ t.head?, isWord c = false)
    (hn : t.length ≤ n) :
    ∃ gap rest', rest = gap ++ rest' ∧ (∀ c ∈ gap, isBlank c = true) ∧
      splitParts n (t ++ rest) = (t ++ gap, rest') := by
  induction n generalizing t with
  | zero =>
    obtain rfl := List.eq_nil_of_length_eq_zero (Nat.le_zero.1 hn)
    exact ⟨[], rest, rfl, by simp, rfl⟩
  | succ n ih =>
    rcases t with - | ⟨c, - | ⟨d, t⟩⟩
    · exact ⟨[], rest, rfl, by simp, splitParts_of_breaks hrest _⟩
    · -- the name ends in a divider, and the blanks behind it go with it
      have hc : c = '.' ∨ c = ':' := (hall c (by simp)).resolve_left (by simp [hhead c rfl])
      have hpart : (rest.dropWhile isBlank).span isPart = ([], rest.dropWhile isBlank) :=
        span_append (t := []) (by simp) fun c hc ↦ (hrest.dropWhile.not_isPart c hc).2
      refine ⟨rest.takeWhile isBlank, rest.dropWhile isBlank, ?_, fun c hc ↦ List.mem_takeWhile_imp hc, ?_⟩
      · rw [List.takeWhile_append_dropWhile]
      · have hstep := splitParts_part hc (List.span_eq_takeWhile_dropWhile isBlank rest) hpart
          (splitParts_of_breaks hrest.dropWhile n)
        simpa using hstep
    · have hc : c = '.' ∨ c = ':' := (hall c (by simp)).resolve_left (by simp [hhead c rfl])
      have hspace : (d :: t ++ rest).span isBlank = ([], d :: t ++ rest) := by
        refine span_append (t := []) (by simp) ?_
        rintro _ ⟨⟩
        rcases hall d (by simp) with hd | rfl | rfl
        · exact not_isBlank_of_isWord hd
        · decide
        · decide
      have hpart : (d :: t ++ rest).span isPart =
          ((d :: t).takeWhile isWord, (d :: t).dropWhile isWord ++ rest) :=
        span_word (fun c hc ↦ by simp [isPart, hc]) (by decide) (fun c hc ↦ hall c (by simp [hc]))
          fun c hc ↦ (hrest.not_isPart c hc).2
      have hsub := List.dropWhile_sublist isWord (l := d :: t)
      obtain ⟨gap, rest', hsplit, hblank, hparts⟩ := ih
        (fun c hc ↦ hall c (List.mem_cons_of_mem _ (hsub.mem hc))) head?_dropWhile_isWord
        (hsub.length_le.trans (by simpa using hn))
      refine ⟨gap, rest', hsplit, hblank, ?_⟩
      have hstep := splitParts_part hc hspace hpart hparts
      rw [List.nil_append, ← List.append_assoc, List.takeWhile_append_dropWhile] at hstep
      exact hstep

/-- **A name is found**, with the blanks behind it if it ends in a dot. -/
theorem splitName_append (h : Wordy name) (hrest : Breaks rest) :
    ∃ gap rest', rest = gap ++ rest' ∧ (∀ c ∈ gap, isBlank c = true) ∧
      splitName (name ++ rest) = (name ++ gap, rest') := by
  have hspan : (name ++ rest).span isHead = (name.takeWhile isWord, name.dropWhile isWord ++ rest) :=
    span_word (fun c hc ↦ by simp [isHead, hc]) (by decide) h.all fun c hc ↦ (hrest.not_isPart c hc).1
  obtain ⟨c, hc, hword⟩ := h.head
  obtain ⟨w, rfl⟩ := List.head?_eq_some_iff.1 hc
  obtain ⟨gap, rest', hsplit, hblank, hparts⟩ := @splitParts_append rest hrest
    ((c :: w).dropWhile isWord ++ rest).length ((c :: w).dropWhile isWord)
    (fun c hc ↦ h.all c ((List.dropWhile_sublist isWord).mem hc))
    head?_dropWhile_isWord (by simp)
  refine ⟨gap, rest', hsplit, hblank, ?_⟩
  have hcons : (c :: w).takeWhile isWord = c :: w.takeWhile isWord := by simp [hword]
  have hall : c :: w ++ gap = (c :: w).takeWhile isWord ++ ((c :: w).dropWhile isWord ++ gap) := by
    rw [← List.append_assoc, List.takeWhile_append_dropWhile]
  rw [splitName, hspan, hcons]
  dsimp only
  rw [hparts, hall, hcons]

/-- A name is meant as it is written. -/
theorem meantName_append (h : Wordy name) {gap : Text} (hgap : ∀ c ∈ gap, isBlank c = true) :
    meantName (name ++ gap) = name := by
  have hmarks : ∀ e ∈ ['.', ':'], isBlank e = false ∧ e ≠ '\x60' ∧ e ≠ '-' ∧ e ≠ '/' := by decide
  have hwords : ∀ e ∈ ['\x60', '-', '/'], isWord e = false := by decide
  have hchar : ∀ c ∈ name, isBlank c = false ∧ c ≠ '\x60' ∧ c ≠ '-' ∧ c ≠ '/' := by
    intro c hc
    rcases h.all c hc with hword | hc
    · have hne : ∀ e ∈ ['\x60', '-', '/'], c ≠ e := by
        rintro e he rfl
        rw [hwords c he] at hword
        exact absurd hword (by simp)
      exact ⟨not_isBlank_of_isWord hword, hne _ (by simp), hne _ (by simp), hne _ (by simp)⟩
    · exact hmarks c (by simpa using hc)
  have hfilter : (name ++ gap).filter (fun c ↦ !isBlank c) = name := by
    rw [List.filter_append, List.filter_eq_self.2 fun c hc ↦ by simp [(hchar c hc).1],
      List.filter_eq_nil_iff.2 fun c hc ↦ by simp [hgap c hc], List.append_nil]
  have htake : name.takeWhile (· ≠ '\x60') = name :=
    List.takeWhile_eq_self_iff.2 fun c hc ↦ by simpa using (hchar c hc).2.1
  have hdash : '-' ∉ name := fun hmem ↦ (hchar _ hmem).2.2.1 rfl
  have hslash : '/' ∉ name := fun hmem ↦ (hchar _ hmem).2.2.2 rfl
  rw [meantName, hfilter, htake, if_neg (by simpa [List.isPrefixOf_iff_prefix] using h.kept),
    if_neg (by simp [hdash, hslash])]

/-! ### Pieces of text -/

/-- The tokens of a piece of text that stands before a text with `P`. -/
structure Lexes (text : Text) (P : Text → Prop) (ts : List Token) : Prop where
  lexRest_append : ∀ {whole rest us n}, P rest → (text ++ rest).length ≤ n →
    (∀ {m}, rest.length ≤ m → lexRest whole m rest = .ok us) →
    lexRest whole n (text ++ rest) = .ok (ts ++ us)
  notMem : '?' ∉ text

theorem lexRest_blank {whole gap : Text} (hgap : ∀ c ∈ gap, isBlank c = true) (n : Nat) :
    lexRest whole (n + gap.length) (gap ++ rest) = lexRest whole n rest := by
  induction gap with
  | nil => rfl
  | cons c gap ih =>
    rw [List.length_cons, ← Nat.add_assoc, List.cons_append, lexRest, if_pos (hgap c (by simp)),
      ih fun d hd ↦ hgap d (by simp [hd])]

namespace Lexes

variable {text text' : Text} {P Q : Text → Prop} {ts us : List Token}

theorem nil : Lexes [] P [] :=
  ⟨fun _ hn h ↦ h hn, by simp⟩

theorem mono (h : Lexes text P ts) (hPQ : ∀ {r}, Q r → P r) : Lexes text Q ts :=
  ⟨fun hQ ↦ h.lexRest_append (hPQ hQ), h.notMem⟩

theorem append (h : Lexes text P ts) (h' : Lexes text' Q us) (hPQ : ∀ {r}, Q r → P (text' ++ r)) :
    Lexes (text ++ text') Q (ts ++ us) := by
  refine ⟨fun hQ hn hrest ↦ ?_, by simp [h.notMem, h'.notMem]⟩
  rw [List.append_assoc] at hn ⊢
  rw [List.append_assoc]
  exact h.lexRest_append (hPQ hQ) hn fun hm ↦ h'.lexRest_append hQ hm hrest

theorem space : Lexes [' '] (fun _ ↦ True) [] := by
  refine ⟨fun {whole rest us n} _ hn hrest ↦ ?_, by decide⟩
  obtain ⟨n, rfl⟩ := Nat.exists_eq_add_of_le' (Nat.le_of_add_left_le hn)
  have hspace : ∀ c ∈ [' '], isBlank c = true := by decide
  exact (lexRest_blank hspace n).trans (hrest (by simpa using hn))

theorem separator {c : Char} (hc : c ∈ "[],|".toList) : Lexes [c] (fun _ ↦ True) [.of .separator [c]] := by
  have hall : ∀ e ∈ "[],|".toList, isBlank e = false ∧ isSeparator e = true ∧ e ≠ '?' := by decide
  obtain ⟨hblank, hseparator, hmark⟩ := hall c hc
  refine ⟨fun {whole rest us n} _ hn hrest ↦ ?_, by simpa using hmark.symm⟩
  obtain ⟨n, rfl⟩ := Nat.exists_eq_add_of_le' (Nat.le_of_add_left_le hn)
  rw [List.singleton_append, lexRest, if_neg (by simp [hblank]), if_pos hseparator,
    hrest (by simpa using hn)]
  rfl

theorem ellipsis : Lexes "...".toList (fun _ ↦ True) [.of .dottedName "...".toList] := by
  refine ⟨fun {whole rest us n} _ hn hrest ↦ ?_, by decide⟩
  obtain ⟨n, rfl⟩ := Nat.exists_eq_add_of_le' (show 1 ≤ n by simp at hn; omega)
  show (do return Token.of .dottedName "...".toList :: (← lexRest whole n rest)) = _
  rw [hrest (by simp at hn; omega)]
  rfl

/-- A name is one token. -/
theorem wordy (h : Wordy name) : Lexes name Breaks [.of .dottedName name] := by
  obtain ⟨c, hc, hword⟩ := h.head
  obtain ⟨w, rfl⟩ := List.head?_eq_some_iff.1 hc
  have hother : ∀ e ∈ "()[],*|-.?".toList, isWord e = false := by decide
  have hne : ∀ e ∈ "()[],*|-.?".toList, c ≠ e := by
    rintro e he rfl
    rw [hother c he] at hword
    exact absurd hword (by simp)
  refine ⟨fun {whole rest us n} hbreaks hn hrest ↦ ?_, fun hmem ↦ ?_⟩
  · obtain ⟨n, rfl⟩ := Nat.exists_eq_add_of_le' (show 1 ≤ n by simp at hn; omega)
    obtain ⟨gap, rest', rfl, hgap, hsplit⟩ := splitName_append h hbreaks
    have hseparator : isSeparator c = false := by
      simpa [isSeparator] using ⟨hne '(' (by decide), hne ')' (by decide), hne '[' (by decide),
        hne ']' (by decide), hne ',' (by decide), hne '*' (by decide), hne '|' (by decide)⟩
    have harrow : after? "->".toList (c :: (w ++ (gap ++ rest'))) = none := by
      simp [after?, List.isPrefixOf, (hne '-' (by decide)).symm]
    have hdots : after? "...".toList (c :: (w ++ (gap ++ rest'))) = none := by
      simp [after?, List.isPrefixOf, (hne '.' (by decide)).symm]
    have hmore : lexRest whole n rest' = .ok us := by
      rw [← lexRest_blank hgap]
      exact hrest (by simp at hn ⊢; omega)
    rw [List.cons_append] at hsplit ⊢
    rw [lexRest, if_neg (by simp [not_isBlank_of_isWord hword]), if_neg (by simp [hseparator]), harrow, hdots]
    dsimp only
    rw [hsplit]
    dsimp only [List.cons_append]
    rw [← List.cons_append, meantName_append h hgap, hmore]
    rfl
  · rcases h.all _ hmem with h | h | h
    · exact absurd h (by decide)
    · exact absurd h (by decide)
    · exact absurd h (by decide)

/-- Pieces with a divider between them. -/
theorem intercalate {sep : Text} {sepTokens : List Token} {f : TypeExpr → Text} {g : TypeExpr → List Token}
    (h : ∀ t ∈ args, Lexes (f t) Breaks (g t)) (hsep : Lexes sep (fun _ ↦ True) sepTokens)
    (hbreaks : ∀ r, Breaks (sep ++ r)) :
    Lexes (sep.intercalate (args.map f)) Breaks (sepTokens.intercalate (args.map g)) := by
  induction args with
  | nil => exact nil
  | cons t args ih =>
    cases args with
    | nil => simpa using h t (by simp)
    | cons u args =>
      have hrest := ih fun v hv ↦ h v (by simp [hv])
      have hall := (h t (by simp)).append (hsep.append hrest fun _ ↦ trivial)
        fun {r} _ ↦ by simpa using hbreaks _
      simpa [List.intercalate_cons_cons] using hall

/-- Types in square brackets. -/
theorem bracketed (h : ∀ t ∈ args, Lexes (render modules t) Breaks (toTokens .separator modules t)) :
    Lexes (['['] ++ ", ".toList.intercalate (args.map (render modules)) ++ [']']) (fun _ ↦ True)
      (TypeExpr.bracketed .separator
        ([.of .separator [',']].intercalate (args.map (toTokens .separator modules)))) := by
  have hcomma : Lexes ", ".toList (fun _ ↦ True) [.of .separator [',']] := by
    simpa using (separator (c := ',') (by decide)).append space fun _ ↦ trivial
  have hitems := intercalate h hcomma fun r ↦ breaks_cons (by decide)
  have hall := ((separator (c := '[') (by decide)).append hitems fun _ ↦ trivial).append
    (separator (c := ']') (by decide)) fun _ ↦ breaks_cons (by decide)
  simpa [TypeExpr.bracketed] using hall

end Lexes

/-! ### Trees -/

/-- A name that is made of ASCII characters and is not the class of a single time zone. -/
def Portable (name : Text) : Prop :=
  (∀ c ∈ name, c.toNat < 0x80) ∧ ¬ "pytz.tzfile.".toList <+: name

theorem wordy_of_dotted (hdotted : Dotted name) (h : Portable name) : Wordy name := by
  have hword : ∀ c ∈ name, Lexeme.isNamePart c = true → isWord c = true := by
    intro c hc hpart
    have hascii := h.1 c hc
    simp only [Lexeme.isNamePart, Bool.or_eq_true, decide_eq_true_eq] at hpart
    rw [isWord, isAlphanumeric, if_pos hascii]
    rcases hpart with (hpart | hpart) | hpart
    · simp [hpart]
    · simp [hpart]
    · omega
  refine ⟨?_, fun c hc ↦ ?_, h.2⟩
  · obtain ⟨c, hc, hpart⟩ := hdotted.head?
    exact ⟨c, hc, hword c (List.mem_of_mem_head? hc) hpart⟩
  · rcases hdotted.isNamePart_or c hc with hpart | rfl
    · exact .inl (hword c hc hpart)
    · exact .inr (.inl rfl)

/-- **The text of a type is lexed into its tokens**, wherever it stands, if its names are. -/
theorem Formed.lexes {P : Text → Prop}
    (hP : ∀ {name}, P name → Nominal name ∧ Lexes name Breaks [.of .dottedName name]) (h : t.Formed P modules) :
    Lexes (render modules t) Breaks (toTokens .separator modules t) := by
  induction h with
  | @leaf name hname _ =>
    obtain ⟨hnominal, hlexes⟩ := hP hname
    rw [render_leaf hnominal.1, toTokens_leaf hnominal.1]
    exact hlexes
  | @list name args hname _ ih =>
    rw [render_list hname, toTokens_list hname]
    exact (Lexes.bracketed ih).mono fun _ ↦ trivial
  | @union name args hname hne _ ih =>
    have hbar : Lexes " | ".toList (fun _ ↦ True) [.of .separator ['|']] := by
      have hbar := (Lexes.separator (c := '|') (by decide)).append Lexes.space fun _ ↦ trivial
      simpa using Lexes.space.append hbar fun _ ↦ trivial
    rw [render_union hname hne, toTokens_union hname hne]
    exact .intercalate ih hbar fun r ↦ (breaks_cons (by decide)).space
  | @applied name args hname hruled hne _ ih =>
    obtain ⟨hnominal, hlexes⟩ := hP hname
    have hunion := ne_of_notMem_ruledNames hruled
    rw [render_applied hnominal hunion hne, toTokens_applied hnominal.1 hunion hne]
    have hall := hlexes.append (Lexes.bracketed ih) fun _ ↦ breaks_cons (by decide)
    exact hall.mono fun _ ↦ trivial

/-- **The text of a type is lexed into its tokens**, if its names are. -/
theorem Formed.lex_render {P : Text → Prop}
    (hP : ∀ {name}, P name → Nominal name ∧ Lexes name Breaks [.of .dottedName name]) (h : t.Formed P modules) :
    lex (render modules t) = .ok (toTokens .separator modules t ++ [Token.last]) := by
  have hlexes := h.lexes hP
  have hfilter : (render modules t).filter (· ≠ '?') = render modules t := by
    refine List.filter_eq_self.2 fun c hc ↦ ?_
    have hne : c ≠ '?' := by
      rintro rfl
      exact hlexes.notMem hc
    simpa using hne
  have hend : ∀ {m}, ([] : Text).length ≤ m → lexRest (render modules t) m [] = .ok [Token.last] := by
    intro m _
    cases m <;> rfl
  have hlength : (render modules t ++ []).length ≤ (render modules t).length := by simp
  have hall := hlexes.lexRest_append (by simp [Breaks]) hlength hend
  rw [List.append_nil] at hall
  rw [lex, hfilter]
  exact hall

/-- **The text of a regular type is lexed into its tokens.** -/
theorem lex_render (h : t.Regular modules) (hnames : t.AllNames fun name ↦ Portable (displayName modules name)) :
    lex (render modules t) = .ok (toTokens .separator modules t ++ [Token.last]) := by
  refine Formed.lex_render (P := fun name ↦ Nominal name ∧ Lexes name Breaks [.of .dottedName name]) id ?_
  induction h with
  | leaf hdotted hruled =>
    obtain ⟨hname, -⟩ := hnames
    exact .leaf ⟨hdotted.nominal, .wordy (wordy_of_dotted hdotted hname)⟩ hruled
  | ellipsis hname _ =>
    refine .leaf ?_ (.inr ?_)
    · rw [hname]
      exact ⟨nominal_ellipsis, Lexes.ellipsis.mono fun _ ↦ trivial⟩
    · rw [hname]
      decide
  | list hname _ ih =>
    obtain ⟨-, hargs⟩ := hnames
    exact .list hname fun t ht ↦ ih t ht (hargs t ht)
  | union hname hne _ ih =>
    obtain ⟨-, hargs⟩ := hnames
    exact .union hname hne fun t ht ↦ ih t ht (hargs t ht)
  | applied hdotted hruled hne _ ih =>
    obtain ⟨hname, hargs⟩ := hnames
    exact .applied ⟨hdotted.nominal, .wordy (wordy_of_dotted hdotted hname)⟩ hruled hne
      fun t ht ↦ ih t ht (hargs t ht)

end TypeExpr

end HeaderHints
