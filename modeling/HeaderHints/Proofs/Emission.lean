import HeaderHints.Header.Fill
import HeaderHints.Proofs.Lossless

/-!
# Writing tokens back

What a token adds to a text does not depend on the text, except that layout may take the place of a
space at its end, and that an arrow brings a space of its own where there is none. So the text of some
tokens is the text of the first of them followed by that of the others, as long as the first text does
not end in a space (`foldl_write_append`), and writing tokens adds what they spell out, up to spaces
(`filter_foldl_write`).
-/

namespace HeaderHints.Header

open Lexeme Text

variable {out before : Text} {t : Token} {ts : List Token}

/-- Whether a token takes the place of a space at the end of the text before it. -/
def replacesSpace (out : Text) (t : Token) : Bool :=
  t.isLayout && t.text.head?.any (fun c ↦ c = ' ' || c = '\t') && out.getLast? = some ' '

/-- What is left of the text before a token. -/
def keptBefore (out : Text) (t : Token) : Text :=
  if replacesSpace out t then out.dropLast else out

/-- What a token adds to a text. -/
def spelling (t : Token) : Text :=
  match t.kind with
  | .separator => if t.text = ['|'] then " | ".toList else t.text ++ [' ']
  | .keyword | .definition => t.text ++ [' ']
  | .typeDef | .colon => ": ".toList
  | .defaultDef => " = ".toList
  | .lambdaBody => if t.text.head? = some ':' then t.text else ' ' :: t.text
  | _ => t.text

/-- **A token is written** behind what is left of the text before it. -/
theorem write_eq (hk : t.kind ≠ .returnTypeDef) : write out t = keptBefore out t ++ spelling t := by
  have hkept : (if (t.isLayout && t.text.head?.any (fun c ↦ c = ' ' || c = '\t') &&
      out.getLast? = some ' ') = true then out.dropLast else out) = keptBefore out t := rfl
  simp only [write, hkept, spelling]
  cases hkind : t.kind with
  | returnTypeDef => exact absurd hkind hk
  | separator => dsimp only; split <;> simp
  | lambdaBody => dsimp only; split <;> simp
  | _ => simp

theorem replacesSpace_eq_false (h : t.isLayout = false) : replacesSpace out t = false := by
  simp [replacesSpace, h]

theorem keptBefore_append (h : out ≠ [] ∨ before.getLast? ≠ some ' ' ∨ t.isLayout = false) :
    keptBefore (before ++ out) t = before ++ keptBefore out t := by
  by_cases hlayout : t.isLayout = false
  · simp [keptBefore, replacesSpace_eq_false hlayout]
  · rcases eq_or_ne out [] with rfl | hne
    · have hlast : before.getLast? ≠ some ' ' := by
        rcases h with h | h | h
        · exact absurd rfl h
        · exact h
        · exact absurd h hlayout
      simp [keptBefore, replacesSpace, hlast]
    · have hlast : (before ++ out).getLast? = out.getLast? := by
        rw [List.getLast?_append, List.getLast?_eq_some_getLast hne, Option.some_or]
      have hsame : replacesSpace (before ++ out) t = replacesSpace out t := by
        simp only [replacesSpace, hlast]
      simp only [keptBefore, hsame]
      split
      · exact List.dropLast_append_of_ne_nil hne
      · rfl

/-- The text before a token stays as it is, if the token does not reach into it. -/
theorem write_append (hk : t.kind ≠ .returnTypeDef)
    (h : out ≠ [] ∨ before.getLast? ≠ some ' ' ∨ t.isLayout = false) :
    write (before ++ out) t = before ++ write out t := by
  rw [write_eq hk, write_eq hk, keptBefore_append h, List.append_assoc]

/-- **Tokens behind a text** that does not end in a space are written as they are from the start. -/
theorem foldl_write_append (hk : ∀ t ∈ ts, t.kind ≠ .returnTypeDef)
    (h : before.getLast? ≠ some ' ') : ts.foldl write (before ++ out) = before ++ ts.foldl write out := by
  induction ts generalizing out with
  | nil => rfl
  | cons t ts ih =>
    rw [List.foldl_cons, List.foldl_cons, write_append (hk t (by simp)) (.inr (.inl h))]
    exact ih fun u hu ↦ hk u (by simp [hu])

/-! ### What is written -/

section Written

variable {keep : Char → Bool}

theorem filter_keptBefore (hspace : keep ' ' = false) : (keptBefore out t).filter keep = out.filter keep := by
  unfold keptBefore
  split
  · rename_i hrep
    simp only [replacesSpace, Bool.and_eq_true, decide_eq_true_eq] at hrep
    obtain ⟨front, rfl⟩ := List.getLast?_eq_some_iff.1 hrep.2
    simp [hspace]
  · rfl

/-- What a token adds is what it spells out, up to spaces. -/
theorem filter_spelling (hspace : keep ' ' = false) (ht : Proper t ∨ t.kind = .endDefinition)
    (hk : t.kind ≠ .returnTypeDef) : (spelling t).filter keep = t.text.filter keep := by
  unfold spelling
  unfold Proper at ht
  cases hkind : t.kind with
  | separator =>
    dsimp only
    split
    · rename_i hbar
      rw [hbar]
      simp [List.filter_cons, hspace]
    · simp [hspace]
  | keyword | definition => simp [hspace]
  | typeDef | colon =>
    obtain ht : t.text = [':'] := by simpa [hkind] using ht
    rw [ht]
    simp [List.filter_cons, hspace]
  | defaultDef =>
    obtain ht : t.text = ['='] := by simpa [hkind] using ht
    rw [ht]
    simp [List.filter_cons, hspace]
  | lambdaBody =>
    dsimp only
    split <;> simp [hspace]
  | returnTypeDef => exact absurd hkind hk
  | _ => rfl

theorem filter_writeArrow (hspace : keep ' ' = false) (out : Text) :
    (writeArrow out).filter keep = out.filter keep ++ "->".toList.filter keep := by
  rw [writeArrow, List.filter_append]
  congr 1
  split <;> simp [List.filter_cons, hspace]

/-- **A token adds what it spells out**, up to spaces. -/
theorem filter_write (hspace : keep ' ' = false) (ht : Proper t ∨ t.kind = .endDefinition) :
    (write out t).filter keep = out.filter keep ++ t.text.filter keep := by
  by_cases hk : t.kind = .returnTypeDef
  · have htext : t.text = ['-', '>'] := by simpa [Proper, hk] using ht
    have hwrite : write out t = writeArrow out := by
      have : t.isLayout = false := by simp [Token.isLayout, hk]
      simp [write, this, hk]
    rw [hwrite, htext]
    exact filter_writeArrow hspace out
  · rw [write_eq hk, List.filter_append, filter_keptBefore hspace, filter_spelling hspace ht hk]

/-- **Writing tokens adds what they spell out**, up to spaces. -/
theorem filter_foldl_write (hspace : keep ' ' = false)
    (h : ∀ t ∈ ts, Proper t ∨ t.kind = .endDefinition) :
    (ts.foldl write out).filter keep = out.filter keep ++ (ts.flatMap Token.text).filter keep := by
  induction ts generalizing out with
  | nil => simp
  | cons t ts ih =>
    rw [List.foldl_cons, ih fun u hu ↦ h u (by simp [hu]), filter_write hspace (h t (by simp)),
      List.flatMap_cons, List.filter_append, List.append_assoc]

end Written

/-- Writing tokens adds what they spell out, up to blanks and backslashes. -/
theorem bare_foldl_write (h : ∀ t ∈ ts, Proper t ∨ t.kind = .endDefinition) :
    bare (ts.foldl write out) = bare out ++ bare (ts.flatMap Token.text) :=
  filter_foldl_write (rfl : isBare ' ' = false) h

theorem proper_of_formed (h : Formed ts) : ∀ t ∈ ts, Proper t := by
  induction ts with
  | nil => simp
  | cons u ts ih =>
    rw [Formed] at h
    intro t ht
    rcases List.mem_cons.1 ht with rfl | ht
    · exact h.1.1
    · exact ih h.2 t ht

/-- The tokens of a complete header look as their kinds say. -/
theorem proper_of_finished (h : Finished ts) : ∀ t ∈ ts, Proper t ∨ t.kind = .endDefinition := by
  obtain ⟨tail, before, rfl, htail, hbefore, -, -⟩ := h
  intro t ht
  rcases List.mem_append.1 ht with ht | ht
  · rcases htail with rfl | ⟨rest, rfl⟩
    · exact absurd ht (by simp)
    · obtain rfl : t = .of .endSeparator rest := by simpa using ht
      exact .inl trivial
  · rcases List.mem_cons.1 ht with rfl | ht
    · exact .inr rfl
    · exact .inl (proper_of_formed hbefore t ht)

end HeaderHints.Header
