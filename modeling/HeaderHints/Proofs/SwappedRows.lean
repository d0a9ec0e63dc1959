import HeaderHints.Proofs.EditedRows

/-!
# Edits that swap rows

An edit that puts one closed row in the place of another one sets this row of the document, and leaves the rest as
it is (`Edit.rows_apply`). The rows of the document keep their numbers, so that a run of such edits sets one row
after another (`Edit.rows_applyAll`), and the row at which an edit starts becomes its text.
-/

namespace HeaderHints

namespace Text

variable {t row : Text}

/-- The rows behind a closed row come out again when they are put together. -/
theorem rows_flatten_behind {pre post : List Text} (hrows : rows t = pre ++ row :: post) (hrow : IsRow row) :
    rows post.flatten = post := by
  have hpre : ∀ r ∈ pre, IsRow r := by
    intro r hr
    obtain ⟨u, v, rfl⟩ := List.append_of_mem hr
    have hrows' : rows t = u ++ r :: (v ++ row :: post) := by simpa using hrows
    exact isRow_of_rows hrows' (.inl (by simp))
  have hclosed : ∀ r ∈ pre ++ [row], IsRow r := by
    rw [List.forall_mem_append]
    exact ⟨hpre, List.forall_mem_singleton.2 hrow⟩
  have hagain := rows_flatten_append hclosed post.flatten
  have hflat : (pre ++ [row]).flatten ++ post.flatten = t := by
    rw [← flatten_rows t, hrows]
    simp
  rw [hflat, hrows, List.append_assoc] at hagain
  exact (List.cons_eq_cons.1 (List.append_cancel_left hagain)).2.symm

end Text

namespace Edit

open Text

variable {e : Edit} {es : List Edit} {d : Document} {t : Text} {i : Nat}

/-- An edit that puts a closed row in the place of a closed row of a document. -/
structure Swaps (d : Document) (e : Edit) : Prop where
  replace_eq : e.replace = true
  lineCount_eq : e.lineCount = 1
  isRow : IsRow e.text
  target : ∃ row, d[e.startLine]? = some row ∧ IsRow row

theorem Swaps.startLine_lt (h : e.Swaps d) : e.startLine < d.length := by
  obtain ⟨row, hrow, -⟩ := h.target
  exact (List.getElem?_eq_some_iff.1 hrow).1

/-- **An edit that swaps a row** sets it. -/
theorem rows_apply (hword : (rows t).length < Decimal.wordSize) (h : e.Swaps (rows t)) :
    rows (e.apply (.ofText t)) = (rows t).set e.startLine e.text := by
  obtain ⟨row, hget, hrow⟩ := h.target
  have hlt := h.startLine_lt
  have hfits : e.Fits := fun _ ↦ by
    rw [h.lineCount_eq]
    omega
  have hrows : rows t = (rows t).take e.startLine ++ row :: (rows t).drop (e.startLine + 1) := by
    rw [← (List.getElem?_eq_some_iff.1 hget).2, ← List.drop_eq_getElem_cons hlt, List.take_append_drop]
  obtain ⟨body, htext, hbody⟩ := h.isRow
  rw [apply_eq hfits, stop, if_pos h.replace_eq, h.lineCount_eq, Document.ofText, List.append_assoc,
    rows_flatten_append (isRow_of_mem_take hlt), htext, List.append_assoc, List.singleton_append, rows_row hbody,
    rows_flatten_behind hrows hrow, List.set_eq_take_append_cons_drop, if_pos hlt]

theorem Swaps.set {text : Text} (h : e.Swaps d) (htext : IsRow text) (i : Nat) : e.Swaps (d.set i text) where
  replace_eq := h.replace_eq
  lineCount_eq := h.lineCount_eq
  isRow := h.isRow
  target := by
    obtain ⟨row, hget, hrow⟩ := h.target
    by_cases hi : i = e.startLine
    · exact ⟨text, by rw [hi, List.getElem?_set_self h.startLine_lt], htext⟩
    · exact ⟨row, by rw [List.getElem?_set_ne hi, hget], hrow⟩

/-- A document in which edits have set the rows at which they start. -/
def setRows (es : List Edit) (d : Document) : Document :=
  es.foldl (fun d e ↦ d.set e.startLine e.text) d

/-- **A run of edits that swap rows** sets these rows. -/
theorem rows_foldl_apply (hword : (rows t).length < Decimal.wordSize) (h : ∀ e ∈ es, e.Swaps (rows t)) :
    rows (es.foldl (fun text e ↦ e.apply (.ofText text)) t) = setRows es (rows t) := by
  induction es generalizing t with
  | nil => rfl
  | cons e es ih =>
    rw [List.forall_mem_cons] at h
    have hstep := rows_apply hword h.1
    rw [List.foldl_cons, ih (by rwa [hstep, List.length_set]) fun e' he' ↦ by
      rw [hstep]
      exact (h.2 e' he').set h.1.isRow _, hstep]
    rfl

theorem rows_applyAll (hword : (rows t).length < Decimal.wordSize) (h : ∀ e ∈ es, e.Swaps (rows t)) :
    rows (applyAll es (.ofText t)) = setRows (lastFirst es) (rows t) := by
  have hrun := rows_foldl_apply hword fun e he ↦ h e ((lastFirst_perm es).mem_iff.1 he)
  rw [applyAll, Document.text, Document.ofText, flatten_rows]
  exact hrun

@[simp] theorem length_setRows (es : List Edit) (d : Document) : (setRows es d).length = d.length := by
  induction es generalizing d with
  | nil => rfl
  | cons e es ih => exact (ih _).trans (List.length_set ..)

/-- A row at which no edit starts stays as it is. -/
theorem getElem?_setRows_of_ne (h : ∀ e ∈ es, e.startLine ≠ i) : (setRows es d)[i]? = d[i]? := by
  induction es generalizing d with
  | nil => rfl
  | cons e es ih =>
    rw [List.forall_mem_cons] at h
    exact (ih h.2).trans (List.getElem?_set_ne h.1)

/-- A row at which edits with one text start becomes this text. -/
theorem getElem?_setRows {text : Text} (hstart : ∃ e ∈ es, e.startLine = i)
    (htext : ∀ e ∈ es, e.startLine = i → e.text = text) (hi : i < d.length) : (setRows es d)[i]? = some text := by
  induction es generalizing d with
  | nil => exact absurd hstart (by simp)
  | cons e es ih =>
    rw [List.forall_mem_cons] at htext
    have hlt : i < (d.set e.startLine e.text).length := by rwa [List.length_set]
    by_cases hlater : ∃ e' ∈ es, e'.startLine = i
    · exact ih hlater htext.2 hlt
    · have hfirst : e.startLine = i := by simpa [hlater] using hstart
      have hset : (d.set e.startLine e.text)[i]? = some text := by
        rw [hfirst, List.getElem?_set_self hi, htext.1 hfirst]
      exact (getElem?_setRows_of_ne fun e' he' heq ↦ hlater ⟨e', he', heq⟩).trans hset

end Edit

end HeaderHints
