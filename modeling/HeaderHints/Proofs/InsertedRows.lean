import HeaderHints.Proofs.MergedEdits

/-!
# Edits that insert rows

Where headers are not to be replaced, the edits of a batch put rows into a document and take none away. If the
last row of the document is closed, the rows of the result are those of the document in their order, each with
the rows of the edit that starts at it directly above it (`Suggestion.applyAll_edits_inserts`).

Edits that start behind the last row are put there one after another. Such an edit may land between the rows of
an earlier one, so that nothing is said about the order of the rows behind the last one: they are those of these
edits, each as often as it occurs there (`Edit.foldl_apply_behind`).
-/

namespace HeaderHints

namespace Text

variable {t u : Text}

theorem closed_flatten {d : List Text} (h : ∀ row ∈ d, IsRow row) : Closed d.flatten := by
  rcases List.eq_nil_or_concat d with rfl | ⟨front, row, rfl⟩
  · exact .inl rfl
  · obtain ⟨body, rfl, -⟩ := h row (by simp)
    exact .inr (by simp)

theorem closed_of_isRow (h : ∀ row ∈ rows t, IsRow row) : Closed t := by
  rw [← flatten_rows t]
  exact closed_flatten h

theorem Closed.append (h : Closed t) (h' : Closed u) : Closed (t ++ u) := by
  rcases h' with rfl | h'
  · rwa [List.append_nil]
  · exact .inr (by simp [List.getLast?_append, h'])

theorem rows_of_isRow {row : Text} (h : IsRow row) : rows row = [row] := by
  obtain ⟨body, rfl, hbody⟩ := h
  exact rows_row hbody []

/-- Closed texts are cut into rows one by one. -/
theorem rows_flatten_of_closed {ts : List Text} (h : ∀ t ∈ ts, Closed t) (u : Text) :
    rows (ts.flatten ++ u) = ts.flatMap rows ++ rows u := by
  induction ts with
  | nil => rfl
  | cons t ts ih =>
    rw [List.forall_mem_cons] at h
    rw [List.flatten_cons, List.append_assoc, h.1.rows_append, ih h.2, List.flatMap_cons, List.append_assoc]

end Text

namespace Edit

open Text

variable {e : Edit} {es : List Edit} {t : Text}

/-- An edit that puts closed rows into a document. -/
structure Inserts (e : Edit) : Prop where
  replace_eq : e.replace = false
  closed : Closed e.text

theorem Inserts.fits (h : e.Inserts) : e.Fits := fun hreplace ↦ by
  rw [h.replace_eq] at hreplace
  exact absurd hreplace (by simp)

theorem Inserts.stop_eq (h : e.Inserts) : e.stop = e.startLine := by
  rw [stop, h.replace_eq]
  rfl

/-! ### Behind the last row -/

/-- An edit that starts behind the last row of a document puts its rows somewhere behind it. -/
theorem apply_behind {v : Text} (ht : Closed t) (hv : Closed v) (he : e.Inserts)
    (hstart : (rows t).length ≤ e.startLine) :
    ∃ v', Closed v' ∧ e.apply (.ofText (t ++ v)) = t ++ v' ∧ (rows v').Perm (rows e.text ++ rows v) := by
  obtain ⟨k, hk⟩ : ∃ k, e.startLine - (rows t).length = k := ⟨_, rfl⟩
  have hrow : ∀ row ∈ rows v, IsRow row := hv.isRow
  have htake : ∀ row ∈ (rows v).take k, IsRow row := fun row h ↦ hrow row (List.mem_of_mem_take h)
  have hdrop : ∀ row ∈ (rows v).drop k, IsRow row := fun row h ↦ hrow row (List.mem_of_mem_drop h)
  refine ⟨((rows v).take k).flatten ++ e.text ++ ((rows v).drop k).flatten, ?_, ?_, ?_⟩
  · exact ((closed_flatten htake).append he.closed).append (closed_flatten hdrop)
  · rw [apply_eq he.fits, he.stop_eq, Document.ofText, ht.rows_append, List.take_append, List.drop_append,
      List.take_of_length_le hstart, List.drop_of_length_le hstart, List.flatten_append, flatten_rows, hk]
    simp only [List.nil_append, List.append_assoc]
  · have hlast : rows ((rows v).drop k).flatten = (rows v).drop k := by
      simpa [rows] using rows_flatten_append hdrop []
    rw [List.append_assoc, rows_flatten_append htake, he.closed.rows_append, hlast]
    refine (List.perm_append_comm_assoc _ _ _).trans ?_
    rw [List.take_append_drop]

theorem foldl_apply_behind {v : Text} (ht : Closed t) (hv : Closed v) (hes : ∀ e ∈ es, e.Inserts)
    (hstart : ∀ e ∈ es, (rows t).length ≤ e.startLine) :
    ∃ v', Closed v' ∧ es.foldl (fun text e ↦ e.apply (.ofText text)) (t ++ v) = t ++ v' ∧
      (rows v').Perm (es.flatMap (fun e ↦ rows e.text) ++ rows v) := by
  induction es generalizing v with
  | nil => exact ⟨v, hv, rfl, .rfl⟩
  | cons e es ih =>
    rw [List.forall_mem_cons] at hes hstart
    obtain ⟨v₁, hv₁, happly, hperm₁⟩ := apply_behind ht hv hes.1 hstart.1
    obtain ⟨v', hv', hfold, hperm⟩ := ih hv₁ hes.2 hstart.2
    refine ⟨v', hv', by rw [List.foldl_cons, happly, hfold], hperm.trans ?_⟩
    rw [List.flatMap_cons, List.append_assoc]
    exact (hperm₁.append_left _).trans (List.perm_append_comm_assoc _ _ _)

/-- Edits from the last row to the first start behind a row first, and then before it. -/
theorem exists_split_of_descending (hes : Descending es) (n : Nat) :
    ∃ behind before, es = behind ++ before ∧ (∀ e ∈ behind, n ≤ e.startLine) ∧
      ∀ e ∈ before, e.startLine < n := by
  induction es with
  | nil => exact ⟨[], [], rfl, by simp, by simp⟩
  | cons e es ih =>
    obtain ⟨hlast, hes⟩ := List.pairwise_cons.1 hes
    rcases Nat.lt_or_ge e.startLine n with hlt | hge
    · refine ⟨[], e :: es, rfl, by simp, List.forall_mem_cons.2 ⟨hlt, fun e' he' ↦ ?_⟩⟩
      exact (hlast e' he').1.trans hlt
    · obtain ⟨behind, before, rfl, hbehind, hbefore⟩ := ih hes
      exact ⟨e :: behind, before, rfl, List.forall_mem_cons.2 ⟨hge, hbehind⟩, hbefore⟩

/-! ### Above the rows -/

/-- The rows of the edits that start at row `i`. -/
def rowsAbove (es : List Edit) (i : Nat) : List Text :=
  (es.filter (·.startLine = i)).flatMap fun e ↦ rows e.text

/-- The rows of a document, each with the rows of the edits that start at it above it. -/
def interleaved (es : List Edit) (d : Document) : List Text :=
  (d.mapIdx fun i row ↦ rowsAbove es i ++ [row]).flatten

/-- Edits that start behind the last row stand above no row. -/
theorem interleaved_append {behind : List Edit} {d : Document} (h : ∀ e ∈ behind, d.length ≤ e.startLine) :
    interleaved (behind ++ es) d = interleaved es d := by
  have hnone : ∀ i < d.length, behind.filter (·.startLine = i) = [] := fun i hi ↦
    List.filter_eq_nil_iff.2 fun e he ↦ by
      have := h e he
      simp only [decide_eq_true_eq]
      omega
  rw [interleaved, interleaved]
  congr 1
  refine List.mapIdx_eq_mapIdx_iff.2 fun i hi ↦ ?_
  rw [rowsAbove, rowsAbove, List.filter_append, hnone i hi, List.nil_append]

theorem interleaved_perm {es' : List Edit} (hperm : es.Perm es')
    (hne : es.Pairwise fun e e' ↦ e.startLine ≠ e'.startLine) (d : Document) :
    interleaved es d = interleaved es' d := by
  have habove : rowsAbove es = rowsAbove es' := by
    funext i
    rw [rowsAbove, rowsAbove, filter_startLine_perm hperm hne]
  rw [interleaved, interleaved, habove]

theorem rowAfter_of_inserts (hes : ∀ e ∈ es, e.Inserts) (i : Nat) (row : Text) :
    rowAfter es i row = ((es.filter (·.startLine = i)).map (·.text)).flatten ++ row := by
  have hany : (es.any fun e ↦ e.startLine ≤ i ∧ i < e.stop) = false := by
    refine List.any_eq_false.2 fun e he ↦ ?_
    rw [(hes e he).stop_eq, decide_eq_true_eq]
    omega
  rw [rowAfter, hany, List.flatMap_def]
  rfl

theorem rows_rowAfter (hes : ∀ e ∈ es, e.Inserts) (i : Nat) {row : Text} (hrow : IsRow row) :
    rows (rowAfter es i row) = rowsAbove es i ++ [row] := by
  have hclosed : ∀ u ∈ (es.filter (·.startLine = i)).map (·.text), Closed u := fun u hu ↦ by
    obtain ⟨e, he, rfl⟩ := List.mem_map.1 hu
    exact (hes e (List.mem_of_mem_filter he)).closed
  rw [rowAfter_of_inserts hes, rows_flatten_of_closed hclosed, rows_of_isRow hrow, rowsAbove, List.flatMap_map]

theorem closed_rowAfter (hes : ∀ e ∈ es, e.Inserts) (i : Nat) {row : Text} (hrow : IsRow row) :
    Closed (rowAfter es i row) := by
  refine closed_of_isRow fun row' hmem ↦ ?_
  rw [rows_rowAfter hes i hrow, List.mem_append, List.mem_singleton] at hmem
  rcases hmem with habove | rfl
  · obtain ⟨e, he, hmem⟩ := List.mem_flatMap.1 habove
    exact (hes e (List.mem_of_mem_filter he)).closed.isRow row' hmem
  · exact hrow

/-- Inserting rows at once interleaves them with those of the document. -/
theorem rows_substituted (ht : Closed t) (hes : ∀ e ∈ es, e.Inserts) (u : Text) :
    rows (substituted es (rows t) ++ u) = interleaved es (rows t) ++ rows u := by
  have hclosed : ∀ u ∈ (rows t).mapIdx (rowAfter es), Closed u := fun u hu ↦ by
    obtain ⟨i, hi, rfl⟩ := List.mem_mapIdx.1 hu
    exact closed_rowAfter hes i (ht.isRow _ (List.getElem_mem hi))
  have hmap : ((rows t).mapIdx (rowAfter es)).map rows =
      (rows t).mapIdx fun i row ↦ rowsAbove es i ++ [row] := by
    refine List.ext_getElem (by simp) fun i hi hi' ↦ ?_
    rw [List.getElem_map, List.getElem_mapIdx, List.getElem_mapIdx]
    exact rows_rowAfter hes i (ht.isRow _ (List.getElem_mem _))
  rw [substituted, rows_flatten_of_closed hclosed, interleaved, List.flatMap_def, hmap]

/-- **Edits that insert rows** put those that start at a row directly above it, and the others behind the last
row. -/
theorem rows_applyAll_of_inserts (ht : Closed t) (hes : ∀ e ∈ es, e.Inserts)
    (hne : es.Pairwise fun e e' ↦ e.startLine ≠ e'.startLine) :
    ∃ tail : List Text, tail.Perm
        ((es.filter ((Document.ofText t).length ≤ ·.startLine)).flatMap fun e ↦ rows e.text) ∧
      rows (applyAll es (.ofText t)) = interleaved es (.ofText t) ++ tail := by
  set n := (rows t).length
  have hapart : es.Pairwise Apart := by
    refine hne.imp_of_mem fun {e e'} he he' h ↦ ?_
    rw [Apart, (hes e he).stop_eq, (hes e' he').stop_eq]
    omega
  have hperm := lastFirst_perm es
  have hdescending := descending_lastFirst hapart
  obtain ⟨behind, before, hsplit, hbehind, hbefore⟩ := exists_split_of_descending hdescending n
  have hall : ∀ e ∈ behind ++ before, e.Inserts := fun e he ↦ hes e (hperm.mem_iff.1 (hsplit ▸ he))
  rw [List.forall_mem_append] at hall
  -- first the edits behind the last row, which change what is behind it
  obtain ⟨v, hv, hrun, htail⟩ := foldl_apply_behind ht (.inl rfl) hall.1 hbehind
  -- then the edits above the rows, which do not reach into it
  have hrows : rows (t ++ v) = (rows t).take n ++ rows v := by rw [List.take_length, ht.rows_append]
  have hrun' := foldl_apply (List.pairwise_append.1 (hsplit ▸ hdescending)).2.1 le_rfl hrows fun e he ↦
    ⟨(hall.2 e he).fits, hbefore e he, .inl ((hall.2 e he).stop_eq ▸ (hbefore e he).le)⟩
  rw [List.take_length] at hrun'
  have happly : applyAll es (.ofText t) = substituted before (rows t) ++ v := by
    rw [← hrun', ← hrun, ← List.foldl_append, ← hsplit, List.append_nil]
    rw [applyAll, Document.text, Document.ofText, flatten_rows]
    rfl
  have hinterleaved : interleaved before (rows t) = interleaved es (rows t) := by
    rw [interleaved_perm hperm.symm hne, hsplit, interleaved_append hbehind]
  refine ⟨rows v, ?_, ?_⟩
  · have hfilter : (lastFirst es).filter (n ≤ ·.startLine) = behind := by
      rw [hsplit, List.filter_append, List.filter_eq_self.2 fun e he ↦ by simpa using hbehind e he,
        List.filter_eq_nil_iff.2 fun e he ↦ by simpa using hbefore e he, List.append_nil]
    have hperm' := (hperm.filter (n ≤ ·.startLine)).flatMap_right fun e ↦ rows e.text
    rw [hfilter] at hperm'
    simp only [rows, List.append_nil] at htail
    exact htail.trans hperm'
  · rw [happly, rows_substituted ht hall.2, hinterleaved]
    rfl

theorem rowsAbove_startLine (hne : es.Pairwise fun e e' ↦ e.startLine ≠ e'.startLine) (he : e ∈ es) :
    rowsAbove es e.startLine = rows e.text := by
  have hlength := length_filter_startLine_le hne e.startLine
  have hmem : e ∈ es.filter (·.startLine = e.startLine) := by simpa using he
  rw [rowsAbove]
  generalize es.filter (·.startLine = e.startLine) = starting at hlength hmem
  match starting with
  | [] => exact absurd hmem (by simp)
  | [e'] => rw [← List.mem_singleton.1 hmem, List.flatMap_singleton]
  | _ :: _ :: _ => exact absurd hlength (by simp)

end Edit

namespace Suggestion

open Text Edit

theorem inserts_of_mem_edits {ss : List Suggestion} {d : Document} {style : Style} {e : Edit}
    (hstyle : style.replace = false) (h : e ∈ edits ss d style) : e.Inserts := by
  obtain ⟨-, -, -, -, hreplace, htext⟩ := merge?_ok (mem_edits.1 h)
  refine ⟨by rw [hreplace, replaces, hstyle]; rfl, .inr ?_⟩
  rw [htext]
  simp

/-- **Nothing is lost where nothing is to be replaced.** If the last row of a document is closed and headers are
not replaced, the edits of any suggestions keep all rows of the document in their order. Above each row stand
the rows of the edit that starts at it and no others, and behind the last row those of the edits that start
there. -/
theorem applyAll_edits_inserts {t : Text} (ht : t = [] ∨ t.getLast? = some '\n') (ss : List Suggestion)
    {style : Style} (hstyle : style.replace = false) :
    ∃ es tail, es = edits ss (.ofText t) style ∧
      rows (applyAll es (.ofText t)) =
        ((Document.ofText t).mapIdx fun i row ↦ rowsAbove es i ++ [row]).flatten ++ tail ∧
      (∀ e ∈ es, e.startLine < (Document.ofText t).length → rowsAbove es e.startLine = rows e.text) ∧
      tail.Perm ((es.filter ((Document.ofText t).length ≤ ·.startLine)).flatMap fun e ↦ rows e.text) := by
  have hne := edits_startLine_ne ss (.ofText t) style
  obtain ⟨tail, htail, hrows⟩ :=
    rows_applyAll_of_inserts ht (fun e he ↦ inserts_of_mem_edits hstyle he) hne
  exact ⟨_, tail, rfl, hrows, fun e he _ ↦ rowsAbove_startLine hne he, htail⟩

/-- A suggestion for the first row, and two behind the last one whose complaints have two rows each. -/
theorem applyAll_edits_inserts_behind :
    ∃ es tail, es = edits [⟨none, 5, none, 0, [], "int".toList⟩, ⟨none, 0, none, 1, ["int".toList], "int".toList⟩,
        ⟨none, 3, none, 0, [], "int".toList⟩] (.ofText "def f(a):\n  pass\n".toList) ⟨"#\n# ".toList, false⟩ ∧
      rows (applyAll es (.ofText "def f(a):\n  pass\n".toList)) =
        rowsAbove es 0 ++ ["def f(a):\n".toList] ++ (rowsAbove es 1 ++ ["  pass\n".toList]) ++ tail ∧
      tail.Perm ((es.filter (2 ≤ ·.startLine)).flatMap fun e ↦ rows e.text) := by
  obtain ⟨es, tail, hes, hrows, -, htail⟩ := applyAll_edits_inserts (t := "def f(a):\n  pass\n".toList)
    (.inr (by decide)) [⟨none, 5, none, 0, [], "int".toList⟩, ⟨none, 0, none, 1, ["int".toList], "int".toList⟩,
      ⟨none, 3, none, 0, [], "int".toList⟩] (rfl : (Style.mk "#\n# ".toList false).replace = false)
  have hd : Document.ofText "def f(a):\n  pass\n".toList = ["def f(a):\n".toList, "  pass\n".toList] := by rfl
  refine ⟨es, tail, hes, ?_, htail⟩
  rw [hrows, hd]
  simp only [List.mapIdx_cons, List.mapIdx_nil, List.flatten_cons, List.flatten_nil, List.append_nil]

end Suggestion

end HeaderHints
