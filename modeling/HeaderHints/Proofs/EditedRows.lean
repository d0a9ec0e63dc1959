import Mathlib.Data.List.Basic
import HeaderHints.Proofs.Lossless
import HeaderHints.Proofs.Sorting
import HeaderHints.Suggestion.Batch

/-!
# Edits as a substitution of rows

Edits are applied one after another, the last row first, and the document is cut into rows anew after each of
them. `Edit.substituted` says what comes out without such steps: every row of the document is looked at once,
the texts of the edits that start at it are put before it, and it is left out if an edit takes its place. For
edits that stand apart, `Edit.applyAll_eq_substituted` says that this is the result.

Applying an edit with a text of any shape changes how the rows behind it are cut, and none of those before it:
rows before the start of an edit are closed by a line feed each, and such rows come out again whatever follows
them (`Text.rows_flatten_append`). A run from the last row to the first therefore only has to know the rows that
it has not reached yet (`Edit.foldl_apply`).
-/

namespace HeaderHints

namespace Text

variable {t u : Text}

/-! ### Closed rows -/

/-- A row that a line feed closes. -/
def IsRow (row : Text) : Prop :=
  ∃ body, row = body ++ ['\n'] ∧ '\n' ∉ body

/-- A text whose last row is closed. -/
def Closed (t : Text) : Prop :=
  t = [] ∨ t.getLast? = some '\n'

theorem rows_row {body : Text} (h : '\n' ∉ body) (u : Text) :
    rows (body ++ '\n' :: u) = (body ++ ['\n']) :: rows u := by
  induction body with
  | nil => simp [rows]
  | cons c body ih =>
    rw [List.mem_cons, not_or] at h
    rw [List.cons_append, rows, if_neg (Ne.symm h.1), ih h.2]
    rfl

/-- Closed rows are cut off one by one, whatever follows them. -/
theorem rows_flatten_append {d : List Text} (h : ∀ row ∈ d, IsRow row) (u : Text) :
    rows (d.flatten ++ u) = d ++ rows u := by
  induction d with
  | nil => rfl
  | cons row d ih =>
    rw [List.forall_mem_cons] at h
    obtain ⟨⟨body, rfl, hbody⟩, hd⟩ := h
    rw [List.flatten_cons, List.append_assoc, List.append_assoc, List.singleton_append, rows_row hbody, ih hd]
    rfl

/-- A row is closed if another one follows it, or if the whole text is closed. -/
theorem isRow_of_rows {pre post : List Text} {row : Text} (hrows : rows t = pre ++ row :: post)
    (h : post ≠ [] ∨ Closed t) : IsRow row := by
  have hlast : row.getLast? = some '\n' := by
    cases post with
    | cons next post => exact (rows_lined t).2 hrows
    | nil =>
      have hne : row ≠ [] := ne_nil_of_mem_rows (t := t) (by simp [hrows])
      have hflat : t = pre.flatten ++ row := by rw [← flatten_rows t, hrows]; simp
      rcases h.resolve_left (by simp) with rfl | hfeed
      · exact absurd (List.append_eq_nil_iff.1 hflat.symm).2 hne
      · rw [hflat, List.getLast?_append_of_ne_nil _ hne] at hfeed
        exact hfeed
  obtain ⟨body, rfl⟩ := List.getLast?_eq_some_iff.1 hlast
  refine ⟨body, rfl, fun hmem ↦ ?_⟩
  obtain ⟨u, v, rfl⟩ := List.append_of_mem hmem
  have hrow : u ++ '\n' :: v ++ ['\n'] ∈ rows t := by simp [hrows]
  have hnil := (rows_lined t).1 _ hrow (u := u) (v := v ++ ['\n']) (by simp)
  exact absurd hnil (by simp)

theorem Closed.isRow (h : Closed t) : ∀ row ∈ rows t, IsRow row := by
  intro row hmem
  obtain ⟨pre, post, hrows⟩ := List.append_of_mem hmem
  exact isRow_of_rows hrows (.inr h)

theorem isRow_of_mem_take {i : Nat} (hi : i < (rows t).length) : ∀ row ∈ (rows t).take i, IsRow row := by
  intro row hmem
  obtain ⟨pre, post, htake⟩ := List.append_of_mem hmem
  have hrows : rows t = pre ++ row :: (post ++ (rows t).drop i) := by
    conv_lhs => rw [← List.take_append_drop i (rows t), htake]
    simp
  refine isRow_of_rows hrows (.inl fun hnil ↦ ?_)
  have hdrop := congrArg List.length (List.append_eq_nil_iff.1 hnil).2
  rw [List.length_drop, List.length_nil] at hdrop
  omega

theorem Closed.rows_append (h : Closed t) (u : Text) : rows (t ++ u) = rows t ++ rows u := by
  conv_lhs => rw [← flatten_rows t]
  exact rows_flatten_append h.isRow u

end Text

namespace Document

@[simp] theorem joined_zero (d : Document) (count : Nat) : d.joined 0 count = (d.take count).flatten :=
  rfl

theorem joined_rest (d : Document) (start : Nat) : d.joined start (d.length - start) = (d.drop start).flatten := by
  rw [joined, List.take_of_length_le (by simp)]

end Document

namespace Edit

variable {e : Edit} {es : List Edit} {d : Document}

/-! ### One edit -/

/-- The row behind those that an edit takes the place of. -/
def stop (e : Edit) : Nat :=
  if e.replace then e.startLine + e.lineCount else e.startLine

/-- The numbers of an edit are small enough to be added up. -/
def Fits (e : Edit) : Prop :=
  e.replace = true → e.startLine + e.lineCount < Decimal.wordSize

theorem startLine_le_stop (e : Edit) : e.startLine ≤ e.stop := by
  unfold stop
  split <;> omega

theorem resume_eq (h : e.Fits) : e.resume d = min e.stop d.length := by
  unfold resume stop
  split
  · rename_i hreplace
    rw [Nat.mod_eq_of_lt (h hreplace)]
  · rfl

/-- **Applying an edit** keeps the rows before it and those behind it. -/
theorem apply_eq (h : e.Fits) (d : Document) :
    e.apply d = (d.take e.startLine).flatten ++ e.text ++ (d.drop e.stop).flatten := by
  have htake : d.take (min e.startLine d.length) = d.take e.startLine := by
    rw [List.take_eq_take_iff]
    simp
  have hdrop : d.drop (min e.stop d.length) = d.drop e.stop := by
    rcases Nat.le_total e.stop d.length with hle | hle
    · rw [Nat.min_eq_left hle]
    · rw [Nat.min_eq_right hle, List.drop_length, List.drop_of_length_le hle]
  rw [apply, Document.joined_zero, Document.joined_rest, htake, resume_eq h, hdrop]

/-- Rows in front of a tail that an edit does not reach into. -/
theorem apply_ofText {u tail : Text} (hrows : Text.rows u = d ++ Text.rows tail) (hfits : e.Fits)
    (hstart : e.startLine ≤ d.length) (hstop : e.stop ≤ d.length ∨ tail = []) :
    e.apply (.ofText u) = (d.take e.startLine).flatten ++ e.text ++ (d.drop e.stop).flatten ++ tail := by
  have hbehind : ((d ++ Text.rows tail).drop e.stop).flatten = (d.drop e.stop).flatten ++ tail := by
    rcases hstop with hle | rfl
    · rw [List.drop_append_of_le_length hle, List.flatten_append, Text.flatten_rows]
    · simp [Text.rows]
  rw [apply_eq hfits, Document.ofText, hrows, List.take_append_of_le_length hstart, hbehind]
  simp

/-! ### Substitution -/

/-- What becomes of row `i`: the texts of the edits that start at it are put before it, and the row itself is
left out if an edit takes its place. -/
def rowAfter (es : List Edit) (i : Nat) (row : Text) : Text :=
  (es.filter (·.startLine = i)).flatMap (·.text) ++
    if es.any (fun e ↦ e.startLine ≤ i ∧ i < e.stop) then [] else row

/-- A document in which all edits are made at once. -/
def substituted (es : List Edit) (d : Document) : Text :=
  (d.mapIdx (rowAfter es)).flatten

theorem substituted_nil (d : Document) : substituted [] d = d.flatten := by
  have hrows : d.mapIdx (rowAfter []) = d := by
    refine List.ext_getElem (by simp) fun i hi hi' ↦ ?_
    rw [List.getElem_mapIdx]
    rfl
  rw [substituted, hrows]

theorem flatten_mapIdx_drop (n : Nat) (d : Document) :
    (d.mapIdx fun i row ↦ if i < n then [] else row).flatten = (d.drop n).flatten := by
  induction d generalizing n with
  | nil => simp
  | cons row d ih =>
    rw [List.mapIdx_cons, List.flatten_cons]
    cases n with
    | zero => simpa using ih 0
    | succ n => simpa using ih n

/-- An edit does not concern the rows before it. -/
theorem rowAfter_cons_of_lt {i : Nat} (hi : i < e.startLine) (row : Text) :
    rowAfter (e :: es) i row = rowAfter es i row := by
  have hne : e.startLine ≠ i := by omega
  have hnle : ¬ (e.startLine ≤ i ∧ i < e.stop) := by omega
  simp only [rowAfter, List.filter_cons, List.any_cons, hne, hnle, decide_false, Bool.false_or,
    Bool.false_eq_true, if_false]

/-- From the start of an edit on, those that stop before it do not concern the rows. -/
theorem rowAfter_cons_of_le (hes : ∀ e' ∈ es, e'.startLine < e.startLine ∧ e'.stop ≤ e.startLine) {i : Nat}
    (hi : e.startLine ≤ i) (row : Text) : rowAfter (e :: es) i row =
      (if i = e.startLine then e.text else []) ++ if i < e.stop then [] else row := by
  have hfilter : es.filter (·.startLine = i) = [] := by
    refine List.filter_eq_nil_iff.2 fun e' he' ↦ ?_
    have := hes e' he'
    simp only [decide_eq_true_eq]
    omega
  have hany : (es.any fun e ↦ e.startLine ≤ i ∧ i < e.stop) = false := by
    refine List.any_eq_false.2 fun e' he' ↦ ?_
    have := hes e' he'
    simp only [decide_eq_true_eq]
    omega
  simp only [rowAfter, List.filter_cons, List.any_cons, hfilter, hany, hi, true_and, Bool.or_false,
    decide_eq_true_eq, eq_comm (a := e.startLine)]
  split <;> simp

/-- **The edit that starts last** leaves the rows before it to the others. -/
theorem substituted_cons (hstart : e.startLine < d.length)
    (hes : ∀ e' ∈ es, e'.startLine < e.startLine ∧ e'.stop ≤ e.startLine) :
    substituted (e :: es) d =
      substituted es (d.take e.startLine) ++ e.text ++ (d.drop e.stop).flatten := by
  have hlength : (d.take e.startLine).length = e.startLine := by simp; omega
  have hfirst : (d.take e.startLine).mapIdx (rowAfter (e :: es)) =
      (d.take e.startLine).mapIdx (rowAfter es) :=
    List.mapIdx_eq_mapIdx_iff.2 fun i hi ↦ rowAfter_cons_of_lt (by omega) _
  have hsecond : ((d.drop e.startLine).mapIdx fun i ↦ rowAfter (e :: es) (i + e.startLine)).flatten =
      e.text ++ (d.drop e.stop).flatten := by
    have hle := e.startLine_le_stop
    have hdrop : d.drop e.stop = (d.drop e.startLine).drop (e.stop - e.startLine) := by
      rw [List.drop_drop, show e.startLine + (e.stop - e.startLine) = e.stop by omega]
    obtain ⟨row, rest, hrest⟩ : ∃ row rest, d.drop e.startLine = row :: rest :=
      List.exists_cons_of_ne_nil (by simpa using hstart)
    have hlt : ∀ i, i + e.startLine < e.stop ↔ i < e.stop - e.startLine := by omega
    have hhead : rowAfter (e :: es) (0 + e.startLine) row =
        e.text ++ if 0 < e.stop - e.startLine then [] else row := by
      rw [rowAfter_cons_of_le hes (Nat.le_add_left _ _), if_pos (Nat.zero_add _)]
      simp only [hlt]
    have htail : (rest.mapIdx fun i ↦ rowAfter (e :: es) (i + 1 + e.startLine)) =
        rest.mapIdx fun i row ↦ if i + 1 < e.stop - e.startLine then [] else row := by
      refine List.mapIdx_eq_mapIdx_iff.2 fun i hi ↦ ?_
      rw [rowAfter_cons_of_le hes (Nat.le_add_left _ _), if_neg (by omega), List.nil_append]
      simp only [hlt]
    rw [hdrop, hrest, ← flatten_mapIdx_drop, List.mapIdx_cons, List.mapIdx_cons, List.flatten_cons,
      List.flatten_cons, hhead, htail, List.append_assoc]
  rw [substituted, substituted]
  conv_lhs => rw [← List.take_append_drop e.startLine d]
  rw [List.mapIdx_append, List.flatten_append, hfirst, hlength, hsecond, List.append_assoc]

/-! ### Runs -/

/-- Edits that start and stop before those in front of them in the list. -/
def Descending (es : List Edit) : Prop :=
  es.Pairwise fun e e' ↦ e'.startLine < e.startLine ∧ e'.stop ≤ e.startLine

/-- **A run of edits**, the last row first, substitutes in the rows that it has not reached yet and leaves the
tail behind them as it is. -/
theorem foldl_apply {t : Text} (hes : Descending es) :
    ∀ {i : Nat} {u tail : Text}, i ≤ (Text.rows t).length → Text.rows u = (Text.rows t).take i ++ Text.rows tail →
      (∀ e ∈ es, e.Fits ∧ e.startLine < i ∧ (e.stop ≤ i ∨ tail = [])) →
      es.foldl (fun text e ↦ e.apply (.ofText text)) u = substituted es ((Text.rows t).take i) ++ tail := by
  induction es with
  | nil =>
    intro i u tail _ hrows _
    rw [List.foldl_nil, substituted_nil, ← Text.flatten_rows u, hrows, List.flatten_append, Text.flatten_rows]
  | cons e es ih =>
    intro i u tail hi hrows hall
    obtain ⟨hbefore, hes⟩ := List.pairwise_cons.1 hes
    obtain ⟨⟨hfits, hstart, hstop⟩, hall⟩ := List.forall_mem_cons.1 hall
    have hlength : ((Text.rows t).take i).length = i := List.length_take_of_le hi
    have happly := apply_ofText hrows hfits (by omega) (by rwa [hlength])
    rw [List.take_take, Nat.min_eq_left hstart.le, List.append_assoc, List.append_assoc] at happly
    -- the text of the edit and what is behind it are the tail of the edits to come
    have hrows' := Text.rows_flatten_append (Text.isRow_of_mem_take (t := t) (hstart.trans_le hi))
      (e.text ++ ((((Text.rows t).take i).drop e.stop).flatten ++ tail))
    rw [← happly] at hrows'
    rw [List.foldl_cons, ih hes (hstart.le.trans hi) hrows' fun e' he' ↦
      ⟨(hall e' he').1, (hbefore e' he').1, .inl (hbefore e' he').2⟩]
    rw [substituted_cons (by omega) hbefore, List.take_take, Nat.min_eq_left hstart.le]
    simp only [List.append_assoc]

/-! ### The order of edits -/

/-- Two edits of which one stops before the other starts. -/
def Apart (e e' : Edit) : Prop :=
  e.startLine < e'.startLine ∧ e.stop ≤ e'.startLine ∨
    e'.startLine < e.startLine ∧ e'.stop ≤ e.startLine

instance (e e' : Edit) : Decidable (e.Apart e') :=
  inferInstanceAs (Decidable (_ ∨ _))

theorem Apart.symm {e' : Edit} (h : e.Apart e') : e'.Apart e :=
  Or.symm h

/-- The edits from the last row to the first. -/
def lastFirst (es : List Edit) : List Edit :=
  es.mergeSort fun e e' ↦ e'.startLine ≤ e.startLine

theorem lastFirst_perm (es : List Edit) : (lastFirst es).Perm es :=
  List.mergeSort_perm _ _

theorem descending_lastFirst (h : es.Pairwise Apart) : Descending (lastFirst es) := by
  have hsorted : (lastFirst es).Pairwise fun e e' ↦ e'.startLine ≤ e.startLine :=
    pairwise_mergeSort_key startLine es
  have hapart := ((lastFirst_perm es).pairwise_iff fun h ↦ Apart.symm h).2 h
  refine (hsorted.and hapart).imp fun ⟨hle, h⟩ ↦ ?_
  unfold Apart at h
  omega

/-- At most one of several edits with different rows starts at row `i`. -/
theorem length_filter_startLine_le (h : es.Pairwise fun e e' ↦ e.startLine ≠ e'.startLine) (i : Nat) :
    (es.filter (·.startLine = i)).length ≤ 1 := by
  match hrows : es.filter (·.startLine = i) with
  | [] | [_] => simp [hrows]
  | e :: e' :: more =>
    have hmem : ∀ e ∈ es.filter (·.startLine = i), e.startLine = i := fun e he ↦ by
      simpa using (List.mem_filter.1 he).2
    have hne := h.filter (·.startLine = i)
    rw [hrows] at hne hmem
    exact absurd ((hmem e (by simp)).trans (hmem e' (by simp)).symm)
      ((List.pairwise_cons.1 hne).1 e' (by simp))

theorem filter_startLine_perm {es' : List Edit} (hperm : es.Perm es')
    (h : es.Pairwise fun e e' ↦ e.startLine ≠ e'.startLine) (i : Nat) :
    es.filter (·.startLine = i) = es'.filter (·.startLine = i) := by
  have hfilter := hperm.filter (·.startLine = i)
  have hlength := length_filter_startLine_le h i
  generalize es.filter (·.startLine = i) = starting at hfilter hlength ⊢
  match starting with
  | [] => exact (List.nil_perm.1 hfilter).symm
  | [e] => exact List.singleton_perm.1 hfilter
  | e :: e' :: more => exact absurd hlength (by simp)

theorem substituted_perm {es' : List Edit} (hperm : es.Perm es')
    (h : es.Pairwise fun e e' ↦ e.startLine ≠ e'.startLine) (d : Document) :
    substituted es d = substituted es' d := by
  have hafter : rowAfter es = rowAfter es' := by
    funext i row
    rw [rowAfter, rowAfter, filter_startLine_perm hperm h, hperm.any_eq]
  rw [substituted, substituted, hafter]

/-- **Edits that stand apart are made at once.** For edits in any order that start at different rows of a
document, and of which none reaches into the rows of another one, the result is the document in which every row
is replaced by what the edits make of it. -/
theorem applyAll_eq_substituted (t : Text) (es : List Edit)
    (hstart : ∀ e ∈ es, e.startLine < (Document.ofText t).length)
    (hword : ∀ e ∈ es, e.startLine + e.lineCount < Decimal.wordSize) (hapart : es.Pairwise Apart) :
    applyAll es (.ofText t) = substituted es (.ofText t) := by
  have hne : es.Pairwise fun e e' ↦ e.startLine ≠ e'.startLine := hapart.imp fun h ↦ by
    unfold Apart at h
    omega
  have hperm := lastFirst_perm es
  have hrows : Text.rows (Document.text (.ofText t)) =
      (Text.rows t).take (Text.rows t).length ++ Text.rows [] := by
    rw [List.take_length, Document.text, Document.ofText, Text.flatten_rows]
    simp [Text.rows]
  have hrun := foldl_apply (t := t) (descending_lastFirst hapart) le_rfl hrows fun e he ↦
    ⟨fun _ ↦ hword e (hperm.mem_iff.1 he), hstart e (hperm.mem_iff.1 he), .inr rfl⟩
  rw [List.take_length, List.append_nil] at hrun
  rw [substituted_perm hperm.symm hne, applyAll]
  exact hrun

/-- Neither the texts nor the last row end in a line feed, so rows run together. -/
theorem applyAll_eq_substituted_three : ∃ es : List Edit,
    es = [⟨1, 2, "p\nq".toList, true⟩, ⟨3, 1, "x".toList, false⟩, ⟨0, 7, "y\n\n".toList, false⟩] ∧
    es.Pairwise Apart ∧
    applyAll es (.ofText "a\nb\nc\nd".toList) = "y\n\na\np\nqxd".toList := by
  have hapart : [⟨1, 2, "p\nq".toList, true⟩, ⟨3, 1, "x".toList, false⟩,
      ⟨0, 7, "y\n\n".toList, false⟩].Pairwise Apart := by decide
  refine ⟨_, rfl, hapart, ?_⟩
  rw [applyAll_eq_substituted _ _ (by decide) (by decide) hapart]
  rfl

end Edit

end HeaderHints
