import HeaderHints.Lexeme.Basic

/-!
# Places in the rows

A position counts rows and bytes. What proofs want to say about a position is which text stands
before it, and `Place rows p done` is that statement: `done` is what the rows hold up to `p`. A place
stays a place when rows are added, and the source between two places is the difference of the two
texts (`Place.slice_eq`), whether or not they lie in the same row.
-/

namespace HeaderHints

namespace Text

/-! ### Splits at byte offsets -/

@[simp]
theorem toByte_bytes_append (t u : Text) : toByte (bytes t) (t ++ u) = t := by
  simp [toByte, splitBytes?_bytes_append]

@[simp]
theorem fromByte_bytes_append (t u : Text) : fromByte (bytes t) (t ++ u) = u := by
  simp [fromByte, splitBytes?_bytes_append]

theorem between_bytes_append (t m u : Text) :
    between (bytes t) (bytes (t ++ m)) (t ++ m ++ u) = m := by
  rw [between, toByte_bytes_append, fromByte_bytes_append]

theorem append_of_splitBytes? {n : Nat} {t front back : Text}
    (h : splitBytes? n t = some (front, back)) : front ++ back = t := by
  fun_induction splitBytes? n t generalizing front back with
  | case1 t =>
    obtain ⟨rfl, rfl⟩ := Prod.mk.inj (Option.some.inj h)
    rfl
  | case2 => exact absurd h (by simp)
  | case3 n c t _ ih =>
    obtain ⟨⟨front', back'⟩, hsplit, heq⟩ := Option.map_eq_some_iff.1 h
    obtain ⟨rfl, rfl⟩ := Prod.mk.inj heq
    simp [ih hsplit]
  | case4 => exact absurd h (by simp)

/-- The part of a text from an offset on ends it, if it is there. -/
theorem fromByte_suffix (n : Nat) (t : Text) : fromByte n t <:+ t := by
  unfold fromByte
  cases hsplit : splitBytes? n t with
  | none => exact List.nil_suffix
  | some p => exact ⟨p.1, append_of_splitBytes? hsplit⟩

theorem fromByte_bytes_add (t u : Text) (n : Nat) :
    fromByte (bytes t + n) (t ++ u) = fromByte n u := by
  induction t with
  | nil => simp
  | cons c t ih =>
    obtain ⟨m, hm⟩ := Nat.exists_eq_add_one.2 c.utf8Size_pos
    have h : bytes (c :: t) + n = (m + (bytes t + n)) + 1 := by
      simp only [bytes_cons, hm]
      omega
    rw [← ih, fromByte, fromByte, h, List.cons_append, splitBytes?, if_pos (by omega),
      show m + (bytes t + n) + 1 - c.utf8Size = bytes t + n by omega]
    cases splitBytes? (bytes t + n) (t ++ u) <;> rfl

theorem bytes_eq_zero_iff {t : Text} : bytes t = 0 ↔ t = [] := by
  cases t with
  | nil => simp
  | cons c t =>
    have := c.utf8Size_pos
    simp only [bytes_cons, reduceCtorEq, iff_false]
    omega

/-! ### Rows between two others -/

/-- Of two rows, the one that is counted later stands behind the other. -/
theorem exists_rows_between {past past' more more' : List Text} {row row' : Text}
    (h : past ++ row :: more = past' ++ row' :: more') (hlt : past.length < past'.length) :
    ∃ mid, past' = past ++ row :: mid ∧ more = mid ++ row' :: more' := by
  rcases List.append_eq_append_iff.1 h with ⟨w, rfl, hrest⟩ | ⟨w, rfl, -⟩
  · cases w with
    | nil => exact absurd hlt (by simp)
    | cons first mid =>
      obtain ⟨rfl, hmore⟩ := List.cons_eq_cons.1 hrest
      exact ⟨mid, rfl, hmore⟩
  · exact absurd hlt (by simp)

end Text

namespace Lexeme

variable {past mid more : List Text} {b m r b' r' : Text}

theorem slice_within :
    slice (past ++ (b ++ m ++ r) :: more) ⟨past.length, Text.bytes b⟩ ⟨past.length, Text.bytes (b ++ m)⟩ = m := by
  have hget : (past ++ (b ++ m ++ r) :: more).getD past.length [] = b ++ m ++ r := by simp
  by_cases hm : m = []
  · subst hm
    simp [slice, Position.before]
  · have hpos : 0 < Text.bytes m := Nat.pos_of_ne_zero fun h ↦ hm (Text.bytes_eq_zero_iff.1 h)
    simp only [slice, Position.before, hget]
    rw [Text.between_bytes_append]
    simp [hpos]

theorem slice_across :
    slice (past ++ (b ++ r) :: (mid ++ (b' ++ r') :: more)) ⟨past.length, Text.bytes b⟩
      ⟨(past ++ (b ++ r) :: mid).length, Text.bytes b'⟩ = r ++ mid.flatten ++ b' := by
  have hbefore : Position.before ⟨past.length, Text.bytes b⟩
      ⟨(past ++ (b ++ r) :: mid).length, Text.bytes b'⟩ = true := by
    simp [Position.before]
  have hdrop : (past ++ (b ++ r) :: (mid ++ (b' ++ r') :: more)).drop (past.length + 1) =
      mid ++ (b' ++ r') :: more := by
    rw [← List.singleton_append, ← List.append_assoc]
    exact List.drop_left' (by simp)
  have hget : (past ++ (b ++ r) :: (mid ++ (b' ++ r') :: more)).getD past.length [] = b ++ r := by simp
  have hget' : (past ++ (b ++ r) :: (mid ++ (b' ++ r') :: more)).getD (past ++ (b ++ r) :: mid).length [] =
      b' ++ r' := by
    rw [← List.cons_append, ← List.append_assoc]
    simp
  have hne : past.length ≠ (past ++ (b ++ r) :: mid).length := by simp
  have hcount : (past ++ (b ++ r) :: mid).length - past.length - 1 = mid.length := by
    simp only [List.length_append, List.length_cons]
    omega
  simp only [slice, hbefore, hdrop, hget, hget', hcount, if_neg hne, Text.fromByte_bytes_append,
    Text.toByte_bytes_append, List.take_left, Bool.not_true, Bool.false_eq_true, if_false]

end Lexeme

/-- `p` is a place in the rows, and `done` is the text before it. -/
def Place (rows : List Text) (p : Position) (done : Text) : Prop :=
  ∃ past b r more, rows = past ++ (b ++ r) :: more ∧ p = ⟨past.length, Text.bytes b⟩ ∧
    done = past.flatten ++ b

namespace Place

variable {rows : List Text} {p q : Position} {done : Text}

/-- A place stays where it is when rows are added. -/
theorem append (h : Place rows p done) (more : List Text) : Place (rows ++ more) p done := by
  obtain ⟨past, b, r, after, rfl, rfl, rfl⟩ := h
  exact ⟨past, b, r, after ++ more, by simp, rfl, rfl⟩

theorem mono {rows' : List Text} (h : Place rows p done) (hr : rows <+: rows') :
    Place rows' p done := by
  obtain ⟨more, rfl⟩ := hr
  exact h.append more

/-- **The source between two places** is what has to be added to the text before the first to get
the text before the second. -/
theorem slice_eq {m : Text} (hp : Place rows p done) (hq : Place rows q (done ++ m)) :
    Lexeme.slice rows p q = m := by
  obtain ⟨past, b, r, more, rfl, rfl, rfl⟩ := hp
  obtain ⟨past', b', r', more', hrows, rfl, hdone⟩ := hq
  rcases Nat.lt_trichotomy past.length past'.length with hlt | heq | hgt
  · -- the second place lies in a later row
    obtain ⟨mid, rfl, rfl⟩ := Text.exists_rows_between hrows hlt
    have hsame : past.flatten ++ (b ++ m) = past.flatten ++ (b ++ (r ++ mid.flatten ++ b')) := by
      simpa [List.append_assoc] using hdone
    rw [Lexeme.slice_across]
    exact (List.append_cancel_left (List.append_cancel_left hsame)).symm
  · -- both places lie in the same row
    obtain ⟨rfl, hrest⟩ := List.append_inj hrows heq
    obtain ⟨hrow, -⟩ := List.cons_eq_cons.1 hrest
    obtain rfl : b ++ m = b' := by
      rw [List.append_assoc] at hdone
      exact List.append_cancel_left hdone
    rw [hrow]
    exact Lexeme.slice_within
  · -- the second place ends the row before the first: nothing lies between them
    obtain ⟨mid, rfl, -⟩ := Text.exists_rows_between hrows.symm hgt
    have hsame : past'.flatten ++ (b' ++ (r' ++ mid.flatten ++ b ++ m)) = past'.flatten ++ (b' ++ []) := by
      simpa [List.append_assoc] using hdone
    have hnil := List.append_cancel_left (List.append_cancel_left hsame)
    have hbefore : Position.before ⟨(past' ++ (b' ++ r') :: mid).length, Text.bytes b⟩
        ⟨past'.length, Text.bytes b'⟩ = false := by
      simp [Position.before]
    rw [Lexeme.slice, hbefore, (List.append_eq_nil_iff.1 hnil).2]
    rfl

/-- The rest of the row of a place, and the text of its row before it. -/
theorem fromByte_col {past more : List Text} {b r : Text} (h : rows = past ++ (b ++ r) :: more) :
    Text.fromByte (Text.bytes b) (rows.getD past.length []) = r := by
  subst h
  simp

theorem toByte_col {past more : List Text} {b r : Text} (h : rows = past ++ (b ++ r) :: more) :
    Text.toByte (Text.bytes b) (rows.getD past.length []) = b := by
  subst h
  simp

end Place

end HeaderHints
