import Mathlib.Data.List.Perm.Basic
import HeaderHints.Proofs.MergedEdits

/-!
# Edits that do not depend on each other

The edits of a batch come in the order of their rows, and the one for a row is merged from the suggestions for
that row alone (`Suggestion.filter_edits`). So what is suggested for other rows, and whether it can be filled in,
does not matter to it.

Nor does it matter in which order suggestions arrive, as long as those for one row that have the same number of
samples stay in order (`Suggestion.Rearranged`). The sort by samples is stable, so the texts of the suggestions
for a row come out of it in one order, and all else that is taken from these suggestions does not see their order
(`Suggestion.merge?_congr`).
-/

namespace HeaderHints.Suggestion

variable {ss ss' : List Suggestion} {d : Document} {style : Style}

/-! ### Rows -/

/-- **Edits come in the order of their rows.** -/
theorem pairwise_startLine_lt (ss : List Suggestion) (d : Document) (style : Style) :
    (edits ss d style).Pairwise fun e e' ↦ e.startLine < e'.startLine := by
  have hsorted : ((ss.map (·.line)).mergeSort (· ≤ ·)).eraseDups.Pairwise (· ≤ ·) :=
    (List.pairwise_mergeSort' (· ≤ ·) _).sublist (eraseDups_sublist _)
  refine List.Pairwise.filterMap _ ?_ (hsorted.and (eraseDups_nodup _))
  intro line line' hlt e he e' he'
  rw [startLine_of_merge? (fun s hs ↦ (mem_filter_line.1 hs).2) he,
    startLine_of_merge? (fun s hs ↦ (mem_filter_line.1 hs).2) he']
  exact Nat.lt_of_le_of_ne hlt.1 hlt.2

/-- **The edit for a row** is merged from the suggestions for it. -/
theorem filter_edits (ss : List Suggestion) (d : Document) (style : Style) (line : Nat) :
    (edits ss d style).filter (·.startLine = line) = (merge? (ss.filter (·.line = line)) d style).toList := by
  have hmem : ∀ e, e ∈ (edits ss d style).filter (·.startLine = line) ↔
      merge? (ss.filter (·.line = line)) d style = some e := by
    intro e
    rw [List.mem_filter, mem_edits, decide_eq_true_eq]
    constructor
    · rintro ⟨hmerge, rfl⟩
      exact hmerge
    · intro hmerge
      have hstart : e.startLine = line := startLine_of_merge? (fun s hs ↦ (mem_filter_line.1 hs).2) hmerge
      exact ⟨by rwa [hstart], hstart⟩
  have hlength := Edit.length_filter_startLine_le (edits_startLine_ne ss d style) line
  generalize (edits ss d style).filter (·.startLine = line) = starting at hmem hlength
  match starting with
  | [] =>
    cases hmerge : merge? (ss.filter (·.line = line)) d style with
    | none => rfl
    | some e => exact absurd ((hmem e).2 hmerge) (by simp)
  | [e] => rw [(hmem e).1 (by simp), Option.toList_some]
  | _ :: _ :: _ => exact absurd hlength (by simp)

/-! ### Order -/

/-- The same suggestions in another order, where those for one line with the same number of samples are in the
same order. -/
structure Rearranged (ss ss' : List Suggestion) : Prop where
  perm : ss.Perm ss'
  order : ∀ line samples, ss.filter (fun s ↦ s.line = line ∧ s.samples = samples) =
    ss'.filter fun s ↦ s.line = line ∧ s.samples = samples

theorem filter_proposals (ss : List Suggestion) (d : Document) (style : Style) (n : Nat) :
    (proposals ss d style).filter (·.1 = n) = proposals (ss.filter (·.samples = n)) d style := by
  rw [proposals, proposals, List.filter_filterMap, List.filterMap_filter]
  congr 1
  funext s
  cases s.proposal? d style with
  | none => simp
  | some filled => simp [Option.filter_some]

/-- **Merging sees the order of suggestions with the same number of samples only.** -/
theorem merge?_congr {line : Nat} (hline : ∀ s ∈ ss, s.line = line) (hperm : ss.Perm ss')
    (horder : ∀ n, ss.filter (·.samples = n) = ss'.filter (·.samples = n)) :
    merge? ss d style = merge? ss' d style := by
  have hline' : ∀ s ∈ ss', s.line = line := fun s hs ↦ hline s (hperm.mem_iff.2 hs)
  have htexts : texts ss d style = texts ss' d style := by
    rw [texts, texts, mergeSort_congr Prod.fst fun n ↦ ?_]
    rw [filter_proposals, filter_proposals, horder]
  have hspan : span ss d style = span ss' d style :=
    ((hperm.filterMap _).map _).foldl_eq 0
  have hblock : block ss d style = block ss' d style := by rw [block, block, htexts]
  have hreplaces : replaces ss d style = replaces ss' d style := by
    rw [replaces, replaces, htexts, hblock]
  cases ss with
  | nil => rw [hperm.nil_eq]
  | cons s rest =>
    obtain ⟨s', rest', rfl⟩ := List.exists_cons_of_ne_nil fun hnil : ss' = [] ↦
      absurd (hnil ▸ hperm).eq_nil (by simp)
    rw [merge?_cons, merge?_cons, hblock, hspan, hreplaces, hline s List.mem_cons_self,
      hline' s' List.mem_cons_self]

theorem Rearranged.merge?_eq (h : Rearranged ss ss') (line : Nat) :
    merge? (ss.filter (·.line = line)) d style = merge? (ss'.filter (·.line = line)) d style := by
  refine merge?_congr (fun s hs ↦ (mem_filter_line.1 hs).2) (h.perm.filter _) fun n ↦ ?_
  have horder := h.order line n
  simp only [Bool.decide_and, Bool.and_comm (decide (_ = line))] at horder
  rwa [List.filter_filter, List.filter_filter]

theorem Rearranged.edits_eq (h : Rearranged ss ss') : edits ss d style = edits ss' d style := by
  have hlines : (ss.map (·.line)).mergeSort (· ≤ ·) = (ss'.map (·.line)).mergeSort (· ≤ ·) :=
    (((List.mergeSort_perm _ _).trans (h.perm.map _)).trans (List.mergeSort_perm _ _).symm).eq_of_pairwise'
      (List.pairwise_mergeSort' (· ≤ ·) _) (List.pairwise_mergeSort' (· ≤ ·) _)
  rw [edits, edits, hlines]
  simp only [h.merge?_eq]

/-- **The edits of a batch are independent of each other and of the order of the suggestions.** They come in the
order of their rows; the edit for a row, if there is one, is what the suggestions for this row are merged into, so
that other suggestions do not change it; and a batch in another order, where the suggestions for one row with the
same number of samples are in the same order, has the same edits. -/
theorem edits_independent (d : Document) (style : Style) :
    (∀ ss, (edits ss d style).Pairwise fun e e' ↦ e.startLine < e'.startLine) ∧
    (∀ ss line, (edits ss d style).filter (·.startLine = line) =
      (merge? (ss.filter (·.line = line)) d style).toList) ∧
    (∀ ss ss' line, ss.filter (·.line = line) = ss'.filter (·.line = line) →
      (edits ss d style).filter (·.startLine = line) = (edits ss' d style).filter (·.startLine = line)) ∧
    ∀ ss ss', Rearranged ss ss' → edits ss d style = edits ss' d style := by
  refine ⟨fun ss ↦ pairwise_startLine_lt ss d style, fun ss line ↦ filter_edits ss d style line,
    fun ss ss' line hsame ↦ ?_, fun ss ss' h ↦ h.edits_eq⟩
  rw [filter_edits, filter_edits, hsame]

/-- Two suggestions for the first function and one for the second, which cannot be read. -/
theorem edits_independent_three : ∃ (d : Document) (a b c : Suggestion),
    d = .ofText "def f(a):\ndef g(b):\n".toList ∧
    a = ⟨none, 0, none, 1, ["int".toList], "int".toList⟩ ∧ b = ⟨none, 0, none, 2, ["str".toList], "str".toList⟩ ∧
    c = ⟨none, 1, none, 1, ["int".toList], "Union[]".toList⟩ ∧
    Rearranged [a, b, c] [c, b, a] ∧ edits [a, b, c] d {} = edits [c, b, a] d {} ∧
    (edits [a, b, c] d {}).filter (·.startLine = 0) = (edits [a, b] d {}).filter (·.startLine = 0) := by
  obtain ⟨-, -, hother, horder⟩ := edits_independent (.ofText "def f(a):\ndef g(b):\n".toList) {}
  have hrearranged : Rearranged
      [⟨none, 0, none, 1, ["int".toList], "int".toList⟩, ⟨none, 0, none, 2, ["str".toList], "str".toList⟩,
        ⟨none, 1, none, 1, ["int".toList], "Union[]".toList⟩]
      [⟨none, 1, none, 1, ["int".toList], "Union[]".toList⟩, ⟨none, 0, none, 2, ["str".toList], "str".toList⟩,
        ⟨none, 0, none, 1, ["int".toList], "int".toList⟩] := by
    refine ⟨(List.reverse_perm _).symm, fun line samples ↦ ?_⟩
    -- no two of the suggestions have both numbers in common
    rcases line with _ | _ | line <;> rcases samples with _ | _ | _ | samples <;> simp
  exact ⟨_, _, _, _, rfl, rfl, rfl, rfl, hrearranged, horder _ _ hrearranged, hother _ _ 0 (by decide)⟩

end HeaderHints.Suggestion
