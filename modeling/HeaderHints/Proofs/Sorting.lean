import Mathlib.Data.List.Induction
import Mathlib.Data.List.Sort

/-!
# Sorting and leaving out duplicates

Edits and suggestions are sorted by a number, the greatest first. The sort is stable: entries with the same
number keep their order (`filter_mergeSort`). A sorted list is known from its parts with one number each
(`eq_of_filter_eq`), so the order of the other entries is lost in sorting (`mergeSort_congr`).

`Ranked` and `Firsts` say what a stable sort and a list without later duplicates are, apart from any way to
compute them. There is exactly one of each (`ranked_iff`, `firsts_iff`).
-/

namespace HeaderHints

variable {α : Type}

/-! ### Duplicates -/

theorem eraseDups_nodup [BEq α] [LawfulBEq α] (xs : List α) : xs.eraseDups.Nodup := by
  match xs with
  | [] => exact List.nodup_nil
  | x :: xs =>
    have hnew : x ∉ (xs.filter fun y ↦ !y == x).eraseDups := by simp [List.mem_eraseDups]
    rw [List.eraseDups_cons]
    exact List.nodup_cons.2 ⟨hnew, eraseDups_nodup _⟩
termination_by xs.length
decreasing_by exact Nat.lt_succ_of_le (List.length_filter_le _ _)

theorem eraseDups_sublist [BEq α] (xs : List α) : xs.eraseDups.Sublist xs := by
  match xs with
  | [] => exact .slnil
  | x :: xs =>
    rw [List.eraseDups_cons]
    exact ((eraseDups_sublist _).trans List.filter_sublist).cons_cons x
termination_by xs.length
decreasing_by exact Nat.lt_succ_of_le (List.length_filter_le _ _)

/-- The list `us` has each entry of `xs` once, in the order in which they first occur there. -/
structure Firsts [BEq α] (xs us : List α) : Prop where
  mem_iff : ∀ u, u ∈ us ↔ u ∈ xs
  order : us.Pairwise fun u v ↦ xs.idxOf u < xs.idxOf v

theorem firsts_eraseDups [BEq α] [LawfulBEq α] (xs : List α) : Firsts xs xs.eraseDups := by
  induction xs using List.reverseRecOn with
  | nil => exact ⟨fun u ↦ Iff.rfl, .nil⟩
  | append_singleton xs x ih =>
    have hkept : xs.eraseDups.Pairwise fun u v ↦ (xs ++ [x]).idxOf u < (xs ++ [x]).idxOf v := by
      refine ih.order.imp_of_mem fun hu hv h ↦ ?_
      rwa [List.idxOf_append_of_mem ((ih.mem_iff _).1 hu), List.idxOf_append_of_mem ((ih.mem_iff _).1 hv)]
    refine ⟨fun u ↦ List.mem_eraseDups, ?_⟩
    rw [List.eraseDups_append]
    by_cases hx : x ∈ xs
    · have hold : [x].removeAll xs = [] := by simp [List.removeAll, hx]
      rwa [hold, List.eraseDups_nil, List.append_nil]
    · -- the last entry is new, so that it stands behind all others
      have hnew : ([x].removeAll xs).eraseDups = [x] := by simp [List.removeAll, hx, List.eraseDups_cons]
      rw [hnew]
      refine List.pairwise_append.2 ⟨hkept, List.pairwise_singleton _ _, fun u hu v hv ↦ ?_⟩
      obtain rfl : v = x := List.mem_singleton.1 hv
      have hu : u ∈ xs := (ih.mem_iff u).1 hu
      rw [List.idxOf_append_of_mem hu, List.idxOf_append_of_notMem hx]
      exact Nat.lt_add_right _ (List.idxOf_lt_length_of_mem hu)

/-- **There is one list of first occurrences.** -/
theorem firsts_iff [BEq α] [LawfulBEq α] {xs us : List α} : Firsts xs us ↔ us = xs.eraseDups := by
  constructor
  · intro h
    have : Std.Irrefl fun u v ↦ xs.idxOf u < xs.idxOf v := ⟨fun u ↦ Nat.lt_irrefl _⟩
    have : Std.Antisymm fun u v ↦ xs.idxOf u < xs.idxOf v := ⟨fun u v h h' ↦ absurd h' (Nat.lt_asymm h)⟩
    exact h.order.eq_of_mem_iff (firsts_eraseDups xs).order fun u ↦
      (h.mem_iff u).trans ((firsts_eraseDups xs).mem_iff u).symm
  · rintro rfl
    exact firsts_eraseDups xs

/-! ### Sorting by a key -/

variable (key : α → Nat)

theorem pairwise_mergeSort_key (xs : List α) :
    (xs.mergeSort fun x y ↦ key y ≤ key x).Pairwise fun x y ↦ key y ≤ key x := by
  refine (List.pairwise_mergeSort (fun x y z h h' ↦ ?_) (fun x y ↦ ?_) xs).imp fun h ↦ ?_
  · simp only [decide_eq_true_eq] at *
    omega
  · simp only [Bool.or_eq_true, decide_eq_true_eq]
    omega
  · simpa using h

/-- **Sorting is stable**: entries with the same key keep their order. -/
theorem filter_mergeSort (xs : List α) (n : Nat) :
    (xs.mergeSort fun x y ↦ key y ≤ key x).filter (key · = n) = xs.filter (key · = n) := by
  have hsorted : (xs.filter (key · = n)).Pairwise fun x y ↦ decide (key y ≤ key x) = true := by
    refine List.pairwise_of_forall_mem_list fun x hx y hy ↦ ?_
    simp only [List.mem_filter, decide_eq_true_eq] at hx hy ⊢
    omega
  have hsublist : (xs.filter (key · = n)).Sublist (xs.mergeSort fun x y ↦ key y ≤ key x) := by
    refine List.sublist_mergeSort (fun x y z h h' ↦ ?_) (fun x y ↦ ?_) hsorted List.filter_sublist
    · simp only [decide_eq_true_eq] at *
      omega
    · simp only [Bool.or_eq_true, decide_eq_true_eq]
      omega
  have hfilter := hsublist.filter (key · = n)
  simp only [List.filter_filter, Bool.and_self] at hfilter
  exact (hfilter.eq_of_length ((List.mergeSort_perm xs _).filter _).length_eq.symm).symm

theorem mem_iff_of_filter_eq {xs ys : List α} (h : ∀ n, xs.filter (key · = n) = ys.filter (key · = n)) (z : α) :
    z ∈ xs ↔ z ∈ ys := by
  simpa using congrArg (z ∈ ·) (h (key z))

/-- **Sorted lists** are equal if their parts with one key are. -/
theorem eq_of_filter_eq {xs ys : List α} (hxs : xs.Pairwise fun x y ↦ key y ≤ key x)
    (hys : ys.Pairwise fun x y ↦ key y ≤ key x) (h : ∀ n, xs.filter (key · = n) = ys.filter (key · = n)) :
    xs = ys := by
  induction xs generalizing ys with
  | nil =>
    cases ys with
    | nil => rfl
    | cons y ys => exact absurd ((mem_iff_of_filter_eq key h y).2 List.mem_cons_self) (by simp)
  | cons x xs ih =>
    cases ys with
    | nil => exact absurd ((mem_iff_of_filter_eq key h x).1 List.mem_cons_self) (by simp)
    | cons y ys =>
      obtain ⟨hx, hrest⟩ := List.pairwise_cons.1 hxs
      obtain ⟨hy, hrest'⟩ := List.pairwise_cons.1 hys
      -- both lists start with the greatest key
      have hle : ∀ z ∈ x :: xs, key z ≤ key x := List.forall_mem_cons.2 ⟨le_rfl, hx⟩
      have hle' : ∀ z ∈ y :: ys, key z ≤ key y := List.forall_mem_cons.2 ⟨le_rfl, hy⟩
      have hmem := mem_iff_of_filter_eq key h
      have hkey : key x = key y :=
        (hle' x ((hmem x).1 List.mem_cons_self)).antisymm (hle y ((hmem y).2 List.mem_cons_self))
      have hhead := h (key x)
      rw [List.filter_cons_of_pos (by simp), List.filter_cons_of_pos (by simp [hkey])] at hhead
      obtain ⟨rfl, -⟩ := List.cons_eq_cons.1 hhead
      have htail : ∀ n, xs.filter (key · = n) = ys.filter (key · = n) := fun n ↦ by
        have hn := h n
        simp only [List.filter_cons] at hn
        split at hn
        · exact (List.cons_eq_cons.1 hn).2
        · exact hn
      rw [ih hrest hrest' htail]

/-- The list `ys` is `xs` in the order of the keys, the greatest first, and entries with the same key are in the
order that they have in `xs`. -/
structure Ranked (xs ys : List α) : Prop where
  sorted : ys.Pairwise fun x y ↦ key y ≤ key x
  stable : ∀ n, ys.filter (key · = n) = xs.filter (key · = n)

/-- **There is one stable sort.** -/
theorem ranked_iff {xs ys : List α} : Ranked key xs ys ↔ ys = xs.mergeSort fun x y ↦ key y ≤ key x := by
  constructor
  · intro h
    refine eq_of_filter_eq key h.sorted (pairwise_mergeSort_key key xs) fun n ↦ ?_
    rw [h.stable, filter_mergeSort]
  · rintro rfl
    exact ⟨pairwise_mergeSort_key key xs, filter_mergeSort key xs⟩

/-- Sorting sees the order of entries with the same key only. -/
theorem mergeSort_congr {xs ys : List α} (h : ∀ n, xs.filter (key · = n) = ys.filter (key · = n)) :
    (xs.mergeSort fun x y ↦ key y ≤ key x) = ys.mergeSort fun x y ↦ key y ≤ key x := by
  refine (ranked_iff key).1 ⟨pairwise_mergeSort_key key xs, fun n ↦ ?_⟩
  rw [filter_mergeSort, h]

end HeaderHints
