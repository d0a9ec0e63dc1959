import HeaderHints.Proofs.ScanEffects
import HeaderHints.Proofs.ScanEnd

/-!
# Blocks

A margin that is wider than the innermost open block opens a block, and a block is closed by a margin that is
narrower or by the end of the source. So indents and dedents balance (`Lexeme.indents_balance`): no lexeme
closes a block that is not open, and at the end of a text none is left open.

`Scan.Balanced` is the invariant. It counts the dedents that are due as well as those that have been
produced: a margin that closes several blocks takes all of them off the scan at once.
-/

namespace HeaderHints

open Lexeme

namespace Scan

/-- The widths of the open blocks, outermost first, on top of the margin of the source itself. -/
def indents (s : Scan) : List Nat :=
  0 :: s.levels.reverse

/-- The blocks that are open are those of the indents without a dedent. -/
structure Balanced (xs : List Lexeme) (c : Context) : Prop where
  nested : (c.levels ++ [0]).Pairwise (· > ·)
  count : c.levels.length + countTag .dedent (xs ++ c.queued) = countTag .indent xs
  exhausted : c.exhausted = true → c.levels = []
  last : ∀ x ∈ xs.getLast?, x.tag = .endMarker → c.levels = [] ∧ c.queued = []

variable {xs : List Lexeme} {x : Lexeme} {c c' : Context}

/-- A lexeme that has nothing to do with blocks. -/
theorem Balanced.other (h : Balanced xs c) (hx : x.tag ∉ [.indent, .dedent, .endMarker])
    (hlevels : c'.levels = c.levels) (hqueued : c'.queued = c.queued) (hexhausted : c'.exhausted = c.exhausted) :
    Balanced (xs ++ [x]) c' := by
  simp only [List.mem_cons, List.not_mem_nil, or_false, not_or] at hx
  obtain ⟨hindent, hdedent, hend⟩ := hx
  refine ⟨hlevels ▸ h.nested, ?_, fun he ↦ ?_, ?_⟩
  · have hcount := h.count
    rw [countTag_append] at hcount
    rw [hlevels, hqueued, countTag_append, countTag_append, countTag_append, countTag_singleton,
      countTag_singleton, if_neg hindent, if_neg hdedent]
    omega
  · rw [hlevels]
    exact h.exhausted (hexhausted ▸ he)
  · intro y hy htag
    obtain rfl : x = y := by simpa using hy
    exact absurd htag hend

/-- Blocks are closed, all at once: those of the lexeme at hand and of the ones that are due now. -/
theorem Balanced.close (h : Balanced xs c) (hidle : c.queued = []) {inner : List Nat} {rest : List Tag}
    (hlevels : c.levels = inner ++ c'.levels) (hrest : rest ∈ [[], [.error]])
    (htags : (x :: c'.queued).map Lexeme.tag = List.replicate inner.length .dedent ++ rest)
    (hexhausted : c'.exhausted = true → c'.levels = []) : Balanced (xs ++ [x]) c' := by
  have hx := due_of_tags hrest htags x List.mem_cons_self
  refine ⟨?_, ?_, hexhausted, ?_⟩
  · have hnested := h.nested
    rw [hlevels, List.append_assoc] at hnested
    exact (List.pairwise_append.1 hnested).2.1
  · have hclosed : countTag .dedent (x :: c'.queued) = inner.length := by
      rw [countTag, htags, List.count_append, List.count_replicate_self]
      simp only [List.mem_cons, List.not_mem_nil, or_false] at hrest
      rcases hrest with rfl | rfl <;> rfl
    have hcount := h.count
    have hindent : x.tag ≠ .indent := by rcases hx with hx | hx <;> simp [hx]
    rw [hidle, List.append_nil, hlevels, List.length_append] at hcount
    rw [List.append_assoc, List.singleton_append, countTag_append, hclosed, countTag_append, countTag_singleton,
      if_neg hindent]
    omega
  · intro y hy htag
    obtain rfl : x = y := by simpa using hy
    rcases hx with hx | hx <;> simp [hx] at htag

/-- The end marker comes when no block is open. -/
theorem Balanced.ended (h : Balanced xs c) (hidle : c.queued = []) (hlevels : c.levels = [])
    (hx : x.tag = .endMarker) (exhausted : Bool) : Balanced (xs ++ [x]) { c with exhausted } := by
  refine ⟨h.nested, ?_, fun _ ↦ hlevels, fun _ _ _ ↦ ⟨hlevels, hidle⟩⟩
  have hcount := h.count
  simp only [hidle, List.append_nil, countTag_append, countTag_singleton, hx] at hcount ⊢
  simpa using hcount

/-- **Blocks, one effect of a scan.** -/
theorem Balanced.effect {r : Option Lexeme × Scan} (h : Balanced xs c) (hidle : c.queued = [])
    (hawake : c.exhausted = false) (hr : Effect c r) : Balanced (xs ++ r.1.toList) r.2.context := by
  cases hr with
  | quiet hc => rwa [hc, Option.toList_none, List.append_nil]
  | last hx hlevels hc => exact hc ▸ h.ended hidle hlevels hx true
  | closeAll htags hc =>
    rw [hc]
    exact h.close hidle (List.append_nil _).symm List.mem_cons_self (htags.trans (List.append_nil _).symm)
      fun _ ↦ rfl
  | @indent x s' width hx hframes hwide hc =>
    rw [hc]
    refine ⟨?_, ?_, fun he ↦ absurd he (by simp [hawake]), ?_⟩
    · refine List.pairwise_cons.2 ⟨fun y hy ↦ ?_, h.nested⟩
      have hnested := h.nested
      cases hlevels : c.levels with
      | nil => simp_all
      | cons level outer =>
        -- the innermost block is wider than the others
        rw [hlevels, List.cons_append, List.pairwise_cons] at hnested
        rw [hlevels, List.headD_cons] at hwide
        rcases List.mem_cons.1 (hlevels ▸ hy) with rfl | hy
        · exact hwide
        · exact (hnested.1 y hy).trans hwide
    · have hcount := h.count
      simp only [hidle, List.append_nil, countTag_append, countTag_singleton, hx, Option.toList_some,
        List.length_cons] at hcount ⊢
      simp only [reduceCtorEq, if_false, if_true]
      omega
    · intro y hy htag
      obtain rfl : x = y := by simpa using hy
      rw [hx] at htag
      exact absurd htag (by simp)
  | dedent _ hlevels hrest htags hc =>
    rw [hc]
    exact h.close hidle hlevels hrest htags fun he ↦ absurd he (by simp [hawake])
  | lineBreak _ hx hc =>
    refine h.other ?_ (by rw [hc]) (by rw [hc]) (by rw [hc])
    rw [hx]
    split <;> simp
  | plain _ hx hc =>
    refine h.other ?_ (by rw [hc]) (by rw [hc]) (by rw [hc])
    simp only [List.mem_cons, List.not_mem_nil, or_false] at hx
    rcases hx with hx | hx | hx | hx <;> simp [hx]
  | error hx _ hc | operator _ hx hc | openString _ hx hc | literal _ hx hc | openField _ _ hx _ hc
  | closeField _ _ _ hx _ hc | closeString _ _ hx hc =>
    exact h.other (by simp [hx]) (by rw [hc]) (by rw [hc]) (by rw [hc])

theorem Run.balanced {source : Source} {first : Nat} {s : Scan} (h : Run source first xs s) :
    Balanced xs s.context := by
  refine h.induct ?_ ?_ ?_ fun h hidle hawake hr ↦ h.effect hidle hawake hr
  · exact ⟨by simp, rfl, by simp, by simp⟩
  · intro xs c x queued h hqueued hx
    refine ⟨h.nested, ?_, h.exhausted, ?_⟩
    · have hindent : x.tag ≠ .indent := by rcases hx with hx | hx <;> simp [hx]
      have hcount := h.count
      rw [hqueued] at hcount
      rw [List.append_assoc, List.singleton_append, hcount, countTag_append, countTag_singleton, if_neg hindent,
        Nat.add_zero]
    · intro y hy htag
      obtain rfl : x = y := by simpa using hy
      rcases hx with hx | hx <;> simp [hx] at htag
  · intro xs c x h hidle hexhausted hx
    exact h.ended hidle (h.exhausted hexhausted) hx c.exhausted

end Scan

namespace Lexeme

open Scan

/-- **Indents and dedents balance.** No start of the lexemes of a text holds more dedents than indents, and
all of them together hold as many. In every state of a scan the widths of the open blocks increase, from the
margin 0 on, and there is one block for each indent so far that has no dedent, due or produced. -/
theorem indents_balance :
    (∀ t : Text, (∀ xs, xs <+: ofText t → countTag .dedent xs ≤ countTag .indent xs) ∧
      countTag .dedent (ofText t) = countTag .indent (ofText t)) ∧
    ∀ {source : Source} {first : Nat} {xs : List Lexeme} {s : Scan}, Run source first xs s →
      s.indents.Pairwise (· < ·) ∧ s.indents.head? = some 0 ∧
      s.indents.length - 1 + countTag .dedent (xs ++ s.queued) = countTag .indent (xs ++ s.queued) := by
  refine ⟨fun t ↦ ⟨fun xs hxs ↦ ?_, ?_⟩, fun {source first xs s} h ↦ ⟨?_, rfl, ?_⟩⟩
  · obtain ⟨s, hs⟩ := exists_run_of_prefix hxs
    have hcount := hs.balanced.count
    rw [countTag_append] at hcount
    omega
  · obtain ⟨s, hs⟩ := exists_run_of_prefix (List.prefix_refl (ofText t))
    obtain ⟨lexemes, last, hall, hlast, -⟩ := exists_last_ofText t
    have hend : last ∈ (ofText t).getLast? := by simp [hall]
    obtain ⟨hlevels, hqueued⟩ := hs.balanced.last last hend hlast
    have hcount := hs.balanced.count
    rw [hlevels, hqueued, List.append_nil, List.length_nil] at hcount
    omega
  · rw [show s.indents = (s.levels ++ [0]).reverse by simp [Scan.indents], List.pairwise_reverse]
    exact h.balanced.nested
  · have hcount := h.balanced.count
    have hindent : countTag .indent s.queued = 0 := List.count_eq_zero.2 fun hmem ↦ by
      obtain ⟨y, hy, htag⟩ := List.mem_map.1 hmem
      rcases h.due y hy with hy | hy <;> simp [hy] at htag
    rw [countTag_append .indent, hindent]
    simpa [Scan.indents, context] using hcount

/-- Margins with a tab and a form feed, a margin that fits no block, and a string that is open at the end. One
of the dedents at the end has been produced, and the other is due. -/
theorem indents_balance_open : ∃ t : Text,
    (ofText t).map Lexeme.tag = [.name, .newline, .indent, .name, .newline, .dedent, .error, .name, .newline,
      .indent, .name, .newline, .indent, .dedent, .dedent, .endMarker] ∧
    (ofText t).take 6 <+: ofText t ∧
    countTag .dedent ((ofText t).take 6) ≤ countTag .indent ((ofText t).take 6) ∧
    countTag .dedent (ofText t) = countTag .indent (ofText t) ∧
    ∃ s, Run (Document.ofText t).source 0 ((ofText t).take 14) s ∧ s.indents.Pairwise (· < ·) ∧
      s.indents.head? = some 0 ∧
      s.indents.length - 1 + countTag .dedent ((ofText t).take 14 ++ s.queued) =
        countTag .indent ((ofText t).take 14 ++ s.queued) := by
  refine ⟨"a\n\tb\n \x0c  c\n    d\n\t'''".toList, by decide +kernel, List.take_prefix .., ?_, ?_, ?_⟩
  · exact (indents_balance.1 _).1 _ (List.take_prefix ..)
  · exact (indents_balance.1 _).2
  · obtain ⟨s, hs⟩ := exists_run_of_prefix (List.take_prefix 14 _)
    exact ⟨s, hs, indents_balance.2 hs⟩

end Lexeme

end HeaderHints
