import HeaderHints.Proofs.Emission

/-!
# Steps of filling in

What is known of a header that has been filled in, part by part: the opening up to the bracket of the
argument list is copied (`copyOpening_ok`); after the argument list comes layout, and then a return
annotation or the closing colon (`finish_ok`); and the rest is copied (`copyRest_ok`). An annotation or a
default value is copied or rendered (`renderOrCopy_cases`); the argument list itself is the subject of other
modules.
-/

namespace HeaderHints.Header

variable {types : Types} {ts : List Token} {out text : Text} {f : Filling}

/-- Whether a token is a round opening bracket. -/
def isRoundOpener (t : Token) : Bool :=
  t.isOpener && t.text = ['(']

/-- The tokens after the bracket that opens the argument list: the first round bracket after `def`. -/
def argumentTokens (ts : List Token) : List Token :=
  ((ts.dropWhile (·.kind ≠ .definition)).dropWhile (!isRoundOpener ·)).tail

namespace Filling

/-- **The opening is copied.** -/
theorem copyOpening_ok {seenDef : Bool} (h : copyOpening seenDef out ts = .ok f) :
    ∃ opening bracket, ts = opening ++ bracket :: f.rest ∧ isRoundOpener bracket = true ∧
      f.out = (opening ++ [bracket]).foldl write out ∧ (∀ t ∈ opening, t.kind ≠ .stop) ∧
      f.rest = if seenDef then (ts.dropWhile (!isRoundOpener ·)).tail else argumentTokens ts := by
  induction ts generalizing seenDef out with
  | nil => exact absurd h (by simp [copyOpening])
  | cons t ts ih =>
    rw [copyOpening] at h
    by_cases hstop : t.kind = .stop
    · rw [if_pos hstop] at h
      exact absurd h (by simp)
    rw [if_neg hstop] at h
    by_cases hdef : t.kind = .definition
    · rw [if_pos hdef] at h
      obtain ⟨opening, bracket, hts, hround, hout, hopen, hrest⟩ := ih h
      have hnot : isRoundOpener t = false := by simp [isRoundOpener, Token.isOpener, hdef]
      refine ⟨t :: opening, bracket, congrArg (t :: ·) hts, hround, hout, ?_, ?_⟩
      · intro u hu
        rcases List.mem_cons.1 hu with rfl | hu
        · exact hstop
        · exact hopen u hu
      · rw [if_pos rfl] at hrest
        refine hrest.trans ?_
        split
        · rw [List.dropWhile_cons_of_pos (by simp [hnot])]
        · rw [argumentTokens, List.dropWhile_cons_of_neg (by simp [hdef]),
            List.dropWhile_cons_of_pos (by simp [hnot])]
    rw [if_neg hdef] at h
    by_cases hround : (seenDef && t.isOpener && t.text = ['(']) = true
    · rw [if_pos hround] at h
      obtain rfl := Except.ok.inj h
      simp only [Bool.and_eq_true, decide_eq_true_eq] at hround
      have hopener : isRoundOpener t = true := by simp [isRoundOpener, hround]
      refine ⟨[], t, rfl, hopener, rfl, by simp, ?_⟩
      rw [if_pos hround.1.1, List.dropWhile_cons_of_neg (by simp [hopener]), List.tail_cons]
    · rw [if_neg hround] at h
      obtain ⟨opening, bracket, hts, hbracket, hout, hopen, hrest⟩ := ih h
      refine ⟨t :: opening, bracket, congrArg (t :: ·) hts, hbracket, hout, ?_, ?_⟩
      · intro u hu
        rcases List.mem_cons.1 hu with rfl | hu
        · exact hstop
        · exact hopen u hu
      · refine hrest.trans ?_
        cases seenDef with
        | true =>
          have hnot : isRoundOpener t = false := by
            simpa [isRoundOpener] using hround
          rw [if_pos rfl, if_pos rfl, List.dropWhile_cons_of_pos (by simp [hnot])]
        | false =>
          rw [if_neg (by simp), if_neg (by simp), argumentTokens, argumentTokens,
            List.dropWhile_cons_of_pos (by simpa using hdef)]

/-- **The rest is copied** up to the end token. -/
theorem copyRest_ok (h : copyRest out ts = .ok text) :
    ∃ tail last junk, ts = tail ++ last :: junk ∧ last.kind = .stop ∧
      (∀ t ∈ tail, t.kind ≠ .stop) ∧ text = tail.foldl write out := by
  induction ts generalizing out with
  | nil => exact absurd h (by simp [copyRest])
  | cons t ts ih =>
    rw [copyRest] at h
    by_cases hstop : t.kind = .stop
    · rw [if_pos hstop] at h
      exact ⟨[], t, ts, rfl, hstop, by simp, (Except.ok.inj h).symm⟩
    · rw [if_neg hstop] at h
      obtain ⟨tail, last, junk, rfl, hlast, htail, rfl⟩ := ih h
      refine ⟨t :: tail, last, junk, rfl, hlast, ?_, rfl⟩
      intro u hu
      rcases List.mem_cons.1 hu with rfl | hu
      · exact hstop
      · exact htail u hu

/-- **What follows the argument list**: layout, and then the closing colon or a return annotation. -/
theorem finish_ok (h : finish types out ts = .ok text) :
    ∃ layout t after, ts = layout ++ t :: after ∧ (∀ u ∈ layout, u.isLayout = true) ∧
      ((t.kind = .endDefinition ∧ ∃ result, inferred types.modules types.result = .ok result ∧
          copyRest (write (writeArrow (layout.foldl write out) ++ result) t) after = .ok text) ∨
        (t.kind = .returnTypeDef ∧ ∃ f, writeAnnotation types.modules
          { rest := after, out := writeArrow (layout.foldl write out) } = .ok f ∧
          copyRest f.out f.rest = .ok text)) := by
  induction ts generalizing out with
  | nil => exact absurd h (by simp [finish])
  | cons t ts ih =>
    rw [finish] at h
    by_cases hend : t.kind = .endDefinition
    · rw [if_pos hend] at h
      obtain ⟨result, hresult, hrest⟩ := bind_eq_ok.1 h
      exact ⟨[], t, ts, rfl, by simp, .inl ⟨hend, result, hresult, hrest⟩⟩
    rw [if_neg hend] at h
    by_cases harrow : t.kind = .returnTypeDef
    · rw [if_pos harrow] at h
      obtain ⟨f, hf, hrest⟩ := bind_eq_ok.1 h
      exact ⟨[], t, ts, rfl, by simp, .inr ⟨harrow, f, hf, hrest⟩⟩
    rw [if_neg harrow] at h
    by_cases hlayout : t.isLayout = true
    · rw [if_pos hlayout] at h
      obtain ⟨layout, u, after, rfl, hall, hcases⟩ := ih h
      refine ⟨t :: layout, u, after, rfl, ?_, hcases⟩
      intro v hv
      rcases List.mem_cons.1 hv with rfl | hv
      · exact hlayout
      · exact hall v hv
    · rw [if_neg hlayout] at h
      exact absurd h (by simp)

/-- **An item is copied, or rendered** where a reader stops at its end. -/
theorem renderOrCopy_cases {f' : Filling} {reader : Reader Text} (h : f.renderOrCopy reader = .ok f') :
    (∃ rest out, copy [] f.out f.rest = .ok (rest, out) ∧ f' = { f with rest, out }) ∨
      ∃ text t more, reader.Takes f.rest text (t :: more) ∧ endsItem t = true ∧
        f' = { f with rest := t :: more, out := f.out ++ text } := by
  have hcopied : (copy [] f.out f.rest >>= fun p ↦ .ok { f with rest := p.1, out := p.2 }) = .ok f' →
      ∃ rest out, copy [] f.out f.rest = .ok (rest, out) ∧ f' = { f with rest, out } := by
    intro hcopy
    obtain ⟨⟨rest, out⟩, hok, heq⟩ := bind_eq_ok.1 hcopy
    exact ⟨rest, out, hok, (Except.ok.inj heq).symm⟩
  unfold renderOrCopy at h
  dsimp only at h
  split at h
  · exact .inl (hcopied h)
  · exact absurd h (by simp)
  · rename_i text t more hread
    split at h
    · rename_i hends
      exact .inr ⟨text, t, more, hread, hends, (Except.ok.inj h).symm⟩
    · exact .inl (hcopied h)

end Filling

end HeaderHints.Header
