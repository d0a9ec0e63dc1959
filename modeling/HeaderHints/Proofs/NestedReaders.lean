import HeaderHints.Proofs.TypeGrammar

/-!
# Calls of the type readers

The readers of types call each other within a bound, and at the end of the bound they give up with a fault
that a lack of tokens gives as well. So the outcome alone does not tell that the bound was large enough.
Here the calls at the end of the bound are made by arbitrary readers instead: `Readers.nested deeper n`
makes `n` calls one within the other as the grammar says, and leaves those further in to `deeper`. With four
calls for each token and four more it makes no difference what `deeper` does (`nested_agrees`), so such calls
are never made, and the recursion of the grammar ends by itself. `Collection.nestedItems_eq` is the same for
the items of a collection.

The reason is that the tokens get fewer: no reader puts a token back (`Reader.Advances`), also when it fails,
and each way around the recursion takes one.
-/

namespace HeaderHints

namespace Reader

variable {α β : Type} {ts mid : List Token} {a : α} {fault : Fault} {r r' : Reader α} {f f' : α → Reader β}

/-! ### Runs of readers in sequence -/

theorem run_bind_of_takes (h : r.Takes ts a mid) : (r >>= f).run.run ts = (f a).run.run mid := by
  show (ExceptT.bindCont f (r.run.run ts).1).run (r.run.run ts).2 = _
  rw [show r.run.run ts = (.ok a, mid) from h]
  rfl

theorem run_bind_of_error (h : r.run.run ts = (.error fault, mid)) :
    (r >>= f).run.run ts = (.error fault, mid) := by
  show (ExceptT.bindCont f (r.run.run ts).1).run (r.run.run ts).2 = _
  rw [h]
  rfl

/-- A reader takes something, or it fails. -/
theorem takes_or_error (r : Reader α) (ts : List Token) :
    (∃ a mid, r.Takes ts a mid) ∨ ∃ fault mid, r.run.run ts = (.error fault, mid) := by
  rcases h : r.run.run ts with ⟨fault | a, mid⟩
  · exact .inr ⟨fault, mid, rfl⟩
  · exact .inl ⟨a, mid, h⟩

/-- Two sequences run alike, if their first readers do, and if the others do on what is left over. -/
theorem run_bind_congr (h : r.run.run ts = r'.run.run ts)
    (hf : ∀ a mid, r.Takes ts a mid → (f a).run.run mid = (f' a).run.run mid) :
    (r >>= f).run.run ts = (r' >>= f').run.run ts := by
  rcases takes_or_error r ts with ⟨a, mid, htake⟩ | ⟨fault, mid, herror⟩
  · rw [run_bind_of_takes htake, run_bind_of_takes (h.symm.trans htake), hf a mid htake]
  · rw [run_bind_of_error herror, run_bind_of_error (h.symm.trans herror)]

theorem run_ite_congr {c : Prop} [Decidable c] {x x' y y' : Reader α} (hx : x.run.run ts = x'.run.run ts)
    (hy : y.run.run ts = y'.run.run ts) :
    (if c then x else y).run.run ts = (if c then x' else y').run.run ts := by
  by_cases h : c
  · rwa [if_pos h, if_pos h]
  · rwa [if_neg h, if_neg h]

/-! ### Readers that put nothing back -/

/-- Whether the reader succeeds or not, it leaves the end of the tokens it was given. -/
def Advances (r : Reader α) : Prop :=
  ∀ ts, (r.run.run ts).2 <:+ ts

/-- When the reader succeeds, it has taken a token. -/
def Consumes (r : Reader α) : Prop :=
  ∀ ts a rest, r.Takes ts a rest → rest.length < ts.length

theorem Advances.le {rest : List Token} (h : r.Advances) (htake : r.Takes ts a rest) :
    rest.length ≤ ts.length := by
  have hle := (h ts).length_le
  rwa [show r.run.run ts = (.ok a, rest) from htake] at hle

theorem Advances.bind (hr : r.Advances) (hf : ∀ a, (f a).Advances) : (r >>= f).Advances := by
  intro ts
  rcases takes_or_error r ts with ⟨a, mid, htake⟩ | ⟨fault, mid, herror⟩
  · rw [run_bind_of_takes htake]
    have hmid : mid <:+ ts := by simpa only [show r.run.run ts = (.ok a, mid) from htake] using hr ts
    exact (hf a mid).trans hmid
  · rw [run_bind_of_error herror]
    simpa only [herror] using hr ts

theorem advances_pure : Advances (pure a) := List.suffix_refl

theorem advances_throw : Advances (throw fault : Reader α) := List.suffix_refl

theorem advances_ite {c : Prop} [Decidable c] (hr : r.Advances) (hr' : r'.Advances) :
    (if c then r else r').Advances := by
  split
  · exact hr
  · exact hr'

theorem advances_get : Advances get := List.suffix_refl

theorem advances_peek : Advances peek
  | [] => List.suffix_refl _
  | _ :: _ => List.suffix_refl _

theorem advances_next : Advances next
  | [] => List.suffix_refl _
  | t :: ts => List.suffix_cons t ts

theorem Advances.map {g : α → β} (hr : r.Advances) : (g <$> r).Advances := by
  rw [map_eq_pure_bind]
  exact hr.bind fun _ ↦ advances_pure

theorem advances_peekText : Advances peekText :=
  advances_peek.map

theorem advances_expect {wanted : Text} : Advances (expect wanted) :=
  advances_next.bind fun _ ↦ advances_ite advances_pure advances_throw

theorem advances_expectKind {wanted : List Token.Kind} : Advances (expectKind wanted) :=
  advances_next.bind fun _ ↦ advances_ite advances_pure advances_throw

theorem advances_atEnd : Advances atEnd :=
  List.suffix_refl

/-- A sequence takes a token, if its first reader does. -/
theorem Consumes.bind (hr : r.Consumes) (hf : ∀ a, (f a).Advances) : (r >>= f).Consumes := by
  intro ts b rest h
  obtain ⟨a, mid, ha, hb⟩ := takes_bind.1 h
  exact Nat.lt_of_le_of_lt ((hf a).le hb) (hr ts a mid ha)

theorem consumes_next : Consumes next := by
  intro ts t rest h
  rw [takes_next.1 h]
  exact Nat.lt_succ_self _

theorem consumes_expect {wanted : Text} : Consumes (expect wanted) := by
  intro ts u rest h
  obtain ⟨t, rfl, -⟩ := takes_expect.1 h
  exact Nat.lt_succ_self _

theorem consumes_expectKind {wanted : List Token.Kind} : Consumes (expectKind wanted) := by
  intro ts t rest h
  rw [(takes_expectKind.1 h).1]
  exact Nat.lt_succ_self _

theorem Consumes.map {g : α → β} (hr : r.Consumes) : (g <$> r).Consumes := by
  rw [map_eq_pure_bind]
  exact hr.bind fun _ ↦ advances_pure

end Reader

namespace TypeExpr

open Reader

/-! ### The grammar, with its calls left open -/

/-- A reader for each part of a type. -/
structure Readers where
  /-- A type without a bar at its top level. -/
  single : Reader TypeExpr
  /-- Items between brackets. -/
  bracketed : Text → Text → Reader (List TypeExpr)
  /-- Types divided by commas, up to a closing bracket. -/
  items : Reader (List TypeExpr)
  /-- Single types divided by bars. -/
  choices : Reader (List TypeExpr)

namespace Readers

/-- What follows a name. -/
def named (r : Readers) (name : Text) : Reader TypeExpr := do
  if name = "Any".toList then
    return leaf name
  else if name = "mypy_extensions.NoReturn".toList || name = "typing.NoReturn".toList then
    return leaf "NoReturn".toList
  else if name = "Tuple".toList then
    return node name (← r.bracketed ['['] [']'])
  else if name = "Union".toList then
    match ← r.bracketed ['['] [']'] with
    | [] => throw .emptyUnion
    | ts => return ofChoices ts
  else if name = "lambda".toList then
    return lambda (← readLambdaBody)
  else if name = "Overload".toList then
    return node name (← r.bracketed ['('] [')'])
  else if (← peekText) = ['['] then
    match ← r.bracketed ['['] [']'] with
    | [t] => return if name = "Optional".toList then optional t else node name [t]
    | ts => return node name ts
  else
    return leaf name

/-- One round of the grammar. The calls in it are made by `r`. -/
def round (r : Readers) : Readers where
  single := do
    if (← peekText) = ['['] then
      return node [] (← r.bracketed ['['] [']'])
    r.named (← expectKind [.dottedName]).text
  bracketed opening closing := do
    expect opening
    let ts ← r.items
    expect closing
    return ts
  items := do
    let ahead ← peekText
    if ahead = [')'] || ahead = [']'] then
      return []
    let t := ofChoices (← r.choices)
    let ahead ← peekText
    if ahead = [','] then
      expect [',']
      return t :: (← r.items)
    else if ahead = [')'] || ahead = [']'] then
      return [t]
    else
      throw (.expectedListEnd ahead)
  choices := do
    let t ← r.single
    if (← peekText) = ['|'] then
      expect ['|']
      return t :: (← r.choices)
    else
      return [t]

/-- `n` rounds of the grammar, one within the other. The calls further in are made by `deeper`. -/
def nested (deeper : Readers) : Nat → Readers
  | 0 => deeper
  | n + 1 => (nested deeper n).round

/-- The readers with a bound. -/
def within (n : Nat) : Readers :=
  ⟨readSingleWithin n, readBracketedWithin n, readItemsWithin n, readChoicesWithin n⟩

theorem within_succ (n : Nat) : within (n + 1) = (within n).round := by
  have hsingle : readSingleWithin (n + 1) = (within n).round.single := by
    rw [readSingleWithin]
    rfl
  have hbracketed : readBracketedWithin (n + 1) = (within n).round.bracketed := by
    funext opening closing
    rw [readBracketedWithin]
    rfl
  have hitems : readItemsWithin (n + 1) = (within n).round.items := by
    rw [readItemsWithin]
    rfl
  have hchoices : readChoicesWithin (n + 1) = (within n).round.choices := by
    rw [readChoicesWithin]
    rfl
  show Readers.mk _ _ _ _ = _
  rw [hsingle, hbracketed, hitems, hchoices]

/-! ### The grammar takes tokens -/

/-- No reader puts a token back. -/
structure Advance (r : Readers) : Prop where
  single : r.single.Advances
  bracketed : ∀ opening closing, (r.bracketed opening closing).Advances
  items : r.items.Advances
  choices : r.choices.Advances

theorem advances_readLambdaBody : Advances readLambdaBody :=
  advances_expectKind.map

theorem Advance.named {r : Readers} (h : r.Advance) (name : Text) : (r.named name).Advances := by
  have hlist : ∀ {opening closing : Text} {f : List TypeExpr → Reader TypeExpr}, (∀ ts, (f ts).Advances) →
      (r.bracketed opening closing >>= f).Advances := (h.bracketed _ _).bind
  unfold Readers.named
  refine advances_ite advances_pure (advances_ite advances_pure (advances_ite (hlist fun _ ↦ advances_pure)
    (advances_ite (hlist fun ts ↦ ?_) (advances_ite (advances_readLambdaBody.bind fun _ ↦ advances_pure)
    (advances_ite (hlist fun _ ↦ advances_pure) (advances_peekText.bind fun ahead ↦
      advances_ite (hlist fun ts ↦ ?_) advances_pure))))))
  · split
    · exact advances_throw
    · exact advances_pure
  · split <;> exact advances_pure

theorem Advance.round {r : Readers} (h : r.Advance) : r.round.Advance where
  single := advances_peekText.bind fun _ ↦ advances_ite ((h.bracketed _ _).bind fun _ ↦ advances_pure)
    (advances_expectKind.bind fun _ ↦ h.named _)
  bracketed opening closing :=
    advances_expect.bind fun _ ↦ h.items.bind fun _ ↦ advances_expect.bind fun _ ↦ advances_pure
  items := by
    have hmore : ∀ t, (expect [','] >>= fun _ ↦ r.items >>= fun ts ↦ (pure (t :: ts) : Reader _)).Advances :=
      fun t ↦ advances_expect.bind fun _ ↦ h.items.bind fun _ ↦ advances_pure
    exact advances_peekText.bind fun _ ↦ advances_ite advances_pure (h.choices.bind fun _ ↦
      advances_peekText.bind fun _ ↦ advances_ite (hmore _) (advances_ite advances_pure advances_throw))
  choices := by
    have hmore : ∀ t, (expect ['|'] >>= fun _ ↦ r.choices >>= fun ts ↦ (pure (t :: ts) : Reader _)).Advances :=
      fun t ↦ advances_expect.bind fun _ ↦ h.choices.bind fun _ ↦ advances_pure
    exact h.single.bind fun _ ↦ advances_peekText.bind fun _ ↦ advances_ite (hmore _) advances_pure

theorem advance_within (n : Nat) : (within n).Advance := by
  induction n with
  | zero =>
    show (Readers.mk _ _ _ _).Advance
    rw [readSingleWithin, readItemsWithin, readChoicesWithin]
    refine ⟨advances_throw, fun opening closing ↦ ?_, advances_throw, advances_throw⟩
    show (readBracketedWithin 0 opening closing).Advances
    rw [readBracketedWithin]
    exact advances_throw
  | succ n ih =>
    rw [within_succ]
    exact ih.round

/-! ### The calls that are made -/

/-- Two sets of readers do the same with a part of a type. -/
def Agree (r r' : Readers) : Part → List Token → Prop
  | .single, ts => r.single.run.run ts = r'.single.run.run ts
  | .bracketed opening closing, ts =>
    (r.bracketed opening closing).run.run ts = (r'.bracketed opening closing).run.run ts
  | .items, ts => r.items.run.run ts = r'.items.run.run ts
  | .choices, ts => r.choices.run.run ts = r'.choices.run.run ts

variable {r r' : Readers} {ts : List Token}

theorem named_congr {name : Text} (h : ∀ opening closing, Agree r r' (.bracketed opening closing) ts) :
    (r.named name).run.run ts = (r'.named name).run.run ts := by
  have hlist : ∀ {opening closing : Text} {f : List TypeExpr → Reader TypeExpr},
      (r.bracketed opening closing >>= f).run.run ts = (r'.bracketed opening closing >>= f).run.run ts :=
    run_bind_congr (h _ _) fun _ _ _ ↦ rfl
  unfold Readers.named
  refine run_ite_congr rfl (run_ite_congr rfl (run_ite_congr hlist (run_ite_congr hlist
    (run_ite_congr rfl (run_ite_congr hlist (run_bind_congr rfl fun ahead mid hpeek ↦ ?_))))))
  obtain ⟨t, more, rfl, rfl, rfl⟩ := takes_peekText.1 hpeek
  exact run_ite_congr hlist rfl

/-- The calls of one round concern fewer tokens, or parts that come sooner to their first token. -/
theorem round_agree {p : Part} (hadvance : r.Advance)
    (h : ∀ q ts', 4 * ts'.length + q.slack < 4 * ts.length + p.slack → Agree r r' q ts') :
    Agree r.round r'.round p ts := by
  cases p with
  | single =>
    refine run_bind_congr rfl fun ahead mid hpeek ↦ ?_
    obtain ⟨t, more, rfl, rfl, rfl⟩ := takes_peekText.1 hpeek
    refine run_ite_congr (run_bind_congr (h (.bracketed _ _) _ ?_) fun _ _ _ ↦ rfl) ?_
    · exact Nat.add_lt_add_left (by decide) _
    refine run_bind_congr rfl fun t' mid htake ↦ named_congr fun opening closing ↦ h (.bracketed _ _) _ ?_
    have hlt := consumes_expectKind _ _ _ htake
    simp only [Part.slack]
    omega
  | bracketed opening closing =>
    refine run_bind_congr rfl fun _ mid hopen ↦ run_bind_congr (h .items mid ?_) fun _ _ _ ↦ rfl
    have hlt := consumes_expect _ _ _ hopen
    simp only [Part.slack]
    omega
  | items =>
    refine run_bind_congr rfl fun ahead mid hpeek ↦ ?_
    obtain ⟨t, more, rfl, rfl, rfl⟩ := takes_peekText.1 hpeek
    refine run_ite_congr rfl (run_bind_congr (h .choices _ ?_) fun choices mid hchoices ↦ ?_)
    · exact Nat.add_lt_add_left (by decide) _
    have hle := hadvance.choices.le hchoices
    refine run_bind_congr rfl fun ahead mid hpeek ↦ ?_
    obtain ⟨u, more, rfl, rfl, rfl⟩ := takes_peekText.1 hpeek
    refine run_ite_congr (run_bind_congr rfl fun _ mid hcomma ↦ ?_) rfl
    have hlt := consumes_expect _ _ _ hcomma
    refine run_bind_congr (h .items mid ?_) fun _ _ _ ↦ rfl
    simp only [Part.slack]
    omega
  | choices =>
    refine run_bind_congr (h .single _ ?_) fun t mid hsingle ↦ ?_
    · exact Nat.add_lt_add_left (by decide) _
    have hle := hadvance.single.le hsingle
    refine run_bind_congr rfl fun ahead mid hpeek ↦ ?_
    obtain ⟨u, more, rfl, rfl, rfl⟩ := takes_peekText.1 hpeek
    refine run_ite_congr (run_bind_congr rfl fun _ mid hbar ↦ ?_) rfl
    have hlt := consumes_expect _ _ _ hbar
    refine run_bind_congr (h .choices mid ?_) fun _ _ _ ↦ rfl
    simp only [Part.slack]
    omega

/-- **The bound is not met.** With four calls for each token, the calls further in are not made. -/
theorem within_agree_nested {deeper : Readers} {n m : Nat} {p : Part} (hn : 4 * ts.length + p.slack ≤ n)
    (hm : 4 * ts.length + p.slack ≤ m) : Agree (within n) (nested deeper m) p ts := by
  induction n generalizing m p ts with
  | zero => cases p <;> simp only [Part.slack] at hn <;> omega
  | succ n ih =>
    have hpos : 0 < p.slack := by cases p <;> exact Nat.succ_pos _
    obtain ⟨m, rfl⟩ : ∃ k, m = k + 1 := ⟨m - 1, by omega⟩
    rw [within_succ]
    exact round_agree (advance_within n) fun q ts' hlt ↦ ih (by omega) (by omega)

end Readers

/-! ### Readers without a bound -/

variable {ts : List Token}

theorem run_unbounded {α : Type} {reader : Nat → Reader α} :
    (unbounded reader).run.run ts = (reader (4 * ts.length + 4)).run.run ts :=
  rfl

theorem advances_unbounded {α : Type} {reader : Nat → Reader α} (h : ∀ n, (reader n).Advances) :
    (unbounded reader).Advances :=
  advances_get.bind fun _ ↦ h _

theorem advances_readSingle : readSingle.Advances :=
  advances_unbounded fun n ↦ (Readers.advance_within n).single

theorem advances_readItems : readItems.Advances :=
  advances_unbounded fun n ↦ (Readers.advance_within n).items

theorem advances_readChoices : readChoices.Advances :=
  advances_unbounded fun n ↦ (Readers.advance_within n).choices

theorem advances_read : read.Advances :=
  advances_readChoices.map

theorem advances_readWhole : readWhole.Advances :=
  advances_read.bind fun _ ↦ advances_atEnd.bind fun _ ↦
    advances_ite advances_pure (advances_peek.bind fun _ ↦ advances_throw)

/-- How many tokens a part takes at least. -/
def Part.least : Part → Nat
  | items => 0
  | _ => 1

theorem length_add_least_le {p : Part} {trees : List TypeExpr} {rest : List Token}
    (h : Derives p ts trees rest) : rest.length + p.least ≤ ts.length := by
  induction h <;> simp only [List.length_cons, Part.least] at * <;> omega

theorem consumes_readSingle : readSingle.Consumes := fun _ t _ h ↦
  length_add_least_le (derives_of_takes (p := .single) ⟨t, takes_unbounded.1 h, rfl⟩)

theorem consumes_readChoices : readChoices.Consumes := fun _ _ _ h ↦
  length_add_least_le (derives_of_takes (p := .choices) (takes_unbounded.1 h))

theorem consumes_read : read.Consumes :=
  consumes_readChoices.map

theorem consumes_readWhole : readWhole.Consumes :=
  consumes_read.bind fun _ ↦ advances_atEnd.bind fun _ ↦
    advances_ite advances_pure (advances_peek.bind fun _ ↦ advances_throw)

/-- On these tokens, `n` rounds of the grammar do what the readers without a bound do. No call gets further in,
so it makes no difference which readers would answer it. -/
structure EndsWithin (n : Nat) (ts : List Token) : Prop where
  single : ∀ deeper, (Readers.nested deeper n).single.run.run ts = readSingle.run.run ts
  items : ∀ deeper, (Readers.nested deeper n).items.run.run ts = readItems.run.run ts
  choices : ∀ deeper, (Readers.nested deeper n).choices.run.run ts = readChoices.run.run ts

/-- **The recursion of the grammar ends.** -/
theorem endsWithin {n : Nat} (hn : 4 * ts.length + 4 ≤ n) : EndsWithin n ts := by
  have hagree : ∀ p deeper, p.slack ≤ 4 →
      Readers.Agree (.within (4 * ts.length + 4)) (.nested deeper n) p ts := fun p deeper hp ↦
    Readers.within_agree_nested (Nat.add_le_add_left hp _) (Nat.le_trans (Nat.add_le_add_left hp _) hn)
  refine ⟨fun deeper ↦ ?_, fun deeper ↦ ?_, fun deeper ↦ ?_⟩
  · rw [readSingle, run_unbounded]
    exact (hagree .single deeper (by decide)).symm
  · rw [readItems, run_unbounded]
    exact (hagree .items deeper (by decide)).symm
  · rw [readChoices, run_unbounded]
    exact (hagree .choices deeper (by decide)).symm

end TypeExpr

/-! ### Collection displays -/

namespace Collection

open Reader

variable {closing : Text} {pairs : Bool} {again again' : Reader (List TypeExpr × Bool)} {ts : List Token}

/-- What follows an item. The items behind a comma are read by `again`. -/
def afterItem (closing : Text) (again : Reader (List TypeExpr × Bool)) (item : TypeExpr) :
    Reader (List TypeExpr × Bool) := do
  let ahead ← peekText
  if ahead = [','] then
    expect [',']
    let (items, trailing) ← again
    return (item :: items, items.isEmpty || trailing)
  else if ahead = closing then
    return ([item], false)
  else
    throw (.expectedCloser closing ahead)

/-- One item and what follows it. -/
def itemsRound (closing : Text) (pairs : Bool) (again : Reader (List TypeExpr × Bool)) :
    Reader (List TypeExpr × Bool) := do
  if (← peekText) = closing then
    return ([], false)
  let item ← TypeExpr.read
  if pairs then
    expect [':']
    afterItem closing again (.pair item (← TypeExpr.read))
  else
    afterItem closing again item

/-- `n` items, one after the other. What comes after them is left to `deeper`. -/
def nestedItems (closing : Text) (pairs : Bool) (deeper : Reader (List TypeExpr × Bool)) :
    Nat → Reader (List TypeExpr × Bool)
  | 0 => deeper
  | n + 1 => itemsRound closing pairs (nestedItems closing pairs deeper n)

theorem readItemsWithin_succ (n : Nat) :
    readItemsWithin closing pairs (n + 1) = itemsRound closing pairs (readItemsWithin closing pairs n) := by
  rw [readItemsWithin]
  cases pairs <;> rfl

theorem advances_afterItem {item : TypeExpr} (h : again.Advances) : (afterItem closing again item).Advances :=
  advances_peekText.bind fun _ ↦ advances_ite
    (advances_expect.bind fun _ ↦ h.bind fun _ ↦ advances_pure) (advances_ite advances_pure advances_throw)

theorem advances_itemsRound (h : again.Advances) : (itemsRound closing pairs again).Advances :=
  advances_peekText.bind fun _ ↦ advances_ite advances_pure
    (TypeExpr.advances_read.bind fun _ ↦ advances_ite
      (advances_expect.bind fun _ ↦ TypeExpr.advances_read.bind fun _ ↦ advances_afterItem h)
      (advances_afterItem h))

theorem advances_readItemsWithin (n : Nat) : (readItemsWithin closing pairs n).Advances := by
  induction n with
  | zero => exact advances_throw
  | succ n ih =>
    rw [readItemsWithin_succ]
    exact advances_itemsRound ih

/-- A collection display puts nothing back, and takes its opening bracket at least. -/
theorem advances_read : read.Advances := by
  refine advances_next.bind fun t ↦ ?_
  split
  · exact advances_throw
  · exact advances_get.bind fun _ ↦ (advances_readItemsWithin _).bind fun _ ↦
      advances_expect.bind fun _ ↦ advances_pure

theorem consumes_read : read.Consumes := by
  refine consumes_next.bind fun t ↦ ?_
  split
  · exact advances_throw
  · exact advances_get.bind fun _ ↦ (advances_readItemsWithin _).bind fun _ ↦
      advances_expect.bind fun _ ↦ advances_pure

theorem afterItem_congr {item : TypeExpr}
    (h : ∀ mid, mid.length < ts.length → again.run.run mid = again'.run.run mid) :
    (afterItem closing again item).run.run ts = (afterItem closing again' item).run.run ts := by
  refine run_bind_congr rfl fun ahead mid hpeek ↦ ?_
  obtain ⟨t, more, rfl, rfl, rfl⟩ := takes_peekText.1 hpeek
  refine run_ite_congr (run_bind_congr rfl fun _ mid hcomma ↦ ?_) rfl
  exact run_bind_congr (h mid (consumes_expect _ _ _ hcomma)) fun _ _ _ ↦ rfl

theorem itemsRound_congr (h : ∀ mid, mid.length < ts.length → again.run.run mid = again'.run.run mid) :
    (itemsRound closing pairs again).run.run ts = (itemsRound closing pairs again').run.run ts := by
  refine run_bind_congr rfl fun ahead mid hpeek ↦ ?_
  obtain ⟨t, more, rfl, rfl, rfl⟩ := takes_peekText.1 hpeek
  refine run_ite_congr rfl (run_bind_congr rfl fun item mid hread ↦ ?_)
  have hle := TypeExpr.advances_read.le hread
  refine run_ite_congr (run_bind_congr rfl fun _ mid' hcolon ↦ run_bind_congr rfl fun value mid'' hvalue ↦ ?_)
    (afterItem_congr fun rest hrest ↦ h rest (Nat.lt_of_lt_of_le hrest hle))
  have hle' := advances_expect.le hcolon
  have hle'' := TypeExpr.advances_read.le hvalue
  exact afterItem_congr fun rest hrest ↦ h rest (by omega)

/-- **The items of a collection end**: a token for each of them, and one more round for what follows. -/
theorem nestedItems_eq {deeper : Reader (List TypeExpr × Bool)} {n m : Nat} (hn : ts.length < n)
    (hm : ts.length < m) :
    (nestedItems closing pairs deeper m).run.run ts = (readItemsWithin closing pairs n).run.run ts := by
  induction n generalizing m ts with
  | zero => exact absurd hn (Nat.not_lt_zero _)
  | succ n ih =>
    obtain ⟨m, rfl⟩ : ∃ k, m = k + 1 := ⟨m - 1, by omega⟩
    rw [readItemsWithin_succ]
    exact itemsRound_congr fun mid hmid ↦ ih (by omega) (by omega)

end Collection

end HeaderHints
