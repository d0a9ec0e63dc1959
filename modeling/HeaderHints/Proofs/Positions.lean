import HeaderHints.Proofs.ArgumentSteps

/-!
# Positions in an argument list

An argument list is gone through twice. First the places of its names and bare marks are listed, and those
that go without a type are marked; then the arguments are filled in one by one, and places are counted
along the way to find the marks. `Walks` is the second passage: it takes an argument with its annotation and
its default value in one step, and copies any other token.

The two count differently where an annotation holds a name or a bare mark outside its brackets: such a token
is listed, and passed over with its annotation. The position of an argument in the list is therefore its
count plus the places in the annotations before it, and its mark is the one at its count (`fill_positions`).
So the star of `*args: *Ts` moves the marks of all arguments behind it by one (`fill_misses_argument`).
-/

namespace HeaderHints

namespace Header

variable {types : Types} {next : Nat} {skips : List Bool} {steps : List Step}

namespace Step

/-- How many places have been counted before step `i`. -/
def countBefore (steps : List Step) (i : Nat) : Nat :=
  ((steps.take i).flatMap counted).length

/-- How many places have been passed over before step `i`. -/
def passedBefore (steps : List Step) (i : Nat) : Nat :=
  ((steps.take i).flatMap passed).length

/-- How many places are listed for the tokens before step `i`. -/
def listedBefore (steps : List Step) (i : Nat) : Nat :=
  (listed ((steps.take i).flatMap tokens)).length

end Step

/-- **As many places are listed as are counted and passed over.** -/
theorem length_listed (h : ∀ s ∈ steps, s.Flat) : (listed (steps.flatMap Step.tokens)).length =
    (steps.flatMap Step.counted).length + (steps.flatMap Step.passed).length := by
  induction steps with
  | nil => rfl
  | cons s steps ih =>
    rw [List.forall_mem_cons] at h
    simp only [List.flatMap_cons, listed_append h.1.level, h.1.listed_eq, List.length_append, ih h.2]
    omega

/-- **The mark of an argument is the one at its count**, and it gets the next type that is left. -/
theorem Walks.filled (h : Walks types skips next steps) {i : Nat} {p : Parameter} {skip : Bool}
    (hp : steps[i]? = some (.argument p skip)) :
    skip = skips.getD (Step.countBefore steps i) false ∧
      p.Filled types skip (next + (steps.take i).countP Step.usesType) := by
  induction h generalizing i with
  | done => simp at hp
  | @argument skips next q steps hfilled _ _ ih =>
    cases i with
    | zero =>
      obtain ⟨rfl, rfl⟩ := Step.argument.inj (Option.some.inj hp)
      refine ⟨?_, hfilled⟩
      cases skips <;> rfl
    | succ i =>
      obtain ⟨hskip, hp⟩ := ih hp
      refine ⟨?_, ?_⟩
      · rw [hskip, Step.countBefore, Step.countBefore]
        cases skips <;> simp [Step.counted]
      · have hnext : (if skips.headD false then next else next + 1) + (steps.take i).countP Step.usesType =
            next + ((Step.argument q (skips.headD false) :: steps).take (i + 1)).countP Step.usesType := by
          rw [List.take_succ_cons, List.countP_cons]
          cases skips.headD false with
          | true => simp [Step.usesType]
          | false =>
            simp only [Step.usesType, Bool.false_eq_true, if_false, Bool.not_false, if_true]
            omega
        rwa [hnext] at hp
  | @copied skips next t steps hname _ _ ih =>
    cases i with
    | zero => exact absurd hp (by simp)
    | succ i =>
      obtain ⟨hskip, hp⟩ := ih hp
      refine ⟨?_, ?_⟩
      · rw [hskip, Step.countBefore, Step.countBefore, List.take_succ_cons, List.flatMap_cons,
          Step.counted, place?, if_neg hname]
        by_cases hmark : isBareMark t = true
        · rw [if_pos hmark, if_pos hmark]
          cases skips <;> simp
        · rw [if_neg hmark, if_neg hmark]
          rfl
      · rw [List.take_succ_cons, List.countP_cons]
        exact hp

/-- **The place of a step in the list** is its count plus what has been passed over, and the places that it
counts are listed there. -/
theorem listedBefore_eq (h : ∀ s ∈ steps, s.Flat) {i : Nat} {s : Step}
    (hs : steps[i]? = some s) :
    Step.listedBefore steps i = Step.countBefore steps i + Step.passedBefore steps i ∧
      s.counted <+: (listed (steps.flatMap Step.tokens)).drop (Step.listedBefore steps i) := by
  have htake : ∀ u ∈ steps.take i, u.Flat := fun u hu ↦ h u (List.mem_of_mem_take hu)
  refine ⟨length_listed htake, ?_⟩
  obtain ⟨hi, rfl⟩ := List.getElem?_eq_some_iff.1 hs
  have hsplit : steps.flatMap Step.tokens = (steps.take i).flatMap Step.tokens ++
      (steps[i].tokens ++ (steps.drop (i + 1)).flatMap Step.tokens) := by
    rw [← List.flatMap_cons, ← List.flatMap_append, ← List.drop_eq_getElem_cons hi,
      List.take_append_drop]
  have hflat := h steps[i] (List.getElem_mem hi)
  rw [hsplit, listed_append (level_flatMap htake), Step.listedBefore, List.drop_left, listed_append hflat.level,
    hflat.listed_eq, List.append_assoc]
  exact List.prefix_append _ _

end Header

namespace Suggestion

open Header

/-- **Where an argument stands in the list of places.** Its position is its count plus the number of places
in the annotations before it; whether it goes without a type is decided at its count. -/
theorem fill_positions {source : Source} {g : Suggestion} {header : Header} {filled : Filled}
    (hs : source.Lined) (hread : (Header.read source g.line).1 = .ok header)
    (hreturn : ∀ t ∈ argumentList header.tokens, t.kind ≠ .returnTypeDef)
    (hfill : (g.fill source).1 = .ok filled) :
    ∃ (types : Types) (opening : List Token) (steps : List Step) (closer : Token) (after : List Token)
      (ps : List Header.Place), g.types = .ok types ∧
      header.tokens = opening ++ argumentList header.tokens ++ closer :: after ∧
      argumentList header.tokens = steps.flatMap Step.tokens ∧
      places 0 (argumentTokens header.tokens) = .ok ps ∧
      Filling.finish types (write (steps.foldl Step.write (emitted opening)) closer) after =
        .ok filled.text ∧
      ∀ (i : Nat) (s : Step), steps[i]? = some s →
        s.counted <+: ps.drop (Step.listedBefore steps i) ∧
        Step.listedBefore steps i = Step.countBefore steps i + Step.passedBefore steps i ∧
        ∀ (p : Parameter) (skip : Bool), s = .argument p skip →
          skip = (skipped (ps.count .name - types.args.length) ps).getD (Step.countBefore steps i) false ∧
          p.Filled types skip
            (types.args.length - ps.count .name + (steps.take i).countP Step.usesType) := by
  obtain ⟨written, htokens, hfinished⟩ := finished_of_read hs hread
  obtain ⟨types, htypes, hheader, -⟩ := fill_of_read hread hfill
  rw [htokens] at hreturn hheader ⊢
  obtain ⟨opening, steps, closer, after, ps, hsplit, -, hlist, -, hplaces, hflat, hwalks, hfinish⟩ :=
    fill_walks hfinished hreturn hheader
  refine ⟨types, opening, steps, closer, after, ps, htypes, hsplit, hlist, hplaces, hfinish, ?_⟩
  intro i s hs
  obtain ⟨hposition, hprefix⟩ := listedBefore_eq hflat hs
  have hlisted : ps = listed (steps.flatMap Step.tokens) := by
    rw [← hlist]
    exact places_eq hplaces
  refine ⟨by rw [hlisted]; exact hprefix, hposition, ?_⟩
  rintro p skip rfl
  exact hwalks.filled hs

/-- Three arguments and five places, one of them in an annotation. -/
theorem fill_positions_unpacked : ∃ (types : Types) (steps : List Step) (ps : List Header.Place),
    ps = [.marker, .name, .marker, .name, .name] ∧
    steps.flatMap (fun s ↦ s.tokens.map Token.text) = [['*'], "args".toList, [':'], ['*'], "Ts".toList, [','],
      ['a'], [':'], "int".toList, ['='], ['1'], [','], ['b']] ∧
    ∀ (i : Nat) (s : Step), steps[i]? = some s →
      s.counted <+: ps.drop (Step.listedBefore steps i) ∧
      Step.listedBefore steps i = Step.countBefore steps i + Step.passedBefore steps i ∧
      ∀ (p : Parameter) (skip : Bool), s = .argument p skip →
        skip = (skipped (ps.count .name - types.args.length) ps).getD (Step.countBefore steps i) false ∧
        p.Filled types skip (types.args.length - ps.count .name + (steps.take i).countP Step.usesType) := by
  have hread : (Header.read (Document.ofText "def f(*args: *Ts, a: int = 1, b): pass\n".toList).source 0).1 =
      .ok ⟨[.of .definition "def".toList, .of .functionName ['f'], .of .endSeparator ['('],
        .of .endSeparator ['*'], .of .argumentName "args".toList, .of .typeDef [':'],
        .of .endSeparator ['*'], .of .dottedName "Ts".toList, .of .separator [','],
        .of .argumentName ['a'], .of .typeDef [':'], .of .dottedName "int".toList,
        .of .defaultDef ['='], .of .argumentDefault ['1'], .of .separator [','], .of .argumentName ['b'],
        .of .endSeparator [')'], .of .endDefinition [':'], .of .endSeparator " pass".toList,
        Token.last], 1⟩ := by rfl
  have htypes : Suggestion.types ⟨none, 0, none, 0, ["int".toList, "str".toList], "None".toList⟩ =
      .ok ⟨[[.of .dottedName "int".toList, Token.last], [.of .dottedName "str".toList, Token.last]],
        [.of .dottedName "None".toList, Token.last], []⟩ := by rfl
  have hfill : (Suggestion.fill ⟨none, 0, none, 0, ["int".toList, "str".toList], "None".toList⟩
      (Document.ofText "def f(*args: *Ts, a: int = 1, b): pass\n".toList).source).1 =
      .ok ⟨"def f(*args: *Ts, a: int = 1, b: int) -> None: pass".toList, 1⟩ :=
    fill_eq_ok hread htypes (eq_ok_of_toOption (by decide +kernel))
  obtain ⟨types, -, steps, -, -, ps, -, -, hsteps, hplaces, -, hall⟩ :=
    fill_positions (Document.source_lined _) hread (by decide) hfill
  refine ⟨types, steps, ps, Except.ok.inj (hplaces.symm.trans (by rfl)), ?_, hall⟩
  rw [← List.map_flatMap, ← hsteps]
  rfl

/-- The argument behind `*args: *Ts` takes place 3 of the list, which is not marked, and still goes without a
type: it is counted as place 2. -/
theorem fill_misses_argument : ∃ header,
    (Header.read (Document.ofText "def f(*args: *Ts, b): pass\n".toList).source 0).1 = .ok header ∧
    places 0 (argumentTokens header.tokens) = .ok [.marker, .name, .marker, .name] ∧
    skipped (2 - 2) [.marker, .name, .marker, .name] = [true, false, true, false] ∧
    (Suggestion.fill ⟨none, 0, none, 0, ["int".toList, "str".toList], "None".toList⟩
      (Document.ofText "def f(*args: *Ts, b): pass\n".toList).source).1 =
      .ok ⟨"def f(*args: *Ts, b) -> None: pass".toList, 1⟩ := by
  have hread : (Header.read (Document.ofText "def f(*args: *Ts, b): pass\n".toList).source 0).1 =
      .ok ⟨[.of .definition "def".toList, .of .functionName ['f'], .of .endSeparator ['('],
        .of .endSeparator ['*'], .of .argumentName "args".toList, .of .typeDef [':'],
        .of .endSeparator ['*'], .of .dottedName "Ts".toList, .of .separator [','],
        .of .argumentName ['b'], .of .endSeparator [')'], .of .endDefinition [':'],
        .of .endSeparator " pass".toList, Token.last], 1⟩ := by rfl
  have htypes : Suggestion.types ⟨none, 0, none, 0, ["int".toList, "str".toList], "None".toList⟩ =
      .ok ⟨[[.of .dottedName "int".toList, Token.last], [.of .dottedName "str".toList, Token.last]],
        [.of .dottedName "None".toList, Token.last], []⟩ := by rfl
  exact ⟨_, hread, by rfl, by rfl, fill_eq_ok hread htypes (by rfl)⟩

end Suggestion

end HeaderHints
