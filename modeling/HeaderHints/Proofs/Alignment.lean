import HeaderHints.Proofs.ArgumentSteps

/-!
# Which argument gets which type

Types are matched to the names of arguments from the right (`fill_aligned`). With `n` names outside
brackets and `m` types, name number `k` keeps its own annotation if it has one; otherwise it goes without a
type when `k + m < n`, and gets the type number `k + m - n` when not. Filling in does not compute this
number. It marks the places that go without a type beforehand, bare marks among them, and counts the types
along the way; `Walks.listing` follows both counts through the argument list.

No annotation may hold a name or a bare mark outside its brackets, since these would take places of their
own. For default values this holds of any header.
-/

namespace HeaderHints

namespace Header

open TypeExpr

variable {types : Types} {us : List Token}

/-! ### Arguments in their places -/

/-- The annotations behind names of arguments hold no names and no bare marks outside their brackets. -/
def PlainAnnotations : List Token → Prop
  | name :: colon :: ts =>
    (name.kind = .argumentName → colon.kind = .typeDef → ∀ t ∈ outer 0 (item 0 ts), Placeless t) ∧
      PlainAnnotations (colon :: ts)
  | _ => True

instance decidablePlainAnnotations : (ts : List Token) → Decidable (PlainAnnotations ts)
  | [] | [_] => isTrue trivial
  | _ :: colon :: ts =>
    have := decidablePlainAnnotations (colon :: ts)
    inferInstanceAs (Decidable (_ ∧ _))

theorem PlainAnnotations.append_right (ts : List Token) (h : PlainAnnotations (ts ++ us)) :
    PlainAnnotations us := by
  induction ts with
  | nil => exact h
  | cons t ts ih =>
    cases hrest : ts ++ us with
    | nil =>
      obtain ⟨-, rfl⟩ := List.append_eq_nil_iff.1 hrest
      trivial
    | cons u more =>
      rw [List.cons_append, hrest, PlainAnnotations] at h
      exact ih (hrest ▸ h.2)

/-- An argument in its place: the first `untyped` arguments go without a type, and the others get the
types from number `next` on, unless they have an annotation. -/
structure Parameter.Fits (types : Types) (untyped next k : Nat) (p : Parameter) : Prop where
  name_kind : p.name.kind = .argumentName
  valued : p.Valued
  nameless : ∀ t ∈ p.tail, t.kind ≠ .argumentName
  typed : p.Annotated types.modules ∨ (k < untyped → p.Typed types.modules none) ∧
    (untyped ≤ k → ∃ tokens, types.args[next + (k - untyped)]? = some tokens ∧
      p.Typed types.modules (some tokens))

/-- The tokens of an argument list as its arguments, with some tokens before the first, and the text
before and after them. -/
structure Listing (types : Types) (untyped next : Nat) (body : List Token) (out out' : Text)
    (lead : List Token) (parameters : List Parameter) : Prop where
  tokens_eq : body = lead ++ parameters.flatMap Parameter.tokens
  nameless : ∀ t ∈ lead, t.kind ≠ .argumentName
  names_eq : parameters.map Parameter.name = (outer 0 body).filter (·.kind = .argumentName)
  fits : ∀ (k : Nat) (p : Parameter), parameters[k]? = some p → p.Fits types untyped next k
  out_eq : out' = parameters.foldl Parameter.write (lead.foldl write out)

variable {untyped untyped' next next' : Nat} {body lead : List Token} {out out' : Text}
  {parameters : List Parameter}

/-- A place further on: the first name either goes without a type or takes the next one. -/
theorem Parameter.Fits.succ {k : Nat} {p : Parameter} (h : p.Fits types untyped' next' k)
    (hcount : untyped = untyped' + 1 ∧ next' = next ∨ untyped = 0 ∧ untyped' = 0 ∧ next' = next + 1) :
    p.Fits types untyped next (k + 1) := by
  obtain ⟨hname, hvalued, hnameless, htyped⟩ := h
  refine ⟨hname, hvalued, hnameless, htyped.imp_right fun htyped ↦ ?_⟩
  refine ⟨fun hlt ↦ htyped.1 (by omega), fun hle ↦ ?_⟩
  rw [show next + (k + 1 - untyped) = next' + (k - untyped') by omega]
  exact htyped.2 (by omega)

namespace Listing

/-- One more argument in front. -/
theorem parameter {p : Parameter} (h : Listing types untyped' next' body (out ++ p.name.text ++ p.type ++
      p.valueText) out' p.tail parameters) (hp : p.Fits types untyped next 0)
    (hcount : untyped = untyped' + 1 ∧ next' = next ∨ untyped = 0 ∧ untyped' = 0 ∧ next' = next + 1)
    (hneutral : Neutral (p.hint ++ p.value)) :
    Listing types untyped next (p.name :: (p.hint ++ p.value ++ body)) out out' []
      (p :: parameters) := by
  have hname := hp.name_kind
  refine ⟨?_, by simp, ?_, ?_, ?_⟩
  · rw [h.tokens_eq]
    simp [Parameter.tokens]
  · -- the annotation and the default value hold no further names
    have hnone : (outer 0 (p.hint ++ p.value)).filter (·.kind = .argumentName) = [] :=
      List.filter_eq_nil_iff.2 fun t ht ↦ by simpa using (hneutral.placeless t ht).1
    rw [outer, if_pos rfl, nest_of_kind (by simp [hname]), outer_append, hneutral.level,
      List.filter_cons, if_pos (by simpa using hname), List.filter_append, hnone, List.nil_append,
      ← h.names_eq]
    rfl
  · intro k q hq
    cases k with
    | zero =>
      obtain rfl : p = q := by simpa using hq
      exact hp
    | succ k => exact (h.fits k q (by simpa using hq)).succ hcount
  · rw [h.out_eq]
    rfl

/-- One more copied token in front. -/
theorem copied {t : Token} (h : Listing types untyped next body (write out t) out' lead parameters)
    (hname : t.kind ≠ .argumentName) (hnest : nest 0 t = 0) :
    Listing types untyped next (t :: body) out out' (t :: lead) parameters := by
  refine ⟨?_, ?_, ?_, h.fits, h.out_eq⟩
  · rw [h.tokens_eq]
    rfl
  · intro u hu
    rcases List.mem_cons.1 hu with rfl | hu
    · exact hname
    · exact h.nameless u hu
  · rw [outer, if_pos rfl, hnest, List.filter_cons, if_neg (by simpa using hname)]
    exact h.names_eq

end Listing

namespace Parameter.Filled

variable {skip : Bool} {p : Parameter} {rest : List Token}

/-- An argument with a plain annotation takes no place but that of its name. -/
theorem neutral_of_plain (h : p.Filled types skip next) (hfollowed : p.Followed rest)
    (hplain : PlainAnnotations (p.tokens ++ rest)) : Neutral (p.hint ++ p.value) := by
  refine Neutral.append ?_ h.neutral
  have htyped : ∀ {type?}, p.Typed types.modules type? → Neutral p.hint := by
    intro type? htyped
    rw [htyped.1]
    exact .nil
  rcases h.typed with ⟨colon, region, text, hhint, hcolon, hspan, -⟩ | hcase
  · have hitem : item 0 (region ++ (p.value ++ rest)) = region := by
      refine item_append hspan fun t ht ↦ ?_
      have ht := hfollowed t ht
      rwa [if_neg (by simp [hhint])] at ht
    rw [h.tokens_eq, hhint, List.cons_append, List.cons_append, List.cons_append, List.append_assoc,
      PlainAnnotations, hitem] at hplain
    have hfirst : Neutral [colon] := .single (by simp [hcolon]) (by simp [hcolon])
    rw [hhint]
    exact hfirst.append (.of_span hspan (hplain.1 h.name_kind hcolon))
  · split at hcase
    · exact htyped hcase
    · obtain ⟨tokens, -, hcase⟩ := hcase
      exact htyped hcase

/-- An argument with the tokens up to the next one. -/
theorem fits {tail more : List Token} (h : p.Filled types skip next) (hfollowed : p.Followed (tail ++ more))
    (hnameless : ∀ t ∈ tail, t.kind ≠ .argumentName) (hskip : skip = true ↔ 0 < untyped) :
    Fits types untyped next 0 { p with tail } := by
  refine ⟨h.name_kind, h.valued.valued, hnameless, h.typed.imp_right fun hcase ↦ ?_⟩
  -- what follows an argument without annotation starts none
  have htyped : ∀ {type?}, p.Typed types.modules type? → Typed types.modules { p with tail } type? := by
    intro type? htyped
    refine ⟨htyped.1, fun t ht ↦ ?_, htyped.2.2⟩
    have ht := hfollowed.of_append t ht
    rwa [if_pos htyped.1] at ht
  refine ⟨fun hlt ↦ ?_, fun hle ↦ ?_⟩
  · rw [if_pos (hskip.2 hlt)] at hcase
    exact htyped hcase
  · rw [if_neg (hskip.not.2 (by omega))] at hcase
    obtain ⟨tokens, htokens, hcase⟩ := hcase
    exact ⟨tokens, by rwa [Nat.zero_sub], htyped hcase⟩

end Parameter.Filled

/-- **The steps through an argument list** give its arguments in order, and names and types are counted
alike. -/
theorem Walks.listing {steps : List Step} {skips : List Bool} (h : Walks types skips next steps)
    (hlevel : (steps.flatMap Step.tokens).foldl nest 0 = 0)
    (hplain : PlainAnnotations (steps.flatMap Step.tokens))
    (hskips : skips = skipped untyped (listed (steps.flatMap Step.tokens))) (out : Text) :
    ∃ lead parameters, Listing types untyped next (steps.flatMap Step.tokens) out
      (steps.foldl Step.write out) lead parameters := by
  induction h generalizing untyped out with
  | done => exact ⟨[], [], rfl, by simp, rfl, by simp, rfl⟩
  | @argument skips next p steps hfilled hfollowed hwalks ih =>
    -- the name is the first place, and the tokens behind it take none
    have hflat := hfilled.flat
    have hneutral := hfilled.neutral_of_plain hfollowed hplain
    have hlisted : listed ((Step.argument p (skips.headD false) :: steps).flatMap Step.tokens) =
        .name :: listed (steps.flatMap Step.tokens) := by
      have hpassed : listed p.hint = [] := by
        have hnil := hneutral.listed_eq
        rw [listed_append hfilled.hint_within.2] at hnil
        exact (List.append_eq_nil_iff.1 hnil).1
      rw [List.flatMap_cons, listed_append hflat.level, hflat.listed_eq, Step.passed, hpassed]
      rfl
    obtain ⟨untyped', hskip, htail, hcount⟩ : ∃ untyped', (skips.headD false = true ↔ 0 < untyped) ∧
        skips.tail = skipped untyped' (listed (steps.flatMap Step.tokens)) ∧
        (untyped = untyped' + 1 ∧ (if skips.headD false then next else next + 1) = next ∨
          untyped = 0 ∧ untyped' = 0 ∧ (if skips.headD false then next else next + 1) = next + 1) := by
      rw [hskips, hlisted]
      cases untyped with
      | zero => exact ⟨0, by simp [skipped], rfl, .inr ⟨rfl, rfl, rfl⟩⟩
      | succ untyped => exact ⟨untyped, by simp [skipped], rfl, .inl ⟨rfl, rfl⟩⟩
    rw [List.flatMap_cons, List.foldl_append, hflat.level] at hlevel
    obtain ⟨lead, parameters, hlisting⟩ := ih hlevel (hplain.append_right p.tokens) htail
      (out ++ p.name.text ++ p.type ++ p.valueText)
    rw [hlisting.tokens_eq] at hfollowed
    have hfits := hfilled.fits hfollowed hlisting.nameless hskip
    have hwrite : p.write out = out ++ p.name.text ++ p.type ++ p.valueText := by
      rw [Parameter.write, hfilled.tail_eq]
      rfl
    refine ⟨[], { p with tail := lead } :: parameters, ?_⟩
    rw [List.flatMap_cons, Step.tokens, hfilled.tokens_eq, List.foldl_cons, Step.write, hwrite]
    exact hlisting.parameter hfits hcount hneutral
  | @copied skips next t steps hname hclosed hwalks ih =>
    have hflat := (Walks.copied hname hclosed hwalks).flat hlevel (.copied t) (by simp)
    have hnest : nest 0 t = 0 := hflat.level
    rw [List.flatMap_cons, listed_append hflat.level, hflat.listed_eq] at hskips
    rw [List.flatMap_cons, List.foldl_append, hflat.level] at hlevel
    have hmark : (if isBareMark t then skips.tail else skips) =
        skipped untyped (listed (steps.flatMap Step.tokens)) := by
      rw [hskips, Step.counted, Step.passed, place?, if_neg hname]
      by_cases hmark : isBareMark t = true
      · rw [if_pos hmark, if_pos hmark]
        rfl
      · rw [if_neg hmark, if_neg hmark]
        rfl
    obtain ⟨lead, parameters, hlisting⟩ := ih hlevel (hplain.append_right [t]) hmark (write out t)
    exact ⟨t :: lead, parameters, hlisting.copied hname hnest⟩

/-! ### Whole headers -/

/-- The names of the arguments: those outside brackets in the argument list. -/
def argumentNames (ts : List Token) : List Token :=
  (outer 0 (argumentList ts)).filter (·.kind = .argumentName)

/-- **The arguments of a complete header are matched from the right.** -/
theorem fill_aligned {written : List Token} {text : Text} (hfinished : Finished written)
    (hreturn : ∀ t ∈ argumentList (written.reverse ++ [Token.last]), t.kind ≠ .returnTypeDef)
    (hplain : PlainAnnotations (argumentList (written.reverse ++ [Token.last])))
    (h : fill types (written.reverse ++ [Token.last]) = .ok text) :
    ∃ opening lead parameters closer after out,
      written.reverse ++ [Token.last] =
        opening ++ argumentList (written.reverse ++ [Token.last]) ++ closer :: after ∧
      closer.isCloser = true ∧
      Listing types ((argumentNames (written.reverse ++ [Token.last])).length - types.args.length)
        (types.args.length - (argumentNames (written.reverse ++ [Token.last])).length)
        (argumentList (written.reverse ++ [Token.last])) (emitted opening) out lead parameters ∧
      Filling.finish types (write out closer) after = .ok text := by
  obtain ⟨opening, steps, closer, after, ps, hsplit, hcloser, hlist, -, hplaces, hflat, hwalks, hfinish⟩ :=
    fill_walks hfinished hreturn h
  have hcount : ps.count .name = (argumentNames (written.reverse ++ [Token.last])).length :=
    count_places hplaces
  have hlisted : ps = listed (steps.flatMap Step.tokens) := by
    rw [← hlist]
    exact places_eq hplaces
  rw [hcount, hlisted] at hwalks
  rw [hlist] at hplain ⊢
  obtain ⟨lead, parameters, hlisting⟩ := hwalks.listing (level_flatMap hflat) hplain rfl (emitted opening)
  exact ⟨opening, lead, parameters, closer, after, _, hlist ▸ hsplit, hcloser, hlisting, hfinish⟩

end Header

namespace Suggestion

open Header

/-- **Types are matched to arguments from the right.** With `n` names in the argument list and `m` inferred
types, an argument keeps its own annotation; otherwise argument `k` goes without a type if `k + m < n`, and
gets the type number `k + m - n` if not. -/
theorem fill_right_aligned {source : Source} {g : Suggestion} {header : Header} {filled : Filled}
    (hs : source.Lined) (hread : (Header.read source g.line).1 = .ok header)
    (hreturn : ∀ t ∈ argumentList header.tokens, t.kind ≠ .returnTypeDef)
    (hplain : PlainAnnotations (argumentList header.tokens))
    (hfill : (g.fill source).1 = .ok filled) :
    ∃ (types : Types) (opening lead : List Token) (parameters : List Parameter) (closer : Token)
      (after : List Token), g.types = .ok types ∧
      header.tokens = opening ++ argumentList header.tokens ++ closer :: after ∧
      argumentList header.tokens = lead ++ parameters.flatMap Parameter.tokens ∧
      parameters.map Parameter.name = argumentNames header.tokens ∧
      Filling.finish types (write (parameters.foldl Parameter.write (lead.foldl write (emitted opening)))
        closer) after = .ok filled.text ∧
      ∀ (k : Nat) (p : Parameter), parameters[k]? = some p →
        p.Valued ∧ (∀ t ∈ p.tail, t.kind ≠ .argumentName) ∧
        (p.Annotated (ModulePath.redundant g.path) ∨
          (k + g.signature.argTypes.length < (argumentNames header.tokens).length →
            p.Typed (ModulePath.redundant g.path) none) ∧
          ((argumentNames header.tokens).length ≤ k + g.signature.argTypes.length →
            ∃ text tokens, g.signature.argTypes[k + g.signature.argTypes.length -
                (argumentNames header.tokens).length]? = some text ∧
              TypeExpr.lex text = .ok tokens ∧
              p.Typed (ModulePath.redundant g.path) (some tokens))) := by
  obtain ⟨written, htokens, hfinished⟩ := finished_of_read hs hread
  obtain ⟨types, htypes, hheader, -⟩ := fill_of_read hread hfill
  rw [htokens] at hreturn hplain hheader ⊢
  obtain ⟨opening, lead, parameters, closer, after, out, hsplit, -, hlisting, hfinish⟩ :=
    fill_aligned hfinished hreturn hplain hheader
  obtain ⟨hlength, htexts, hmodules⟩ := types_ok htypes
  refine ⟨types, opening, lead, parameters, closer, after, htypes, hsplit, hlisting.tokens_eq,
    hlisting.names_eq, by rw [← hlisting.out_eq]; exact hfinish, ?_⟩
  intro k p hp
  obtain ⟨-, hvalued, hnameless, hfits⟩ := hlisting.fits k p hp
  rw [hmodules, hlength] at hfits
  refine ⟨hvalued, hnameless, hfits.imp_right fun htyped ↦ ⟨fun hlt ↦ htyped.1 (by omega), fun hle ↦ ?_⟩⟩
  obtain ⟨tokens, hget, hp⟩ := htyped.2 (by omega)
  obtain ⟨text, htext, hlex⟩ := htexts hget
  refine ⟨text, tokens, ?_, hlex, hp⟩
  rw [← htext]
  congr 1
  omega

/-- Four arguments and three types: the first goes without one, and the second keeps its own. -/
theorem fill_right_aligned_method : ∃ parameters : List Parameter,
    parameters.map (fun p ↦ p.name.text) = ["self".toList, ['a'], ['b'], ['c']] ∧
    ∀ (k : Nat) (p : Parameter), parameters[k]? = some p → p.Annotated [] ∨
      (k < 1 → p.Typed [] none) ∧ (1 ≤ k → ∃ text tokens,
        ["str".toList, "bytes".toList, "float".toList][k - 1]? = some text ∧
        TypeExpr.lex text = .ok tokens ∧ p.Typed [] (some tokens)) := by
  have hread : Header.read (Document.ofText "def f(self, a: int, *, b=1, c):\n".toList).source 0 =
      (.ok ⟨[.of .definition "def".toList, .of .functionName ['f'], .of .endSeparator ['('],
        .of .argumentName "self".toList, .of .separator [','], .of .argumentName ['a'],
        .of .typeDef [':'], .of .dottedName "int".toList, .of .separator [','],
        .of .endSeparator ['*'], .of .separator [','], .of .argumentName ['b'],
        .of .defaultDef ['='], .of .argumentDefault ['1'], .of .separator [','],
        .of .argumentName ['c'], .of .endSeparator [')'], .of .endDefinition [':'],
        Token.last], 1⟩, [0]) := by rfl
  have hfill := eq_ok_of_toOption (r := (Suggestion.fill
      ⟨none, 0, none, 0, ["str".toList, "bytes".toList, "float".toList], "None".toList⟩
      (Document.ofText "def f(self, a: int, *, b=1, c):\n".toList).source).1)
    (a := ⟨"def f(self, a: int, *, b: bytes = 1, c: float) -> None:".toList, 1⟩) (by decide +kernel)
  obtain ⟨-, -, -, parameters, -, -, -, -, -, hnames, -, hall⟩ := fill_right_aligned
    (Document.source_lined _) (by rw [hread]) (by decide) (by decide) hfill
  have hlength : parameters.length = 4 := by
    rw [← List.length_map Parameter.name, hnames]
    rfl
  rw [← hnames, List.length_map, hlength] at hall
  refine ⟨parameters, ?_, fun k p hp ↦ (hall k p hp).2.2.imp_right fun htyped ↦
    ⟨fun hk ↦ htyped.1 (Nat.add_lt_add_right hk 3), fun hk ↦ ?_⟩⟩
  · calc parameters.map (fun p ↦ p.name.text) = (parameters.map Parameter.name).map Token.text := by
          rw [List.map_map]
          rfl
      _ = ["self".toList, ['a'], ['b'], ['c']] := by
          rw [hnames]
          rfl
  · rw [← Nat.add_sub_add_right k 3 1]
    exact htyped.2 (Nat.add_le_add_right hk 3)

end Suggestion

end HeaderHints
