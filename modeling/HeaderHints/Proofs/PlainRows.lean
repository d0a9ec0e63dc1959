import HeaderHints.Proofs.LexedTypes
import HeaderHints.Proofs.SecondPass

/-!
# Plain headers of one row

A suggestion whose types are read as plain types fills in a plain header of one row as one expects: every
name without an annotation gets the type that is matched to it from the right, the return type goes to its
place unless there is one, and everything else stays. The header that comes of it is plain again, so it stays
as it is when it is filled in once more (`fill_plain_row`).

The types arrive as texts, and a plain type can be spelled in many ways: `Optional[int]` reads as the type that
is written `int | None`. What counts is the type that a text reads as (`ReadsAs`). The text that a plain type is
written as reads as this type (`readsAs_render`), with one exception: the classes of single time zones stand for
their base class.
-/

namespace HeaderHints

open Header TypeExpr

/-! ### Types -/

namespace TypeExpr

variable {text : Text} {t : TypeExpr}

/-- A text that is lexed and read as the type `t`. -/
def ReadsAs (text : Text) (t : TypeExpr) : Prop :=
  ∃ tokens, lex text = .ok tokens ∧ (readWhole.run.run tokens).1 = .ok t

theorem ReadsAs.exists_means (h : ReadsAs text t) (modules : Modules) :
    ∃ tokens, lex text = .ok tokens ∧ Means modules tokens t := by
  obtain ⟨tokens, hlex, hread⟩ := h
  refine ⟨tokens, hlex, ?_⟩
  rw [Means, Filling.inferred, hread]
  rfl

theorem exists_means_of_readsAs {texts : List Text} {trees : List TypeExpr} (h : List.Forall₂ ReadsAs texts trees)
    (modules : Modules) : ∃ args, texts.mapM lex = .ok args ∧ List.Forall₂ (Means modules) args trees := by
  induction h with
  | nil => exact ⟨[], rfl, .nil⟩
  | cons h _ ih =>
    obtain ⟨tokens, hlex, hmean⟩ := h.exists_means modules
    obtain ⟨args, hargs, hmeans⟩ := ih
    refine ⟨tokens :: args, ?_, .cons hmean hmeans⟩
    rw [List.mapM_cons, hlex, hargs]
    rfl

/-- A plain type whose names are kept is lexed into its tokens. -/
theorem lex_plain (h : t.Plain []) (hnames : t.AllNames Portable) :
    lex (render [] t) = .ok (t.toTokens .separator [] ++ [Token.last]) := by
  refine lex_render h.regular ?_
  induction h with
  | leaf _ hshown _ =>
    obtain ⟨hname, -⟩ := hnames
    exact .node (hshown.symm ▸ hname) (by simp)
  | applied _ hshown _ _ _ _ ih =>
    obtain ⟨hname, hargs⟩ := hnames
    exact .node (hshown.symm ▸ hname) fun t ht ↦ ih t ht (hargs t ht)
  | list _ ih =>
    obtain ⟨hname, hargs⟩ := hnames
    exact .node hname fun t ht ↦ ih t ht (hargs t ht)
  | union _ _ _ ih =>
    obtain ⟨hname, hargs⟩ := hnames
    exact .node hname fun t ht ↦ ih t ht (hargs t ht)

/-- **A plain type is read from the text that it is written as**, if its names are kept. -/
theorem readsAs_render (h : t.Plain []) (hnames : t.AllNames Portable) : ReadsAs (render [] t) t := by
  have hread : read.Takes (t.toTokens .separator [] ++ [Token.last]) t [Token.last] := by
    refine read_takes_iff.2 ⟨_, h.regular.grammatical.last [] (by decide) (by decide), ?_⟩
    exact (restate_of_plain h).symm
  have hwhole : readWhole.Takes (t.toTokens .separator [] ++ [Token.last]) t [Token.last] :=
    readWhole_takes_iff.2 ⟨hread, _, _, rfl, rfl⟩
  exact ⟨_, lex_plain h hnames, congrArg Prod.fst hwhole⟩

/-- The class of a single time zone is read as another type than the one that is written so. -/
example : ReadsAs "pytz.tzfile.UTC".toList (leaf "datetime.tzinfo".toList) :=
  ⟨[.of .dottedName "datetime.tzinfo".toList, Token.last], by rfl, by rfl⟩

end TypeExpr

/-! ### Headers -/

theorem mem_of_mem_aligned {types : List TypeExpr} {n k : Nat} {t : TypeExpr} (h : t ∈ aligned types n k) :
    t ∈ types := by
  unfold aligned at h
  split at h
  · exact List.mem_of_getElem? h
  · exact absurd h (by simp)

theorem Item.usual_fillAll {P : TypeExpr → Prop} {types : List TypeExpr} {n k : Nat} {items : List Item}
    (h : ∀ i ∈ items, i.Usual P) (htypes : ∀ t ∈ types, P t) : ∀ i ∈ fillAll types n k items, i.Usual P := by
  induction items generalizing k with
  | nil => simp [fillAll]
  | cons i items ih =>
    rw [List.forall_mem_cons] at h
    rw [fillAll, List.forall_mem_cons]
    refine ⟨?_, ih h.2⟩
    cases i with
    | marker mark => exact h.1
    | named stars name hint value =>
      obtain ⟨hstars, hname, hhint, hvalue⟩ := h.1
      refine ⟨hstars, hname, fun t ht ↦ ?_, hvalue⟩
      cases hint with
      | none => exact htypes t (mem_of_mem_aligned ht)
      | some u => exact hhint t ht

namespace RowHeader

variable {h : RowHeader} {trees : List TypeExpr} {result : TypeExpr}

/-- A header in the usual form stays so when types are filled in. -/
theorem Usual.filled {P : TypeExpr → Prop} (hh : h.Usual P) (htrees : ∀ t ∈ result :: trees, P t) :
    (h.filled trees result).Usual P where
  named := hh.named
  name_notMem := hh.name_notMem
  items := Item.usual_fillAll hh.items fun t ht ↦ htrees t (List.mem_cons_of_mem _ ht)
  result := by
    intro t ht
    cases hr : h.result with
    | none =>
      simp only [RowHeader.filled, hr, Option.mem_def] at ht
      exact htrees t (by simpa using Or.inl ht.symm)
    | some u =>
      simp only [RowHeader.filled, hr, Option.mem_def] at ht
      exact hh.result t (hr.trans ht)

/-- The annotations of a plain header are read back as they stand. -/
theorem mapHints_restate {modules : Modules} (hh : h.Usual (Plain modules)) :
    h.mapHints (restate modules) = h := by
  have hhint : ∀ {hint : Option TypeExpr}, (∀ t ∈ hint, t.Plain modules) → hint.map (restate modules) = hint := by
    intro hint hplain
    cases hint with
    | none => rfl
    | some t => rw [Option.map_some, restate_of_plain (hplain t rfl)]
  have hitems : h.items.map (Item.mapHint (restate modules)) = h.items := by
    refine (List.map_congr_left fun i hi ↦ ?_).trans (List.map_id _)
    have hi := hh.items i hi
    cases i with
    | marker mark => rfl
    | named stars name hint value => rw [Item.mapHint, hhint hi.2.2.1, id]
  rw [mapHints, hitems, hhint hh.result]

/-- A plain header that has been filled in has no place left for a type. -/
theorem filled_filled (hh : (h.filled trees result).Usual (Plain [])) :
    (h.filled trees result).filled trees result = h.filled trees result := by
  have hagain := @filled_mapHints_filled (restate []) trees result h
  rwa [mapHints_restate hh] at hagain

end RowHeader

namespace Suggestion

variable {g : Suggestion} {trees : List TypeExpr} {result : TypeExpr}

/-- The types of a suggestion are there if its texts can be read. -/
theorem exists_types (hargs : List.Forall₂ ReadsAs g.signature.argTypes trees)
    (hresult : ReadsAs g.signature.returnType result) :
    ∃ types, g.types = .ok types ∧ types.modules = ModulePath.redundant g.path ∧
      List.Forall₂ (Means types.modules) types.args trees ∧ Means types.modules types.result result := by
  obtain ⟨args, hlexed, hmeans⟩ := exists_means_of_readsAs hargs (ModulePath.redundant g.path)
  obtain ⟨tokens, hlex, hmean⟩ := hresult.exists_means (ModulePath.redundant g.path)
  refine ⟨⟨args, tokens, ModulePath.redundant g.path⟩, ?_, rfl, hmeans, hmean⟩
  rw [Suggestion.types, hlexed, hlex]
  rfl

/-- A plain header of one row is filled in with the types that are read. -/
theorem fill_readsAs {source : Source} {h : RowHeader} {tail : Text} (hh : h.Usual (Plain []))
    (htail : ∀ c ∈ tail, Text.isBlank c = true) (hrow : source[g.line]? = some (some (h.line [] ++ tail)))
    (hargs : List.Forall₂ ReadsAs g.signature.argTypes trees) (hresult : ReadsAs g.signature.returnType result) :
    (g.fill source).1 = .ok ⟨(h.filled trees result).line (ModulePath.redundant g.path), 1⟩ := by
  have hread := read_line (hh.mono Plain.regular) htail hrow
  obtain ⟨types, htypes, hmodules, hmeans, hmean⟩ := exists_types hargs hresult
  have hfill := fill_row (hh.mono Plain.regular) hmeans hmean
  rw [RowHeader.mapHints_restate hh, hmodules] at hfill
  exact fill_eq_ok hread htypes hfill

/-- **Plain types fill in a plain header of one row.** The header that comes of it is plain again, and unless
modules are left out of its types, filling in its row once more changes nothing. -/
theorem fill_plain_row {source : Source} {h : RowHeader} {tail : Text} (hh : h.Usual (Plain []))
    (htail : ∀ c ∈ tail, Text.isBlank c = true) (hrow : source[g.line]? = some (some (h.line [] ++ tail)))
    (hargs : List.Forall₂ ReadsAs g.signature.argTypes trees) (hresult : ReadsAs g.signature.returnType result)
    (htrees : ∀ t ∈ result :: trees, t.Plain []) :
    (g.fill source).1 = .ok ⟨(h.filled trees result).line (ModulePath.redundant g.path), 1⟩ ∧
      (h.filled trees result).Usual (Plain []) ∧
      (g.path = none → ∀ {source' : Source} {tail' : Text}, (∀ c ∈ tail', Text.isBlank c = true) →
        source'[g.line]? = some (some ((h.filled trees result).line [] ++ tail')) →
        (g.fill source').1 = .ok ⟨(h.filled trees result).line [], 1⟩) := by
  have hfilled : (h.filled trees result).Usual (Plain []) := hh.filled htrees
  refine ⟨fill_readsAs hh htail hrow hargs hresult, hfilled, fun hpath source' tail' htail' hrow' ↦ ?_⟩
  have hagain := fill_readsAs hfilled htail' hrow' hargs hresult
  rwa [RowHeader.filled_filled hfilled, hpath] at hagain

/-- A method with a marker, an annotation, a default value and variadic arguments, and the row that comes of it. -/
theorem fill_plain_row_method :
    (Suggestion.fill ⟨none, 1, none, 0, ["Callable[[int], ...]".toList, "Optional[int]".toList, "int".toList],
      "None".toList⟩ (Document.ofText
        "class A:\n    async def f(self, a: pkg.T, /, *args, b = 1, **kw):\n".toList).source).1 =
      .ok ⟨"    async def f(self, a: pkg.T, /, *args: Callable[[int], ...], b: int | None = 1, ".toList ++
        "**kw: int) -> None:".toList, 1⟩ ∧
    (Suggestion.fill ⟨none, 1, none, 0, ["Callable[[int], ...]".toList, "Optional[int]".toList, "int".toList],
      "None".toList⟩ (Document.ofText
        ("class A:\n    async def f(self, a: pkg.T, /, *args: Callable[[int], ...], b: int | None = 1, ".toList ++
          "**kw: int) -> None:\r\n".toList)).source).1 =
      .ok ⟨"    async def f(self, a: pkg.T, /, *args: Callable[[int], ...], b: int | None = 1, ".toList ++
        "**kw: int) -> None:".toList, 1⟩ := by
  have hleaf : ∀ name ∈ ["int".toList, "None".toList], (leaf name).Plain [] ∧ (leaf name).AllNames Portable := by
    intro name hname
    have hall : ∀ name ∈ ["int".toList, "None".toList], Lexeme.Named name ∧ displayName [] name = name ∧
        name ∉ ["Union".toList, "lambda".toList] ∧ (∀ c ∈ name, c.toNat < 0x80) ∧
        ¬ "pytz.tzfile.".toList <+: name := by decide
    obtain ⟨hnamed, hshown, hruled, hportable⟩ := hall name hname
    exact ⟨.leaf (.inl (.word hnamed)) hshown hruled, .node hportable (by simp)⟩
  have hint := hleaf "int".toList (by simp)
  have hnone := hleaf "None".toList (by simp)
  have hcallable : (node "Callable".toList [node [] [leaf "int".toList], leaf "...".toList]).Plain [] ∧
      (node "Callable".toList [node [] [leaf "int".toList], leaf "...".toList]).AllNames Portable := by
    refine ⟨.applied (.word (by decide)) (by decide) (by decide) (by simp) (by decide) ?_,
      .node ⟨by decide, by decide⟩ ?_⟩
    · simpa using ⟨.list (by simpa using hint.1), .leaf (.inr rfl) (by decide) (by decide)⟩
    · simpa using ⟨.node ⟨by decide, by decide⟩ (by simpa using hint.2), .node ⟨by decide, by decide⟩ (by simp)⟩
  have hoptional : (union [leaf "int".toList, leaf "None".toList]).Plain [] :=
    .union (by simp) (by simp [leaf, TypeExpr.name]) (by simpa using ⟨hint.1, hnone.1⟩)
  have hdotted : Dotted ("pkg".toList ++ '.' :: ['T']) := .dot (.word (by decide)) (by decide)
  have hmember : (leaf "pkg.T".toList).Plain [] := .leaf (.inl hdotted) (by decide) (by decide)
  have hread : ReadsAs "Optional[int]".toList (union [leaf "int".toList, leaf "None".toList]) :=
    ⟨[.of .dottedName "Optional".toList, .of .separator ['['], .of .dottedName "int".toList,
      .of .separator [']'], Token.last], by rfl, by rfl⟩
  have hargs : List.Forall₂ ReadsAs ["Callable[[int], ...]".toList, "Optional[int]".toList, "int".toList]
      [node "Callable".toList [node [] [leaf "int".toList], leaf "...".toList],
        union [leaf "int".toList, leaf "None".toList], leaf "int".toList] :=
    .cons (readsAs_render hcallable.1 hcallable.2) (.cons hread (.cons (readsAs_render hint.1 hint.2) .nil))
  have htrees : ∀ t ∈ [leaf "None".toList,
      node "Callable".toList [node [] [leaf "int".toList], leaf "...".toList],
      union [leaf "int".toList, leaf "None".toList], leaf "int".toList], t.Plain [] := by
    simpa using ⟨hnone.1, hcallable.1, hoptional, hint.1⟩
  have hheader : RowHeader.Usual (Plain []) ⟨4, true, ['f'], [.named [] "self".toList none none,
      .named [] ['a'] (some (leaf "pkg.T".toList)) none, .marker '/', .named ['*'] "args".toList none none,
      .named [] ['b'] none (some ['1']), .named ['*', '*'] "kw".toList none none], none⟩ := by
    refine ⟨by decide, by decide, ?_, by simp⟩
    simp only [List.mem_cons, List.not_mem_nil, or_false, forall_eq_or_imp, forall_eq]
    refine ⟨⟨by decide, by decide, by simp, by simp⟩, ⟨by decide, by decide, by simpa using hmember, by simp⟩,
      .inr rfl, ⟨by decide, by decide, by simp, by simp⟩, ⟨by decide, by decide, by simp, ?_⟩,
      ⟨by decide, by decide, by simp, by simp⟩⟩
    simpa using .inl ⟨by decide, by decide⟩
  have hbreak : ∀ c ∈ ['\n'], Text.isBlank c = true := by decide
  have hbreak' : ∀ c ∈ ['\r', '\n'], Text.isBlank c = true := by decide
  obtain ⟨hfirst, -, hagain⟩ := @fill_plain_row
    ⟨none, 1, none, 0, ["Callable[[int], ...]".toList, "Optional[int]".toList, "int".toList], "None".toList⟩
    _ (leaf "None".toList)
    (Document.ofText "class A:\n    async def f(self, a: pkg.T, /, *args, b = 1, **kw):\n".toList).source
    _ ['\n'] hheader hbreak rfl hargs (readsAs_render hnone.1 hnone.2) htrees
  refine ⟨hfirst.trans ?_, (hagain rfl hbreak' ?_).trans ?_⟩
  all_goals rfl

end Suggestion

end HeaderHints
