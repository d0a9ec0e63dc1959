import HeaderHints.Proofs.Readers
import HeaderHints.TypeExpr.Collection

/-!
# The grammar of types as a relation

`Derives part ts trees rest` says that the tokens `ts` start with a part of a type that reads as
`trees`, and that `rest` follows it. The relation mirrors the choices of the readers and has no bound
on the depth of calls. Both directions hold: what is read is derived (`derives_of_takes`), and what is
derived is read, if the bound is large enough for the tokens that are taken (`takes_of_derives`). So the
readers without a bound decide the relation (`read_takes_iff`), and facts about what is read are proved
by induction on derivations. Collection displays get relations of the same kind, `DerivesItem` and
`DerivesItems`.
-/

namespace HeaderHints

namespace TypeExpr

open Reader

/-- The parts of a type. -/
inductive Part where
  /-- A type without a bar at its top level. -/
  | single
  /-- Items between brackets. -/
  | bracketed (opening closing : Text)
  /-- Types divided by commas, up to a closing bracket. -/
  | items
  /-- Single types divided by bars. -/
  | choices

/-- Whether a text closes a list of items. -/
def closesItems (t : Text) : Prop :=
  t = [')'] ∨ t = [']']

/-- The names that have a rule of their own. -/
def ruledNames : List Text :=
  ["Any".toList, "mypy_extensions.NoReturn".toList, "typing.NoReturn".toList, "Tuple".toList,
    "Union".toList, "lambda".toList, "Overload".toList]

/-- The type of a name applied to items in square brackets. -/
def ofItems (name : Text) : List TypeExpr → TypeExpr
  | [t] => if name = "Optional".toList then optional t else node name [t]
  | ts => node name ts

/-- `ts` starts with `part`, which reads as `trees`, and `rest` follows. -/
inductive Derives : Part → List Token → List TypeExpr → List Token → Prop
  | list {t : Token} {ts rest : List Token} {args : List TypeExpr} : t.text = ['['] →
      Derives (.bracketed ['['] [']']) (t :: ts) args rest →
      Derives .single (t :: ts) [node [] args] rest
  | any {t : Token} {rest : List Token} : t.isA .dottedName = true → t.text = "Any".toList →
      Derives .single (t :: rest) [leaf t.text] rest
  | noReturn {t : Token} {rest : List Token} : t.isA .dottedName = true →
      t.text = "mypy_extensions.NoReturn".toList ∨ t.text = "typing.NoReturn".toList →
      Derives .single (t :: rest) [leaf "NoReturn".toList] rest
  | tuple {t : Token} {ts rest : List Token} {args : List TypeExpr} : t.isA .dottedName = true →
      t.text = "Tuple".toList → Derives (.bracketed ['['] [']']) ts args rest →
      Derives .single (t :: ts) [node t.text args] rest
  | union {t : Token} {ts rest : List Token} {args : List TypeExpr} : t.isA .dottedName = true →
      t.text = "Union".toList → args ≠ [] → Derives (.bracketed ['['] [']']) ts args rest →
      Derives .single (t :: ts) [ofChoices args] rest
  | lambda {t b : Token} {rest : List Token} : t.isA .dottedName = true →
      t.text = "lambda".toList → b.isA .lambdaBody = true →
      Derives .single (t :: b :: rest) [TypeExpr.lambda b.text] rest
  | overload {t : Token} {ts rest : List Token} {args : List TypeExpr} : t.isA .dottedName = true →
      t.text = "Overload".toList → Derives (.bracketed ['('] [')']) ts args rest →
      Derives .single (t :: ts) [node t.text args] rest
  | applied {t b : Token} {ts rest : List Token} {args : List TypeExpr} :
      t.isA .dottedName = true → t.text ≠ ['['] → t.text ∉ ruledNames → b.text = ['['] →
      Derives (.bracketed ['['] [']']) (b :: ts) args rest →
      Derives .single (t :: b :: ts) [ofItems t.text args] rest
  | leaf {t b : Token} {rest : List Token} : t.isA .dottedName = true → t.text ≠ ['['] →
      t.text ∉ ruledNames → b.text ≠ ['['] →
      Derives .single (t :: b :: rest) [TypeExpr.leaf t.text] (b :: rest)
  | bracketed {opening closing : Text} {t u : Token} {ts rest : List Token}
      {args : List TypeExpr} : t.text = opening → Derives .items ts args (u :: rest) →
      u.text = closing → Derives (.bracketed opening closing) (t :: ts) args rest
  | itemsEnd {t : Token} {rest : List Token} : closesItems t.text →
      Derives .items (t :: rest) [] (t :: rest)
  | itemsComma {t u : Token} {ts mid rest : List Token} {choices more : List TypeExpr} :
      ¬ closesItems t.text → Derives .choices (t :: ts) choices (u :: mid) → u.text = [','] →
      Derives .items mid more rest → Derives .items (t :: ts) (ofChoices choices :: more) rest
  | itemsLast {t u : Token} {ts rest : List Token} {choices : List TypeExpr} :
      ¬ closesItems t.text → Derives .choices (t :: ts) choices (u :: rest) →
      closesItems u.text → Derives .items (t :: ts) [ofChoices choices] (u :: rest)
  | choicesBar {u : Token} {ts mid rest : List Token} {t : TypeExpr} {more : List TypeExpr} :
      Derives .single ts [t] (u :: mid) → u.text = ['|'] → Derives .choices mid more rest →
      Derives .choices ts (t :: more) rest
  | choicesLast {u : Token} {ts rest : List Token} {t : TypeExpr} :
      Derives .single ts [t] (u :: rest) → u.text ≠ ['|'] → Derives .choices ts [t] (u :: rest)

/-- What is read of a part within a bound. -/
def Part.Takes : Part → Nat → List Token → List TypeExpr → List Token → Prop
  | single, n, ts, trees, rest => ∃ t, (readSingleWithin n).Takes ts t rest ∧ trees = [t]
  | bracketed opening closing, n, ts, trees, rest =>
    (readBracketedWithin n opening closing).Takes ts trees rest
  | items, n, ts, trees, rest => (readItemsWithin n).Takes ts trees rest
  | choices, n, ts, trees, rest => (readChoicesWithin n).Takes ts trees rest

/-! ### What is read is derived -/

variable {n : Nat} {ts rest : List Token} {trees : List TypeExpr}

theorem isA_of_takes_expectKind {t : Token} {wanted : Token.Kind}
    (h : (expectKind [wanted]).Takes ts t rest) : ts = t :: rest ∧ t.isA wanted = true := by
  simpa using takes_expectKind.1 h

/-- A single type, when the parts of it are derived. -/
theorem derives_single {tree : TypeExpr}
    (ih : ∀ {opening closing ts trees rest},
      (readBracketedWithin n opening closing).Takes ts trees rest →
        Derives (.bracketed opening closing) ts trees rest)
    (h : (readSingleWithin (n + 1)).Takes ts tree rest) : Derives .single ts [tree] rest := by
  rw [readSingleWithin] at h
  obtain ⟨ahead, mid, hpeek, h₁⟩ := takes_bind.1 h
  obtain ⟨t, ts, rfl, rfl, rfl⟩ := takes_peekText.1 hpeek
  clear h
  by_cases hopen : t.text = ['[']
  · rw [if_pos hopen] at h₁
    obtain ⟨args, mid, hargs, h₂⟩ := takes_bind.1 h₁
    obtain ⟨rfl, rfl⟩ := takes_pure.1 h₂
    exact .list hopen (ih hargs)
  rw [if_neg hopen] at h₁
  obtain ⟨t', mid, htake, h₂⟩ := takes_bind.1 h₁
  obtain ⟨hcons, hkind⟩ := isA_of_takes_expectKind htake
  obtain ⟨rfl, rfl⟩ := List.cons_eq_cons.1 hcons
  clear h₁ htake hpeek
  dsimp only at h₂
  -- the names with rules of their own, one after the other
  by_cases hany : t.text = "Any".toList
  · rw [if_pos hany] at h₂
    obtain ⟨rfl, rfl⟩ := takes_pure.1 h₂
    exact .any hkind hany
  rw [if_neg hany] at h₂
  by_cases hnever : t.text = "mypy_extensions.NoReturn".toList ∨ t.text = "typing.NoReturn".toList
  · rw [if_pos (by simpa only [Bool.or_eq_true, decide_eq_true_eq] using hnever)] at h₂
    obtain ⟨rfl, rfl⟩ := takes_pure.1 h₂
    exact .noReturn hkind hnever
  rw [if_neg (by simpa only [Bool.or_eq_true, decide_eq_true_eq] using hnever)] at h₂
  by_cases htuple : t.text = "Tuple".toList
  · rw [if_pos htuple] at h₂
    obtain ⟨args, mid, hargs, h₃⟩ := takes_bind.1 h₂
    obtain ⟨rfl, rfl⟩ := takes_pure.1 h₃
    exact .tuple hkind htuple (ih hargs)
  rw [if_neg htuple] at h₂
  by_cases hunion : t.text = "Union".toList
  · rw [if_pos hunion] at h₂
    obtain ⟨args, mid, hargs, h₃⟩ := takes_bind.1 h₂
    cases args with
    | nil => exact absurd h₃ takes_throw
    | cons arg args =>
      obtain ⟨rfl, rfl⟩ := takes_pure.1 h₃
      exact .union hkind hunion (by simp) (ih hargs)
  rw [if_neg hunion] at h₂
  by_cases hlambda : t.text = "lambda".toList
  · rw [if_pos hlambda] at h₂
    obtain ⟨body, mid, hbody, h₃⟩ := takes_bind.1 h₂
    obtain ⟨rfl, rfl⟩ := takes_pure.1 h₃
    obtain ⟨b, hb, rfl⟩ := takes_map.1 hbody
    obtain ⟨rfl, hbk⟩ := isA_of_takes_expectKind hb
    exact .lambda hkind hlambda hbk
  rw [if_neg hlambda] at h₂
  by_cases hoverload : t.text = "Overload".toList
  · rw [if_pos hoverload] at h₂
    obtain ⟨args, mid, hargs, h₃⟩ := takes_bind.1 h₂
    obtain ⟨rfl, rfl⟩ := takes_pure.1 h₃
    exact .overload hkind hoverload (ih hargs)
  rw [if_neg hoverload] at h₂
  have hruled : t.text ∉ ruledNames := by
    simp only [ruledNames, List.mem_cons, List.not_mem_nil, or_false, not_or]
    exact ⟨hany, fun h ↦ hnever (.inl h), fun h ↦ hnever (.inr h), htuple, hunion, hlambda,
      hoverload⟩
  obtain ⟨ahead, mid, hpeek, h₃⟩ := takes_bind.1 h₂
  obtain ⟨b, more, rfl, rfl, rfl⟩ := takes_peekText.1 hpeek
  by_cases hb : b.text = ['[']
  · rw [if_pos hb] at h₃
    obtain ⟨args, mid, hargs, h₄⟩ := takes_bind.1 h₃
    have htree : tree = ofItems t.text args ∧ rest = mid := by
      rcases args with - | ⟨arg, - | ⟨arg', args⟩⟩ <;> exact takes_pure.1 h₄
    obtain ⟨rfl, rfl⟩ := htree
    exact .applied hkind hopen hruled hb (ih hargs)
  · rw [if_neg hb] at h₃
    obtain ⟨rfl, rfl⟩ := takes_pure.1 h₃
    exact .leaf hkind hopen hruled hb

theorem closesItems_iff {t : Text} :
    (decide (t = [')']) || decide (t = [']'])) = true ↔ closesItems t := by
  simp [closesItems]

/-- **What is read of a part is derived.** -/
theorem derives_of_takes {p : Part} (h : p.Takes n ts trees rest) :
    Derives p ts trees rest := by
  -- by induction on the bound, for all parts at once: each call has a smaller bound
  induction n generalizing p ts trees rest with
  | zero =>
    cases p with
    | single =>
      obtain ⟨t, h, -⟩ := h
      exact absurd h (by rw [readSingleWithin]; exact takes_throw)
    | bracketed opening closing =>
      exact absurd h (by rw [Part.Takes, readBracketedWithin]; exact takes_throw)
    | items => exact absurd h (by rw [Part.Takes, readItemsWithin]; exact takes_throw)
    | choices => exact absurd h (by rw [Part.Takes, readChoicesWithin]; exact takes_throw)
  | succ n ih =>
    cases p with
    | single =>
      obtain ⟨t, h, rfl⟩ := h
      refine derives_single ?_ h
      intro opening closing ts trees rest h
      exact ih (p := .bracketed opening closing) h
    | bracketed opening closing =>
      rw [Part.Takes, readBracketedWithin] at h
      obtain ⟨_, mid, hopen, h₁⟩ := takes_bind.1 h
      obtain ⟨args, mid', hitems, h₂⟩ := takes_bind.1 h₁
      obtain ⟨_, mid'', hclose, h₃⟩ := takes_bind.1 h₂
      obtain ⟨t, rfl, htext⟩ := takes_expect.1 hopen
      obtain ⟨t', rfl, htext'⟩ := takes_expect.1 hclose
      obtain ⟨rfl, rfl⟩ := takes_pure.1 h₃
      exact .bracketed htext (ih (p := .items) hitems) htext'
    | items =>
      rw [Part.Takes, readItemsWithin] at h
      obtain ⟨ahead, mid, hpeek, h₁⟩ := takes_bind.1 h
      obtain ⟨t, more, rfl, rfl, rfl⟩ := takes_peekText.1 hpeek
      by_cases hclose : closesItems t.text
      · rw [if_pos (closesItems_iff.2 hclose)] at h₁
        obtain ⟨rfl, rfl⟩ := takes_pure.1 h₁
        exact .itemsEnd hclose
      rw [if_neg (fun hc ↦ hclose (closesItems_iff.1 hc))] at h₁
      obtain ⟨choices, mid, hchoices, h₂⟩ := takes_bind.1 h₁
      obtain ⟨ahead, mid', hpeek', h₃⟩ := takes_bind.1 h₂
      obtain ⟨u, more', rfl, rfl, rfl⟩ := takes_peekText.1 hpeek'
      have hfirst := ih (p := .choices) hchoices
      by_cases hcomma : u.text = [',']
      · rw [if_pos hcomma] at h₃
        obtain ⟨_, mid, hexpect, h₄⟩ := takes_bind.1 h₃
        obtain ⟨u', hcons, -⟩ := takes_expect.1 hexpect
        obtain ⟨rfl, rfl⟩ := List.cons_eq_cons.1 hcons
        obtain ⟨items, mid, hitems, h₅⟩ := takes_bind.1 h₄
        obtain ⟨rfl, rfl⟩ := takes_pure.1 h₅
        exact .itemsComma hclose hfirst hcomma (ih (p := .items) hitems)
      rw [if_neg hcomma] at h₃
      by_cases hend : closesItems u.text
      · rw [if_pos (closesItems_iff.2 hend)] at h₃
        obtain ⟨rfl, rfl⟩ := takes_pure.1 h₃
        exact .itemsLast hclose hfirst hend
      · rw [if_neg (fun hc ↦ hend (closesItems_iff.1 hc))] at h₃
        exact absurd h₃ takes_throw
    | choices =>
      rw [Part.Takes, readChoicesWithin] at h
      obtain ⟨t, mid, hsingle, h₁⟩ := takes_bind.1 h
      obtain ⟨ahead, mid', hpeek, h₂⟩ := takes_bind.1 h₁
      obtain ⟨u, more, rfl, rfl, rfl⟩ := takes_peekText.1 hpeek
      have hfirst := ih (p := .single) ⟨t, hsingle, rfl⟩
      by_cases hbar : u.text = ['|']
      · rw [if_pos hbar] at h₂
        obtain ⟨_, mid, hexpect, h₃⟩ := takes_bind.1 h₂
        obtain ⟨u', hcons, -⟩ := takes_expect.1 hexpect
        obtain ⟨rfl, rfl⟩ := List.cons_eq_cons.1 hcons
        obtain ⟨choices, mid, hchoices, h₄⟩ := takes_bind.1 h₃
        obtain ⟨rfl, rfl⟩ := takes_pure.1 h₄
        exact .choicesBar hfirst hbar (ih (p := .choices) hchoices)
      · rw [if_neg hbar] at h₂
        obtain ⟨rfl, rfl⟩ := takes_pure.1 h₂
        exact .choicesLast hfirst hbar

/-! ### What is derived is read -/

/-- How many calls may be open before a part takes its first token. -/
def Part.slack : Part → Nat
  | bracketed _ _ => 1
  | single => 2
  | choices => 3
  | items => 4

theorem length_le_of_derives {p : Part} (h : Derives p ts trees rest) :
    rest.length ≤ ts.length := by
  induction h <;> simp only [List.length_cons] at * <;> omega

/-- A token that is looked at. -/
theorem takes_peekText_cons {t : Token} : peekText.Takes (t :: ts) t.text (t :: ts) :=
  takes_peekText.2 ⟨t, ts, rfl, rfl, rfl⟩

/-- A token of the kind that is wanted. -/
theorem takes_expectKind_cons {t : Token} {wanted : Token.Kind} (h : t.isA wanted = true) :
    (expectKind [wanted]).Takes (t :: ts) t ts :=
  takes_expectKind.2 ⟨rfl, by simpa using h⟩

/-- A name at the front is taken, unless it is a bracket. -/
theorem takes_name {t : Token} {tree : TypeExpr} {list : Reader TypeExpr}
    {named : Token → Reader TypeExpr} (hkind : t.isA .dottedName = true) (hopen : t.text ≠ ['['])
    (h : (named t).Takes ts tree rest) :
    Takes (peekText >>= fun ahead ↦
      if ahead = ['['] then list else expectKind [.dottedName] >>= named) (t :: ts) tree rest := by
  refine takes_bind.2 ⟨_, _, takes_peekText_cons, ?_⟩
  rw [if_neg hopen]
  exact takes_bind.2 ⟨_, _, takes_expectKind_cons hkind, h⟩

/-- A name without a rule of its own gets past the names that have one. -/
theorem takes_unruled {name : Text} {tree : TypeExpr} {a b c d e f g : Reader TypeExpr}
    (hruled : name ∉ ruledNames) (h : g.Takes ts tree rest) :
    Takes (if name = "Any".toList then a
      else if name = "mypy_extensions.NoReturn".toList || name = "typing.NoReturn".toList then b
      else if name = "Tuple".toList then c else if name = "Union".toList then d
      else if name = "lambda".toList then e else if name = "Overload".toList then f else g)
      ts tree rest := by
  simp only [ruledNames, List.mem_cons, List.not_mem_nil, or_false, not_or] at hruled
  obtain ⟨h₁, h₂, h₃, h₄, h₅, h₆, h₇⟩ := hruled
  rw [if_neg h₁, if_neg (by simp only [h₂, h₃, decide_false, Bool.or_self, Bool.false_eq_true,
    not_false_eq_true]), if_neg h₄, if_neg h₅, if_neg h₆, if_neg h₇]
  exact h

/-- A bound that is large enough for a part allows the first call. -/
theorem exists_succ {p : Part} (h : Derives p ts trees rest)
    (hn : 4 * ts.length + p.slack ≤ n + 4 * rest.length) : ∃ m, n = m + 1 := by
  have hlen := length_le_of_derives h
  refine ⟨n - 1, ?_⟩
  cases p <;> simp only [Part.slack] at hn <;> omega

/-- **What is derived of a part is read**, within four calls for each token that is taken. -/
theorem takes_of_derives {p : Part} (h : Derives p ts trees rest)
    (hn : 4 * ts.length + p.slack ≤ n + 4 * rest.length) : p.Takes n ts trees rest := by
  induction h generalizing n with
  | list hopen hargs ih =>
    obtain ⟨n, rfl⟩ := exists_succ (.list hopen hargs) hn
    have htake := ih (n := n) (by simp only [Part.slack] at hn ⊢; omega)
    refine ⟨_, ?_, rfl⟩
    rw [readSingleWithin]
    refine takes_bind.2 ⟨_, _, takes_peekText_cons, ?_⟩
    rw [if_pos hopen]
    exact takes_bind.2 ⟨_, _, htake, takes_pure.2 ⟨rfl, rfl⟩⟩
  | any hkind hname =>
    obtain ⟨n, rfl⟩ := exists_succ (.any hkind hname) hn
    refine ⟨_, ?_, rfl⟩
    rw [readSingleWithin]
    refine takes_name hkind (by rw [hname]; decide) ?_
    rw [if_pos hname]
    exact takes_pure.2 ⟨rfl, rfl⟩
  | noReturn hkind hname =>
    obtain ⟨n, rfl⟩ := exists_succ (.noReturn hkind hname) hn
    refine ⟨_, ?_, rfl⟩
    rw [readSingleWithin]
    refine takes_name hkind (by rcases hname with h | h <;> rw [h] <;> decide) ?_
    rw [if_neg (by rcases hname with h | h <;> rw [h] <;> decide),
      if_pos (by simpa only [Bool.or_eq_true, decide_eq_true_eq] using hname)]
    exact takes_pure.2 ⟨rfl, rfl⟩
  | tuple hkind hname hargs ih =>
    obtain ⟨n, rfl⟩ := exists_succ (.tuple hkind hname hargs) hn
    have htake := ih (n := n) (by simp only [Part.slack, List.length_cons] at hn ⊢; omega)
    refine ⟨_, ?_, rfl⟩
    rw [readSingleWithin]
    refine takes_name hkind (by rw [hname]; decide) ?_
    dsimp only
    rw [if_neg (by rw [hname]; decide), if_neg (by rw [hname]; decide), if_pos hname]
    exact takes_bind.2 ⟨_, _, htake, takes_pure.2 ⟨rfl, rfl⟩⟩
  | @union t ts rest args hkind hname hne hargs ih =>
    obtain ⟨n, rfl⟩ := exists_succ (.union hkind hname hne hargs) hn
    have htake := ih (n := n) (by simp only [Part.slack, List.length_cons] at hn ⊢; omega)
    refine ⟨_, ?_, rfl⟩
    rw [readSingleWithin]
    refine takes_name hkind (by rw [hname]; decide) ?_
    dsimp only
    rw [if_neg (by rw [hname]; decide), if_neg (by rw [hname]; decide),
      if_neg (by rw [hname]; decide), if_pos hname]
    refine takes_bind.2 ⟨_, _, htake, ?_⟩
    obtain ⟨arg, args, rfl⟩ := List.exists_cons_of_ne_nil hne
    exact takes_pure.2 ⟨rfl, rfl⟩
  | lambda hkind hname hbody =>
    obtain ⟨n, rfl⟩ := exists_succ (.lambda hkind hname hbody) hn
    refine ⟨_, ?_, rfl⟩
    rw [readSingleWithin]
    refine takes_name hkind (by rw [hname]; decide) ?_
    dsimp only
    rw [if_neg (by rw [hname]; decide), if_neg (by rw [hname]; decide),
      if_neg (by rw [hname]; decide), if_neg (by rw [hname]; decide), if_pos hname]
    refine takes_bind.2 ⟨_, _, ?_, takes_pure.2 ⟨rfl, rfl⟩⟩
    exact takes_map.2 ⟨_, takes_expectKind_cons hbody, rfl⟩
  | overload hkind hname hargs ih =>
    obtain ⟨n, rfl⟩ := exists_succ (.overload hkind hname hargs) hn
    have htake := ih (n := n) (by simp only [Part.slack, List.length_cons] at hn ⊢; omega)
    refine ⟨_, ?_, rfl⟩
    rw [readSingleWithin]
    refine takes_name hkind (by rw [hname]; decide) ?_
    dsimp only
    rw [if_neg (by rw [hname]; decide), if_neg (by rw [hname]; decide),
      if_neg (by rw [hname]; decide), if_neg (by rw [hname]; decide),
      if_neg (by rw [hname]; decide), if_pos hname]
    exact takes_bind.2 ⟨_, _, htake, takes_pure.2 ⟨rfl, rfl⟩⟩
  | @applied t b ts rest args hkind hopen hruled hb hargs ih =>
    obtain ⟨n, rfl⟩ := exists_succ (.applied hkind hopen hruled hb hargs) hn
    have htake := ih (n := n) (by simp only [Part.slack, List.length_cons] at hn ⊢; omega)
    refine ⟨_, ?_, rfl⟩
    rw [readSingleWithin]
    refine takes_name hkind hopen ?_
    refine takes_unruled hruled ?_
    refine takes_bind.2 ⟨_, _, takes_peekText_cons, ?_⟩
    rw [if_pos hb]
    refine takes_bind.2 ⟨_, _, htake, ?_⟩
    rcases args with - | ⟨arg, - | ⟨arg', args⟩⟩ <;> exact takes_pure.2 ⟨rfl, rfl⟩
  | leaf hkind hopen hruled hb =>
    obtain ⟨n, rfl⟩ := exists_succ (.leaf hkind hopen hruled hb) hn
    refine ⟨_, ?_, rfl⟩
    rw [readSingleWithin]
    refine takes_name hkind hopen ?_
    refine takes_unruled hruled ?_
    refine takes_bind.2 ⟨_, _, takes_peekText_cons, ?_⟩
    rw [if_neg hb]
    exact takes_pure.2 ⟨rfl, rfl⟩
  | bracketed htext hitems hclose ih =>
    obtain ⟨n, rfl⟩ := exists_succ (.bracketed htext hitems hclose) hn
    have htake := ih (n := n) (by simp only [Part.slack, List.length_cons] at hn ⊢; omega)
    rw [Part.Takes, readBracketedWithin]
    refine takes_bind.2 ⟨(), _, takes_expect.2 ⟨_, rfl, htext⟩, ?_⟩
    refine takes_bind.2 ⟨_, _, htake, ?_⟩
    exact takes_bind.2 ⟨(), _, takes_expect.2 ⟨_, rfl, hclose⟩, takes_pure.2 ⟨rfl, rfl⟩⟩
  | itemsEnd hclose =>
    obtain ⟨n, rfl⟩ := exists_succ (.itemsEnd hclose) hn
    rw [Part.Takes, readItemsWithin]
    refine takes_bind.2 ⟨_, _, takes_peekText_cons, ?_⟩
    rw [if_pos (closesItems_iff.2 hclose)]
    exact takes_pure.2 ⟨rfl, rfl⟩
  | itemsComma hopen hchoices hcomma hitems ihchoices ihitems =>
    obtain ⟨n, rfl⟩ := exists_succ (.itemsComma hopen hchoices hcomma hitems) hn
    have hlen := length_le_of_derives hitems
    have hlen' := length_le_of_derives hchoices
    simp only [Part.slack, List.length_cons] at hn hlen hlen'
    have htake := ihchoices (n := n) (by simp only [Part.slack, List.length_cons]; omega)
    have htake' := ihitems (n := n) (by simp only [Part.slack]; omega)
    rw [Part.Takes, readItemsWithin]
    refine takes_bind.2 ⟨_, _, takes_peekText_cons, ?_⟩
    rw [if_neg (fun hc ↦ hopen (closesItems_iff.1 hc))]
    refine takes_bind.2 ⟨_, _, htake, takes_bind.2 ⟨_, _, takes_peekText_cons, ?_⟩⟩
    rw [if_pos hcomma]
    refine takes_bind.2 ⟨(), _, takes_expect.2 ⟨_, rfl, hcomma⟩, ?_⟩
    exact takes_bind.2 ⟨_, _, htake', takes_pure.2 ⟨rfl, rfl⟩⟩
  | itemsLast hopen hchoices hclose ih =>
    obtain ⟨n, rfl⟩ := exists_succ (.itemsLast hopen hchoices hclose) hn
    have htake := ih (n := n) (by simp only [Part.slack] at hn ⊢; omega)
    rw [Part.Takes, readItemsWithin]
    refine takes_bind.2 ⟨_, _, takes_peekText_cons, ?_⟩
    rw [if_neg (fun hc ↦ hopen (closesItems_iff.1 hc))]
    refine takes_bind.2 ⟨_, _, htake, takes_bind.2 ⟨_, _, takes_peekText_cons, ?_⟩⟩
    rw [if_neg (by rcases hclose with h | h <;> rw [h] <;> decide),
      if_pos (closesItems_iff.2 hclose)]
    exact takes_pure.2 ⟨rfl, rfl⟩
  | choicesBar hsingle hbar hchoices ihsingle ihchoices =>
    obtain ⟨n, rfl⟩ := exists_succ (.choicesBar hsingle hbar hchoices) hn
    have hlen := length_le_of_derives hchoices
    have hlen' := length_le_of_derives hsingle
    simp only [Part.slack, List.length_cons] at hn hlen hlen'
    obtain ⟨_, htake, heq⟩ := ihsingle (n := n) (by simp only [Part.slack, List.length_cons]; omega)
    obtain ⟨rfl, -⟩ := List.cons_eq_cons.1 heq
    have htake' := ihchoices (n := n) (by simp only [Part.slack]; omega)
    rw [Part.Takes, readChoicesWithin]
    refine takes_bind.2 ⟨_, _, htake, takes_bind.2 ⟨_, _, takes_peekText_cons, ?_⟩⟩
    rw [if_pos hbar]
    refine takes_bind.2 ⟨(), _, takes_expect.2 ⟨_, rfl, hbar⟩, ?_⟩
    exact takes_bind.2 ⟨_, _, htake', takes_pure.2 ⟨rfl, rfl⟩⟩
  | choicesLast hsingle hbar ih =>
    obtain ⟨n, rfl⟩ := exists_succ (.choicesLast hsingle hbar) hn
    obtain ⟨_, htake, heq⟩ := ih (n := n) (by simp only [Part.slack] at hn ⊢; omega)
    obtain ⟨rfl, -⟩ := List.cons_eq_cons.1 heq
    rw [Part.Takes, readChoicesWithin]
    refine takes_bind.2 ⟨_, _, htake, takes_bind.2 ⟨_, _, takes_peekText_cons, ?_⟩⟩
    rw [if_neg hbar]
    exact takes_pure.2 ⟨rfl, rfl⟩

/-! ### Readers without a bound -/

theorem takes_unbounded {α : Type} {reader : Nat → Reader α} {a : α} :
    (unbounded reader).Takes ts a rest ↔ (reader (4 * ts.length + 4)).Takes ts a rest := by
  unfold unbounded
  rw [takes_bind]
  simp only [takes_get]
  constructor
  · rintro ⟨_, _, ⟨rfl, rfl⟩, h⟩
    exact h
  · intro h
    exact ⟨ts, ts, ⟨rfl, rfl⟩, h⟩

/-- **A type is read exactly where one is derived.** -/
theorem read_takes_iff {t : TypeExpr} :
    read.Takes ts t rest ↔ ∃ choices, Derives .choices ts choices rest ∧ t = ofChoices choices := by
  unfold read readChoices
  rw [takes_map]
  simp only [takes_unbounded]
  constructor
  · rintro ⟨choices, h, rfl⟩
    exact ⟨choices, derives_of_takes (p := .choices) h, rfl⟩
  · rintro ⟨choices, h, rfl⟩
    refine ⟨choices, takes_of_derives h ?_, rfl⟩
    simp only [Part.slack]
    omega

/-- One type is all there is. -/
theorem readWhole_takes_iff {t : TypeExpr} :
    readWhole.Takes ts t rest ↔ read.Takes ts t rest ∧ ∃ u more, rest = u :: more ∧ u.kind = .stop := by
  unfold readWhole atEnd
  rw [takes_bind]
  constructor
  · rintro ⟨t', mid, hread, h⟩
    obtain ⟨atEnd, mid', hend, h₁⟩ := takes_bind.1 h
    obtain ⟨tokens, mid'', hget, h₂⟩ := takes_bind.1 hend
    obtain ⟨rfl, rfl⟩ := takes_get.1 hget
    obtain ⟨rfl, rfl⟩ := takes_pure.1 h₂
    split at h₁
    · rename_i hstop
      obtain ⟨rfl, rfl⟩ := takes_pure.1 h₁
      refine ⟨hread, ?_⟩
      cases rest with
      | nil => simp at hstop
      | cons u more => exact ⟨u, more, rfl, by simpa using hstop⟩
    · obtain ⟨u, _, _, h₃⟩ := takes_bind.1 h₁
      exact absurd h₃ takes_throw
  · rintro ⟨hread, u, more, rfl, hstop⟩
    refine ⟨t, u :: more, hread, takes_bind.2 ⟨true, u :: more, ?_, takes_pure.2 ⟨rfl, rfl⟩⟩⟩
    refine takes_bind.2 ⟨_, _, takes_get.2 ⟨rfl, rfl⟩, takes_pure.2 ⟨?_, rfl⟩⟩
    simp [hstop]

end TypeExpr

/-! ### Collection displays -/

namespace Collection

open Reader

/-- An item of a collection: a type, or a key and a value with a colon between them. -/
inductive DerivesItem : Bool → List Token → TypeExpr → List Token → Prop
  | single {ts rest : List Token} {t : TypeExpr} : TypeExpr.read.Takes ts t rest →
      DerivesItem false ts t rest
  | pair {u : Token} {ts mid rest : List Token} {key value : TypeExpr} :
      TypeExpr.read.Takes ts key (u :: mid) → u.text = [':'] → TypeExpr.read.Takes mid value rest →
      DerivesItem true ts (.pair key value) rest

/-- The items of a collection up to its closing bracket. -/
inductive DerivesItems (closing : Text) (pairs : Bool) : List Token → List TypeExpr → List Token → Prop
  | done {t : Token} {rest : List Token} : t.text = closing →
      DerivesItems closing pairs (t :: rest) [] (t :: rest)
  | comma {u : Token} {ts mid rest : List Token} {item : TypeExpr} {items : List TypeExpr} :
      DerivesItem pairs ts item (u :: mid) → u.text = [','] → DerivesItems closing pairs mid items rest →
      DerivesItems closing pairs ts (item :: items) rest
  | last {u : Token} {ts rest : List Token} {item : TypeExpr} : DerivesItem pairs ts item (u :: rest) →
      u.text = closing → DerivesItems closing pairs ts [item] (u :: rest)

variable {ts rest : List Token}

theorem derivesItems_of_takes {closing : Text} {pairs : Bool} {n : Nat} {r : List TypeExpr × Bool}
    (h : (readItemsWithin closing pairs n).Takes ts r rest) : DerivesItems closing pairs ts r.1 rest := by
  induction n generalizing ts r with
  | zero => exact absurd h takes_throw
  | succ n ih =>
    rw [readItemsWithin] at h
    obtain ⟨ahead, mid, hpeek, h₁⟩ := takes_bind.1 h
    obtain ⟨t, more, rfl, rfl, rfl⟩ := takes_peekText.1 hpeek
    split at h₁
    · rename_i hclose
      obtain ⟨rfl, rfl⟩ := takes_pure.1 h₁
      exact .done hclose
    -- after an item comes a comma with further items, or the closing bracket
    have hnext : ∀ {item : TypeExpr} {mid : List Token},
        Takes (do
          let ahead ← peekText
          if ahead = [','] then
            expect [',']
            let more ← readItemsWithin closing pairs n
            return (item :: more.1, more.1.isEmpty || more.2)
          else if ahead = closing then
            return ([item], false)
          else
            throw (.expectedCloser closing ahead)) mid r rest →
        DerivesItem pairs (t :: more) item mid → DerivesItems closing pairs (t :: more) r.1 rest := by
      intro item mid h hitem
      obtain ⟨ahead, mid, hpeek, h₁⟩ := takes_bind.1 h
      obtain ⟨u, after, rfl, rfl, rfl⟩ := takes_peekText.1 hpeek
      split at h₁
      · rename_i hcomma
        obtain ⟨_, mid, hexpect, h₂⟩ := takes_bind.1 h₁
        obtain ⟨u', hcons, -⟩ := takes_expect.1 hexpect
        obtain ⟨rfl, rfl⟩ := List.cons_eq_cons.1 hcons
        obtain ⟨items, mid, hitems, h₃⟩ := takes_bind.1 h₂
        obtain ⟨rfl, rfl⟩ := takes_pure.1 h₃
        exact .comma hitem hcomma (ih hitems)
      split at h₁
      · rename_i hclose
        obtain ⟨rfl, rfl⟩ := takes_pure.1 h₁
        exact .last hitem hclose
      · exact absurd h₁ takes_throw
    obtain ⟨tree, mid, hread, h₂⟩ := takes_bind.1 h₁
    dsimp only at h₂
    cases pairs with
    | true =>
      obtain ⟨_, mid', hexpect, h₃⟩ := takes_bind.1 h₂
      obtain ⟨u, rfl, hcolon⟩ := takes_expect.1 hexpect
      obtain ⟨value, mid'', hvalue, h₄⟩ := takes_bind.1 h₃
      exact hnext h₄ (.pair hread hcolon hvalue)
    | false => exact hnext h₂ (.single hread)

/-- **A collection that is read** stands between its brackets. -/
theorem exists_derivesItems_of_read {c : Collection} (h : read.Takes ts c rest) :
    ∃ t mid u pairs, ts = t :: mid ∧ t.text = c.bracket.opening ∧
      DerivesItems c.bracket.closing pairs mid c.items (u :: rest) ∧ u.text = c.bracket.closing := by
  unfold read at h
  obtain ⟨t, mid, hnext, h₁⟩ := takes_bind.1 h
  obtain rfl := takes_next.1 hnext
  split at h₁
  · exact absurd h₁ takes_throw
  rename_i bracket hbracket
  obtain ⟨ahead, mid', hget, h₂⟩ := takes_bind.1 h₁
  obtain ⟨rfl, rfl⟩ := takes_get.1 hget
  obtain ⟨r, mid', hitems, h₃⟩ := takes_bind.1 h₂
  obtain ⟨_, mid'', hexpect, h₄⟩ := takes_bind.1 h₃
  obtain ⟨u, rfl, hclose⟩ := takes_expect.1 hexpect
  obtain ⟨rfl, rfl⟩ := takes_pure.1 h₄
  have hopening : bracket.opening = t.text := by
    simpa using List.find?_some hbracket
  exact ⟨t, _, u, _, rfl, hopening.symm, derivesItems_of_takes hitems, hclose⟩

end Collection

end HeaderHints
