import Mathlib.Data.List.TakeDrop
import Mathlib.Data.List.TakeWhile
import HeaderHints.Proofs.TypeGrammar
import HeaderHints.TypeExpr.Tokens

/-!
# The phrases of types

The grammar of types, said without a reader: `Forms part ts trees` is a grammar without lookahead, in which
every rule lists the tokens that it is made of. The tokens of an inferred type are read exactly if they form
a type, and then the type that is read is the one that they form (`readWhole_iff_forms`).

`Derives` knows the tokens that follow a part, since a reader looks at them. The two relations agree on
tokens that the lexer of types makes (`Lexed`): there a bracket, a comma or a bar is a separator, and never
the text of a name.
-/

namespace HeaderHints.TypeExpr

open Text Reader

/-! ### Tokens of inferred types -/

/-- A token that the lexer of types makes: a separator, or a name of word characters, dots and colons. -/
inductive Lexed : Token → Prop
  | separator {text : Text} : Lexed (.of .separator text)
  | name {text : Text} : (∀ c ∈ text, isWord c = true ∨ c = '.' ∨ c = ':') → Lexed (.of .dottedName text)

/-- A character of a written name. -/
def Writes (c : Char) : Prop :=
  isWord c = true ∨ isBlank c = true ∨ c ∈ ['.', ':', '-', '/', '\x60']

theorem writes_of_isPart {c : Char} (h : isPart c = true) : Writes c := by
  simp only [isPart, Bool.or_eq_true, decide_eq_true_eq] at h
  rcases h with (h | rfl) | rfl
  · exact .inl h
  · exact .inr (.inr (by simp))
  · exact .inr (.inr (by simp))

theorem writes_splitParts (n : Nat) (t : Text) : ∀ c ∈ (splitParts n t).1, Writes c := by
  induction n generalizing t with
  | zero => simp [splitParts]
  | succ n ih =>
    rw [splitParts, List.span_eq_takeWhile_dropWhile]
    cases hrest : t.dropWhile isBlank with
    | nil => simp
    | cons d r =>
      dsimp only
      split
      · rename_i hd
        have hd : d ∈ ['.', ':', '-', '/', '\x60'] := by
          simp only [Bool.or_eq_true, decide_eq_true_eq] at hd
          rcases hd with rfl | rfl <;> simp
        have hblank : ∀ {u : Text}, ∀ c ∈ u.takeWhile isBlank, Writes c :=
          fun c hc ↦ .inr (.inl (List.mem_takeWhile_imp hc))
        simp only [List.span_eq_takeWhile_dropWhile, List.mem_append, List.mem_cons]
        rintro c (((hc | rfl | hc) | hc) | hc)
        · exact hblank c hc
        · exact .inr (.inr hd)
        · exact hblank c hc
        · exact writes_of_isPart (List.mem_takeWhile_imp hc)
        · exact ih _ c hc
      · simp

theorem writes_splitName (t : Text) : ∀ c ∈ (splitName t).1, Writes c := by
  rw [splitName, List.span_eq_takeWhile_dropWhile]
  split
  · simp
  · rename_i head r _ hspan
    obtain ⟨rfl, rfl⟩ := Prod.mk.inj hspan
    intro c hc
    rcases List.mem_append.1 hc with hc | hc
    · have hhead := List.mem_takeWhile_imp hc
      simp only [isHead, Bool.or_eq_true, decide_eq_true_eq] at hhead
      rcases hhead with (h | rfl) | rfl
      · exact .inl h
      · exact .inr (.inr (by simp))
      · exact .inr (.inr (by simp))
    · exact writes_splitParts _ _ c hc

/-- What is meant by a written name has no blanks, dashes, slashes and backquotes. -/
theorem lexed_meantName {written : Text} (h : ∀ c ∈ written, Writes c) :
    Lexed (.of .dottedName (meantName written)) := by
  refine .name ?_
  unfold meantName
  dsimp only
  split
  · decide
  split
  · decide
  · rename_i hnone
    simp only [Bool.or_eq_true, List.contains_iff_mem, not_or] at hnone
    intro c hc
    have htake := List.mem_takeWhile_imp hc
    obtain ⟨hmem, hblank⟩ := List.mem_filter.1 ((List.takeWhile_prefix _).subset hc)
    rcases h c hmem with hword | hblank' | hmark
    · exact .inl hword
    · rw [hblank'] at hblank
      exact absurd hblank (by simp)
    · simp only [List.mem_cons, List.not_mem_nil, or_false] at hmark
      rcases hmark with rfl | rfl | rfl | rfl | rfl
      · exact .inr (.inl rfl)
      · exact .inr (.inr rfl)
      · exact absurd hc hnone.1
      · exact absurd hc hnone.2
      · exact absurd htake (by simp)

/-- **The tokens of an inferred type** are separators and names, closed by the end token. -/
theorem lexed_of_lexRest {whole : Text} {n : Nat} {t : Text} {tokens : List Token}
    (h : lexRest whole n t = .ok tokens) :
    ∃ front, tokens = front ++ [Token.last] ∧ ∀ u ∈ front, Lexed u := by
  -- a token in front of the others
  have hcons : ∀ {r : Except Fault (List Token)} {u : Token} {tokens : List Token},
      (do return u :: (← r)) = Except.ok tokens → Lexed u →
      (∀ {more}, r = .ok more → ∃ front, more = front ++ [Token.last] ∧ ∀ v ∈ front, Lexed v) →
      ∃ front, tokens = front ++ [Token.last] ∧ ∀ v ∈ front, Lexed v := by
    intro r u tokens hr hu hall
    obtain ⟨more, hmore, heq⟩ := bind_eq_ok.1 hr
    obtain ⟨front, rfl, hfront⟩ := hall hmore
    obtain rfl := Except.ok.inj heq
    exact ⟨u :: front, rfl, List.forall_mem_cons.2 ⟨hu, hfront⟩⟩
  fun_induction lexRest whole n t generalizing tokens with
  | case1 => exact ⟨[], (Except.ok.inj h).symm, by simp⟩
  | case2 => exact absurd h (by simp)
  | case3 _ _ _ _ ih => exact ih h
  | case4 _ _ _ _ _ ih => exact hcons h .separator fun hmore ↦ ih hmore
  | case5 _ _ _ _ _ _ _ ih => exact hcons h .separator fun hmore ↦ ih hmore
  | case6 _ _ _ _ _ _ _ _ ih => exact hcons h (.name (by decide)) fun hmore ↦ ih hmore
  | case7 => exact absurd h (by simp)
  | case8 n c t _ _ name r _ hsplit _ _ ih =>
    refine hcons h (lexed_meantName ?_) fun hmore ↦ ih hmore
    have hwrites := writes_splitName (c :: t)
    rwa [hsplit] at hwrites

theorem lexed_of_lex {text : Text} {tokens : List Token} (h : lex text = .ok tokens) :
    ∃ front, tokens = front ++ [Token.last] ∧ ∀ u ∈ front, Lexed u :=
  lexed_of_lexRest h

/-- Punctuation is a separator. -/
theorem eq_separator {t : Token} {c : Char} (ht : Lexed t ∨ t = Token.last) (htext : t.text = [c])
    (hc : c ∈ "[](),|".toList) : t = .of .separator [c] := by
  have hmark : ∀ e ∈ "[](),|".toList, isWord e = false ∧ e ≠ '.' ∧ e ≠ ':' := by decide
  obtain ⟨hword, hdot, hcolon⟩ := hmark c hc
  rcases ht with (- | hname) | rfl
  · obtain rfl : _ = [c] := htext
    rfl
  · obtain rfl : _ = [c] := htext
    simp [hword, hdot, hcolon] at hname
  · exact absurd htext (by simp [Token.last, Token.text])

/-- What counts as a name is one. -/
theorem eq_name {t : Token} (ht : Lexed t ∨ t = Token.last) (hkind : t.isA .dottedName = true) :
    t = .of .dottedName t.text := by
  rcases ht with (- | -) | rfl
  · exact absurd hkind Bool.false_ne_true
  · rfl
  · exact absurd hkind (by decide)

theorem isA_lambdaBody_eq_false {t : Token} (ht : Lexed t ∨ t = Token.last) :
    t.isA .lambdaBody = false := by
  rcases ht with (- | -) | rfl <;> rfl

/-- No name is punctuation. -/
theorem Lexed.ne_of_name {name : Text} {c : Char} (h : Lexed (.of .dottedName name))
    (hc : c ∈ "[](),|".toList) : name ≠ [c] := by
  rintro rfl
  exact absurd (eq_separator (.inl h) rfl hc) (by simp [Token.of])

/-! ### Phrases -/

/-- The tokens `ts` form `part`, which stands for `trees`. -/
inductive Forms : Part → List Token → List TypeExpr → Prop
  | list {ts : List Token} {args : List TypeExpr} : Forms (.bracketed ['['] [']']) ts args →
      Forms .single ts [node [] args]
  | any : Forms .single [.of .dottedName "Any".toList] [TypeExpr.leaf "Any".toList]
  | noReturn {name : Text} : name = "mypy_extensions.NoReturn".toList ∨ name = "typing.NoReturn".toList →
      Forms .single [.of .dottedName name] [TypeExpr.leaf "NoReturn".toList]
  | tuple {ts : List Token} {args : List TypeExpr} : Forms (.bracketed ['['] [']']) ts args →
      Forms .single (.of .dottedName "Tuple".toList :: ts) [node "Tuple".toList args]
  | union {ts : List Token} {args : List TypeExpr} : args ≠ [] → Forms (.bracketed ['['] [']']) ts args →
      Forms .single (.of .dottedName "Union".toList :: ts) [ofChoices args]
  | overload {ts : List Token} {args : List TypeExpr} : Forms (.bracketed ['('] [')']) ts args →
      Forms .single (.of .dottedName "Overload".toList :: ts) [node "Overload".toList args]
  | leaf {name : Text} : name ∉ ruledNames → Forms .single [.of .dottedName name] [TypeExpr.leaf name]
  | applied {name : Text} {ts : List Token} {args : List TypeExpr} : name ∉ ruledNames →
      Forms (.bracketed ['['] [']']) ts args → Forms .single (.of .dottedName name :: ts) [ofItems name args]
  | bracketed {opening closing : Text} {ts : List Token} {args : List TypeExpr} : Forms .items ts args →
      Forms (.bracketed opening closing) (.of .separator opening :: (ts ++ [.of .separator closing])) args
  | none : Forms .items [] []
  | last {ts : List Token} {choices : List TypeExpr} : Forms .choices ts choices →
      Forms .items ts [ofChoices choices]
  | comma {ts us : List Token} {choices more : List TypeExpr} : Forms .choices ts choices →
      Forms .items us more → Forms .items (ts ++ .of .separator [','] :: us) (ofChoices choices :: more)
  | choice {ts : List Token} {t : TypeExpr} : Forms .single ts [t] → Forms .choices ts [t]
  | bar {ts us : List Token} {t : TypeExpr} {more : List TypeExpr} : Forms .single ts [t] →
      Forms .choices us more → Forms .choices (ts ++ .of .separator ['|'] :: us) (t :: more)

variable {p : Part} {ts rest : List Token} {trees : List TypeExpr}

/-! ### What is derived is a phrase -/

/-- Brackets that belong together. -/
def Part.Paired : Part → Prop
  | bracketed opening closing => (opening = ['['] ∧ closing = [']']) ∨ (opening = ['('] ∧ closing = [')'])
  | _ => True

/-- **What is derived is a phrase**, and it stands before what follows it. -/
theorem exists_forms_of_derives (h : Derives p ts trees rest) (hp : p.Paired)
    (hts : ∀ t ∈ ts, Lexed t ∨ t = Token.last) :
    ∃ front, ts = front ++ rest ∧ Forms p front trees := by
  induction h with
  | list _ _ ih =>
    obtain ⟨front, hsplit, hforms⟩ := ih (.inl ⟨rfl, rfl⟩) hts
    exact ⟨front, hsplit, .list hforms⟩
  | @any t _ hkind htext =>
    refine ⟨[t], rfl, ?_⟩
    rw [eq_name (hts t (by simp)) hkind, htext]
    exact .any
  | @noReturn t _ hkind htext =>
    refine ⟨[t], rfl, ?_⟩
    rw [eq_name (hts t (by simp)) hkind]
    exact .noReturn htext
  | @tuple t _ _ _ hkind htext _ ih =>
    obtain ⟨front, rfl, hforms⟩ := ih (.inl ⟨rfl, rfl⟩) fun u hu ↦ hts u (by simp [hu])
    refine ⟨t :: front, rfl, ?_⟩
    rw [eq_name (hts t (by simp)) hkind, htext]
    exact .tuple hforms
  | @union t _ _ _ hkind htext hne _ ih =>
    obtain ⟨front, rfl, hforms⟩ := ih (.inl ⟨rfl, rfl⟩) fun u hu ↦ hts u (by simp [hu])
    refine ⟨t :: front, rfl, ?_⟩
    rw [eq_name (hts t (by simp)) hkind, htext]
    exact .union hne hforms
  | @lambda _ b _ _ _ hb =>
    rw [isA_lambdaBody_eq_false (hts b (by simp))] at hb
    exact absurd hb (by simp)
  | @overload t _ _ _ hkind htext _ ih =>
    obtain ⟨front, rfl, hforms⟩ := ih (.inr ⟨rfl, rfl⟩) fun u hu ↦ hts u (by simp [hu])
    refine ⟨t :: front, rfl, ?_⟩
    rw [eq_name (hts t (by simp)) hkind, htext]
    exact .overload hforms
  | @applied t _ _ _ _ hkind _ hruled _ _ ih =>
    obtain ⟨front, hsplit, hforms⟩ := ih (.inl ⟨rfl, rfl⟩) fun u hu ↦ hts u (List.mem_cons_of_mem _ hu)
    refine ⟨t :: front, by rw [hsplit]; rfl, ?_⟩
    rw [eq_name (hts t (by simp)) hkind]
    exact .applied hruled hforms
  | @leaf t _ _ hkind _ hruled _ =>
    refine ⟨[t], rfl, ?_⟩
    rw [eq_name (hts t (by simp)) hkind]
    exact .leaf hruled
  | @bracketed opening closing t u ts rest _ htext _ hclose ih =>
    obtain ⟨front, rfl, hforms⟩ := ih trivial fun v hv ↦ hts v (by simp [hv])
    have hmarks : t = .of .separator opening ∧ u = .of .separator closing := by
      rcases hp with ⟨rfl, rfl⟩ | ⟨rfl, rfl⟩ <;>
        exact ⟨eq_separator (hts t (by simp)) htext (by decide),
          eq_separator (hts u (by simp)) hclose (by decide)⟩
    obtain ⟨rfl, rfl⟩ := hmarks
    exact ⟨_, by simp, .bracketed hforms⟩
  | itemsEnd _ => exact ⟨[], rfl, .none⟩
  | @itemsComma _ u _ mid _ _ _ _ hchoices hcomma _ ih ih' =>
    obtain ⟨front, hsplit, hforms⟩ := ih trivial hts
    have hmid : ∀ t ∈ u :: mid, Lexed t ∨ t = Token.last := fun t ht ↦ hts t (by rw [hsplit]; simp [ht])
    obtain ⟨more, rfl, hmore⟩ := ih' trivial fun t ht ↦ hmid t (by simp [ht])
    obtain rfl := eq_separator (hmid u (by simp)) hcomma (by decide)
    exact ⟨front ++ .of .separator [','] :: more, by simp [hsplit], .comma hforms hmore⟩
  | itemsLast _ _ _ ih =>
    obtain ⟨front, hsplit, hforms⟩ := ih trivial hts
    exact ⟨front, hsplit, .last hforms⟩
  | @choicesBar u _ mid _ _ _ _ hbar _ ih ih' =>
    obtain ⟨front, rfl, hforms⟩ := ih trivial hts
    have hmid : ∀ t ∈ u :: mid, Lexed t ∨ t = Token.last := fun t ht ↦ hts t (by simp [ht])
    obtain ⟨more, rfl, hmore⟩ := ih' trivial fun t ht ↦ hmid t (by simp [ht])
    obtain rfl := eq_separator (hmid u (by simp)) hbar (by decide)
    exact ⟨front ++ .of .separator ['|'] :: more, by simp, .bar hforms hmore⟩
  | choicesLast _ _ ih =>
    obtain ⟨front, hsplit, hforms⟩ := ih trivial hts
    exact ⟨front, hsplit, .choice hforms⟩

/-! ### What is a phrase is derived -/

/-- What may follow a part where it ends. -/
def Part.Follows : Part → Token → Prop
  | single, u => u.text ≠ ['[']
  | bracketed _ _, _ => True
  | items, u => closesItems u.text
  | choices, u => u.text ≠ ['['] ∧ u.text ≠ ['|']

theorem ne_of_closesItems {t : Text} (h : closesItems t) : t ≠ ['['] ∧ t ≠ ['|'] := by
  rcases h with rfl | rfl <;> decide

/-- A type does not start with a closing bracket. -/
theorem Forms.starts (h : Forms p ts trees) (hts : ∀ t ∈ ts, Lexed t) (hp : p = .single ∨ p = .choices) :
    ∃ first more, ts = first :: more ∧ ¬ closesItems first.text := by
  have hname : ∀ {t : Token}, Lexed t → t.isA .dottedName = true → ¬ closesItems t.text := by
    intro t ht hkind
    rw [eq_name (.inl ht) hkind] at ht
    rintro (h | h)
    · exact ht.ne_of_name (by decide) h
    · exact ht.ne_of_name (by decide) h
  induction h with
  | list h _ =>
    cases h
    exact ⟨_, _, rfl, by simp [closesItems, Token.of, Token.text]⟩
  | any | noReturn | tuple | union | overload | leaf | applied =>
    exact ⟨_, _, rfl, hname (hts _ List.mem_cons_self) rfl⟩
  | bracketed | none | last | comma => simp at hp
  | choice _ ih => exact ih hts (.inl rfl)
  | bar _ _ ih _ =>
    obtain ⟨first, more, rfl, hfirst⟩ := ih (fun t ht ↦ hts t (by simp [ht])) (.inl rfl)
    exact ⟨first, _, rfl, hfirst⟩

/-- **A phrase is derived**, wherever it ends. -/
theorem derives_of_forms (h : Forms p ts trees) (hp : p.Paired) (hts : ∀ t ∈ ts, Lexed t) {u : Token}
    (hu : p.Follows u) (rest : List Token) : Derives p (ts ++ u :: rest) trees (u :: rest) := by
  induction h generalizing u rest with
  | list h ih =>
    have hargs := ih (.inl ⟨rfl, rfl⟩) hts (u := u) trivial rest
    cases h
    exact .list rfl hargs
  | any => exact .any rfl rfl
  | noReturn h => exact .noReturn rfl h
  | tuple _ ih => exact .tuple rfl rfl (ih (.inl ⟨rfl, rfl⟩) (fun t ht ↦ hts t (by simp [ht])) trivial rest)
  | union hne _ ih => exact .union rfl rfl hne (ih (.inl ⟨rfl, rfl⟩) (fun t ht ↦ hts t (by simp [ht])) trivial rest)
  | overload _ ih => exact .overload rfl rfl (ih (.inr ⟨rfl, rfl⟩) (fun t ht ↦ hts t (by simp [ht])) trivial rest)
  | leaf hruled => exact .leaf rfl (Lexed.ne_of_name (hts _ List.mem_cons_self) (by decide)) hruled hu
  | applied hruled h ih =>
    have hargs := ih (.inl ⟨rfl, rfl⟩) (fun t ht ↦ hts t (by simp [ht])) (u := u) trivial rest
    cases h
    exact .applied rfl (Lexed.ne_of_name (hts _ List.mem_cons_self) (by decide)) hruled rfl hargs
  | @bracketed opening closing ts args _ ih =>
    have hclose : closesItems closing := by
      rcases hp with ⟨-, rfl⟩ | ⟨-, rfl⟩
      · exact .inr rfl
      · exact .inl rfl
    have hitems := ih trivial (fun t ht ↦ hts t (by simp [ht])) (u := .of .separator closing) hclose (u :: rest)
    rw [List.cons_append, List.append_assoc]
    exact .bracketed rfl hitems rfl
  | none => exact .itemsEnd hu
  | last h ih =>
    obtain ⟨first, more, rfl, hfirst⟩ := h.starts hts (.inr rfl)
    exact .itemsLast hfirst (ih trivial hts (ne_of_closesItems hu) rest) hu
  | @comma ts us choices more h _ ih ih' =>
    have hts' : ∀ t ∈ ts, Lexed t := fun t ht ↦ hts t (by simp [ht])
    obtain ⟨first, ts, rfl, hfirst⟩ := h.starts hts' (.inr rfl)
    have hmore := ih' trivial (fun t ht ↦ hts t (by simp [ht])) hu rest
    rw [List.append_assoc]
    exact .itemsComma hfirst (ih trivial hts' (u := .of .separator [',']) ⟨by decide, by decide⟩ _) rfl hmore
  | choice _ ih => exact .choicesLast (ih trivial hts hu.1 rest) hu.2
  | @bar ts us t more _ _ ih ih' =>
    have hts' : ∀ t ∈ ts, Lexed t := fun t ht ↦ hts t (by simp [ht])
    have hmore := ih' trivial (fun t ht ↦ hts t (by simp [ht])) hu rest
    rw [List.append_assoc]
    exact .choicesBar (ih trivial hts' (u := .of .separator ['|']) (show _ ≠ _ by decide) _) rfl hmore

/-- **An inferred type is read exactly if its tokens form a type**, and then it is the type that they
form. -/
theorem readWhole_iff_forms {text : Text} {tokens : List Token} (hlex : lex text = .ok tokens) :
    ∃ front, tokens = front ++ [Token.last] ∧
      ((∃ t rest, readWhole.Takes tokens t rest) ↔ ∃ choices, Forms .choices front choices) ∧
      ∀ choices, Forms .choices front choices → readWhole.Takes tokens (ofChoices choices) [Token.last] := by
  obtain ⟨front, rfl, hfront⟩ := lexed_of_lex hlex
  have htakes : ∀ choices, Forms .choices front choices →
      readWhole.Takes (front ++ [Token.last]) (ofChoices choices) [Token.last] := by
    intro choices hforms
    have hderives := derives_of_forms hforms trivial hfront (u := Token.last) ⟨by decide, by decide⟩ []
    exact readWhole_takes_iff.2 ⟨read_takes_iff.2 ⟨choices, hderives, rfl⟩, _, _, rfl, rfl⟩
  refine ⟨front, rfl, ⟨?_, fun ⟨choices, hforms⟩ ↦ ⟨_, _, htakes choices hforms⟩⟩, htakes⟩
  rintro ⟨t, rest, hread⟩
  obtain ⟨hread, u, more, rfl, hstop⟩ := readWhole_takes_iff.1 hread
  obtain ⟨choices, hderives, -⟩ := read_takes_iff.1 hread
  obtain ⟨front', hsplit, hforms⟩ := exists_forms_of_derives hderives trivial fun t ht ↦ by
    rcases List.mem_append.1 ht with ht | ht
    · exact .inl (hfront t ht)
    · exact .inr (List.mem_singleton.1 ht)
  -- the end token stands behind the others, and is the only one of its kind
  have hfront' : front' = front := by
    rcases List.append_eq_append_iff.1 hsplit with ⟨mid, rfl, hmid⟩ | ⟨mid, rfl, hmid⟩
    · rcases List.append_eq_singleton_iff.1 hmid.symm with ⟨rfl, -⟩ | ⟨-, hnil⟩
      · simp
      · exact absurd hnil (by simp)
    · rcases mid with - | ⟨v, mid⟩
      · simp
      · obtain ⟨rfl, -⟩ := List.cons_eq_cons.1 hmid
        rcases hfront u (by simp) with - | - <;> exact absurd hstop (by simp [Token.of])
  subst hfront'
  exact ⟨choices, hforms⟩

theorem readWhole_iff_forms_optional :
    ∃ tokens, lex "Optional[a.b | c,]".toList = .ok tokens ∧
      readWhole.Takes tokens
        (optional (union [TypeExpr.leaf "a.b".toList, TypeExpr.leaf ['c']])) [Token.last] := by
  have hlex : lex "Optional[a.b | c,]".toList =
      .ok ([.of .dottedName "Optional".toList, .of .separator ['['], .of .dottedName "a.b".toList,
        .of .separator ['|'], .of .dottedName ['c'], .of .separator [','], .of .separator [']']] ++
        [Token.last]) := by rfl
  have hchoices : Forms .choices
      [.of .dottedName "a.b".toList, .of .separator ['|'], .of .dottedName ['c']]
      [TypeExpr.leaf "a.b".toList, TypeExpr.leaf ['c']] :=
    .bar (.leaf (by decide)) (.choice (.leaf (by decide)))
  obtain ⟨front, hsplit, -, htakes⟩ := readWhole_iff_forms hlex
  obtain rfl := List.append_cancel_right hsplit
  exact ⟨_, hlex, htakes _ (.choice (.applied (by decide) (.bracketed (.comma hchoices .none))))⟩

end HeaderHints.TypeExpr
