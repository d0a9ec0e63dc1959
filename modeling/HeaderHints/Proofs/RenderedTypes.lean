import HeaderHints.Proofs.TypePhrases

/-!
# Texts of inferred types

The names of a type that is read are those of its tokens, apart from a few that the grammar brings in
(`allNames_of_derives`). The names of an inferred type hold no spaces, since lexing drops blanks. So the text
of an inferred type is there and does not end in a space (`firm_of_inferred`): layout that follows it cannot
reach into it.
-/

namespace HeaderHints

namespace Text

/-- A text that is there and does not end in a space. -/
def Firm (t : Text) : Prop :=
  ∃ front c, t = front ++ [c] ∧ c ≠ ' '

theorem Firm.append {t : Text} (h : Firm t) (u : Text) : Firm (u ++ t) := by
  obtain ⟨front, c, rfl, hc⟩ := h
  exact ⟨u ++ front, c, by simp, hc⟩

theorem Firm.getLast?_ne {t : Text} (h : Firm t) : t.getLast? ≠ some ' ' := by
  obtain ⟨front, c, rfl, hc⟩ := h
  simpa using hc

theorem firm_of_not_mem {t : Text} (hne : t ≠ []) (h : ' ' ∉ t) : Firm t := by
  refine ⟨t.dropLast, t.getLast hne, (List.dropLast_concat_getLast hne).symm, fun hc ↦ h ?_⟩
  rw [← hc]
  exact List.getLast_mem hne

theorem firm_intercalate {sep : Text} {ts : List Text} (hne : ts ≠ []) (h : ∀ t ∈ ts, Firm t) :
    Firm (sep.intercalate ts) := by
  induction ts with
  | nil => exact absurd rfl hne
  | cons t ts ih =>
    cases ts with
    | nil => simpa [List.intercalate] using h t (by simp)
    | cons u ts =>
      have hrest := ih (by simp) fun v hv ↦ h v (by simp [hv])
      have hcons : sep.intercalate (t :: u :: ts) = t ++ sep ++ sep.intercalate (u :: ts) := by
        simp [List.intercalate]
      rw [hcons]
      exact hrest.append _

theorem cut?_eq_some {c : Char} {t front back : Text} (h : cut? c t = some (front, back)) :
    t = front ++ c :: back := by
  induction t generalizing front back with
  | nil => exact absurd h (by simp [cut?])
  | cons d t ih =>
    rw [cut?] at h
    split at h
    · rename_i hd
      obtain ⟨rfl, rfl⟩ := Prod.mk.inj (Option.some.inj h)
      rw [hd]
      rfl
    · obtain ⟨⟨front', back'⟩, hcut, heq⟩ := Option.map_eq_some_iff.1 h
      obtain ⟨rfl, rfl⟩ := Prod.mk.inj heq
      rw [ih hcut]
      rfl

end Text

namespace TypeExpr

open Text

/-! ### Names without spaces -/

/-- A type whose names hold no spaces. -/
inductive Spaceless : TypeExpr → Prop
  | node {name : Text} {args : List TypeExpr} : ' ' ∉ name → (∀ t ∈ args, Spaceless t) →
      Spaceless (node name args)

theorem unqualified?_suffix {modules : Modules} {c : Char} {name short : Text}
    (h : unqualified? modules c name = some short) : short <:+ name := by
  unfold unqualified? at h
  split at h
  · rename_i module back hcut
    split at h
    · obtain rfl := Option.some.inj h
      rw [cut?_eq_some hcut]
      exact ⟨module ++ [c], by simp⟩
    · exact absurd h (by simp)
  · exact absurd h (by simp)

theorem getD_unqualified?_suffix (modules : Modules) (c : Char) (name : Text) :
    (unqualified? modules c name).getD name <:+ name := by
  cases h : unqualified? modules c name with
  | none => exact List.suffix_rfl
  | some short => exact unqualified?_suffix h

theorem untyped_suffix (name : Text) : untyped name <:+ name := by
  unfold untyped
  cases h : unqualified? typingModules '.' name with
  | some short => exact unqualified?_suffix h
  | none =>
    cases h' : unqualified? typingModules ':' name with
    | some short => exact unqualified?_suffix h'
    | none => exact List.suffix_rfl

/-- The characters of a name as it is written are those of the name, or of a built-in name. -/
theorem forall_mem_displayName {P : Char → Prop} (modules : Modules) {name : Text}
    (halias : ∀ name ∈ aliases, ∀ c ∈ name.map Char.toLower, P c) (h : ∀ c ∈ name, P c) :
    ∀ c ∈ displayName modules name, P c := by
  unfold displayName
  dsimp only
  split
  · rename_i hmem
    exact halias _ (by simpa using hmem)
  · intro c hc
    exact h c ((getD_unqualified?_suffix modules '.' name).subset ((untyped_suffix _).subset hc))

theorem space_not_mem_displayName {modules : Modules} {name : Text} (h : ' ' ∉ name) :
    ' ' ∉ displayName modules name := by
  have hname : ∀ c ∈ name, c ≠ ' ' := fun c hc heq ↦ h (heq ▸ hc)
  have hall := forall_mem_displayName modules (by decide) hname
  exact fun hmem ↦ hall _ hmem rfl

theorem firm_applied {name : Text} {args : List Text} (hname : ' ' ∉ name)
    (hargs : ∀ t ∈ args, Firm t) : Firm (applied name args) := by
  unfold applied
  split
  · split
    · exact ⟨['['], ']', rfl, by decide⟩
    · rename_i hne
      exact firm_of_not_mem (by simpa using hne) hname
  rename_i hne
  have hne : args ≠ [] := by simpa using hne
  split
  · exact firm_intercalate hne hargs
  split
  · exact firm_intercalate hne hargs
  · exact ⟨_, ']', rfl, by decide⟩

/-- **The text of a type without spaces in its names** does not end in a space. -/
theorem Spaceless.firm_render {t : TypeExpr} (modules : Modules) (h : t.Spaceless) :
    Firm (render modules t) := by
  induction h with
  | @node name args hname _ ih =>
    rw [render, renderAll_eq_map]
    refine firm_applied (space_not_mem_displayName hname) fun u hu ↦ ?_
    obtain ⟨t, ht, rfl⟩ := List.mem_map.1 hu
    exact ih t ht

theorem suffix_of_derives {p : Part} {ts rest : List Token} {trees : List TypeExpr}
    (h : Derives p ts trees rest) : rest <:+ ts := by
  induction h with
  | list _ _ ih => exact ih
  | any _ _ => exact List.suffix_cons _ _
  | noReturn _ _ => exact List.suffix_cons _ _
  | tuple _ _ _ ih => exact ih.trans (List.suffix_cons _ _)
  | union _ _ _ _ ih => exact ih.trans (List.suffix_cons _ _)
  | lambda _ _ _ => exact (List.suffix_cons _ _).trans (List.suffix_cons _ _)
  | overload _ _ _ ih => exact ih.trans (List.suffix_cons _ _)
  | applied _ _ _ _ _ ih => exact ih.trans (List.suffix_cons _ _)
  | leaf _ _ _ _ => exact List.suffix_cons _ _
  | bracketed _ _ _ ih => exact ((List.suffix_cons _ _).trans ih).trans (List.suffix_cons _ _)
  | itemsEnd _ => exact List.suffix_rfl
  | itemsComma _ _ _ _ ih ih' => exact (ih'.trans (List.suffix_cons _ _)).trans ih
  | itemsLast _ _ _ ih => exact ih
  | choicesBar _ _ _ ih ih' => exact (ih'.trans (List.suffix_cons _ _)).trans ih
  | choicesLast _ _ ih => exact ih

/-! ### Names of types that are read -/

/-- Every name of a type satisfies `P`. -/
inductive AllNames (P : Text → Prop) : TypeExpr → Prop
  | node {name : Text} {args : List TypeExpr} : P name → (∀ t ∈ args, AllNames P t) → AllNames P (node name args)

theorem AllNames.mono {P Q : Text → Prop} (hPQ : ∀ {name}, P name → Q name) {t : TypeExpr}
    (h : t.AllNames P) : t.AllNames Q := by
  induction h with
  | node hname _ ih => exact .node (hPQ hname) ih

theorem Spaceless.of_allNames {t : TypeExpr} (h : t.AllNames (' ' ∉ ·)) : t.Spaceless := by
  induction h with
  | node hname _ ih => exact .node hname ih

/-- The names that the grammar brings in. -/
def grammarNames : List Text :=
  [[], "NoReturn".toList, "Union".toList, "None".toList]

variable {P : Text → Prop}

theorem allNames_ofChoices (hP : ∀ name ∈ grammarNames, P name) {ts : List TypeExpr}
    (h : ∀ t ∈ ts, t.AllNames P) : (ofChoices ts).AllNames P := by
  unfold ofChoices
  split
  · exact h _ (by simp)
  · exact .node (hP _ (by decide)) h

theorem allNames_ofItems (hP : ∀ name ∈ grammarNames, P name) {name : Text} {ts : List TypeExpr}
    (hname : P name) (h : ∀ t ∈ ts, t.AllNames P) : (ofItems name ts).AllNames P := by
  unfold ofItems
  split
  · split
    · refine .node (hP _ (by decide)) fun t ht ↦ ?_
      rcases List.mem_cons.1 ht with rfl | ht
      · exact h _ (by simp)
      · obtain rfl : t = leaf "None".toList := by simpa using ht
        exact .node (hP _ (by decide)) (by simp)
    · exact .node hname h
  · exact .node hname h

/-- **The names of what is read** are the names among the tokens, or the grammar brings them in. -/
theorem allNames_of_derives (hP : ∀ name ∈ grammarNames, P name) {p : Part} {ts rest : List Token}
    {trees : List TypeExpr} (h : Derives p ts trees rest)
    (hts : ∀ t ∈ ts, (t.isA .dottedName = true → P t.text) ∧ t.isA .lambdaBody = false) :
    ∀ t ∈ trees, t.AllNames P := by
  induction h with
  | list _ _ ih =>
    intro t ht
    obtain rfl := List.mem_singleton.1 ht
    exact .node (hP _ (by decide)) (ih hts)
  | @any t rest hkind _ =>
    intro u hu
    obtain rfl := List.mem_singleton.1 hu
    exact .node ((hts t (by simp)).1 hkind) (by simp)
  | noReturn _ _ =>
    intro u hu
    obtain rfl := List.mem_singleton.1 hu
    exact .node (hP _ (by decide)) (by simp)
  | @tuple t _ _ _ hkind _ _ ih | @overload t _ _ _ hkind _ _ ih =>
    intro u hu
    obtain rfl := List.mem_singleton.1 hu
    exact .node ((hts t (by simp)).1 hkind) (ih fun v hv ↦ hts v (by simp [hv]))
  | union _ _ _ _ ih =>
    intro u hu
    obtain rfl := List.mem_singleton.1 hu
    exact allNames_ofChoices hP (ih fun v hv ↦ hts v (by simp [hv]))
  | @lambda t b rest _ _ hb =>
    exact absurd hb (by simp [(hts b (by simp)).2])
  | @applied t b ts rest args hkind _ _ _ _ ih =>
    intro u hu
    obtain rfl := List.mem_singleton.1 hu
    exact allNames_ofItems hP ((hts t (by simp)).1 hkind) (ih fun v hv ↦ hts v (List.mem_cons_of_mem _ hv))
  | @leaf t b rest hkind _ _ _ =>
    intro u hu
    obtain rfl := List.mem_singleton.1 hu
    exact .node ((hts t (by simp)).1 hkind) (by simp)
  | bracketed _ _ _ ih => exact ih fun v hv ↦ hts v (by simp [hv])
  | itemsEnd _ => simp
  | itemsComma _ hchoices _ hitems ih ih' =>
    intro u hu
    rcases List.mem_cons.1 hu with rfl | hu
    · exact allNames_ofChoices hP (ih hts)
    · refine ih' (fun v hv ↦ hts v ((suffix_of_derives hchoices).subset ?_)) u hu
      exact List.mem_cons_of_mem _ hv
  | itemsLast _ _ _ ih =>
    intro u hu
    obtain rfl := List.mem_singleton.1 hu
    exact allNames_ofChoices hP (ih hts)
  | choicesBar hsingle _ _ ih ih' =>
    intro u hu
    rcases List.mem_cons.1 hu with rfl | hu
    · exact ih hts u (by simp)
    · refine ih' (fun v hv ↦ hts v ((suffix_of_derives hsingle).subset ?_)) u hu
      exact List.mem_cons_of_mem _ hv
  | choicesLast _ _ ih => exact ih hts

/-- **The names of an inferred type** are made of word characters, dots and colons. -/
theorem allNames_of_readWhole {text : Text} {tokens rest : List Token} {t : TypeExpr}
    (hlex : lex text = .ok tokens) (hread : readWhole.Takes tokens t rest) :
    t.AllNames fun name ↦ ∀ c ∈ name, isWord c = true ∨ c = '.' ∨ c = ':' := by
  obtain ⟨front, rfl, hfront⟩ := lexed_of_lex hlex
  obtain ⟨choices, hderives, rfl⟩ := read_takes_iff.1 (readWhole_takes_iff.1 hread).1
  refine allNames_ofChoices (by decide) (allNames_of_derives (by decide) hderives fun u hu ↦ ?_)
  have hlexed : Lexed u ∨ u = Token.last := (List.mem_append.1 hu).imp (hfront u) List.mem_singleton.1
  refine ⟨fun hkind ↦ ?_, isA_lambdaBody_eq_false hlexed⟩
  rcases hlexed with (- | hname) | rfl
  · exact absurd hkind Bool.false_ne_true
  · exact hname
  · exact absurd hkind (by decide)

/-- **The text of an inferred type** is there and does not end in a space. -/
theorem firm_of_readWhole {text : Text} {tokens rest : List Token} {t : TypeExpr}
    (modules : Modules) (hlex : lex text = .ok tokens) (hread : readWhole.Takes tokens t rest) :
    Firm (render modules t) := by
  have hspaceless : t.AllNames (' ' ∉ ·) := (allNames_of_readWhole hlex hread).mono
    fun hname hmem ↦ absurd (hname ' ' hmem) (by decide)
  exact (Spaceless.of_allNames hspaceless).firm_render _

end TypeExpr

end HeaderHints
