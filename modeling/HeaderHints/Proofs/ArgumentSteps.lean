import HeaderHints.Proofs.InsertOnly
import HeaderHints.Proofs.ItemSpans

/-!
# Steps through an argument list

The loop that fills in an argument list takes an argument with its annotation and its default value in one
step, and copies any other token. `Walks` is a run of such steps: it follows the marks of the places that go
without a type and the number of the next inferred type, and says of every argument what is written for it
(`Parameter.Filled`). The steps of a complete header make up its argument list, and each of them closes the
brackets that it opens (`fill_walks`).

What arguments get which types, where they stand among the places, and what becomes of default values are
all read off these steps.
-/

namespace HeaderHints.Header

open TypeExpr

variable {types : Types} {f f' : Filling} {ts us : List Token} {g : Stage} {before : Option Token}
  {next : Nat} {skips : List Bool}

/-! ### Places -/

/-- The places that are listed for some tokens: those outside brackets. -/
def listed (ts : List Token) : List Place :=
  (outer 0 ts).filterMap place?

theorem listed_append (h : ts.foldl nest 0 = 0) : listed (ts ++ us) = listed ts ++ listed us := by
  rw [listed, outer_append, h, List.filterMap_append]
  rfl

/-- Tokens that close what they open and take no place in an argument list. -/
structure Neutral (ts : List Token) : Prop where
  within : Within 0 ts
  level : ts.foldl nest 0 = 0
  placeless : ∀ t ∈ outer 0 ts, Placeless t

namespace Neutral

theorem nil : Neutral [] :=
  ⟨trivial, rfl, by simp [outer]⟩

theorem append (h : Neutral ts) (h' : Neutral us) : Neutral (ts ++ us) := by
  refine ⟨within_append h.within (by rw [h.level]; exact h'.within), ?_, ?_⟩
  · rw [List.foldl_append, h.level, h'.level]
  · rw [outer_append, h.level]
    exact List.forall_mem_append.2 ⟨h.placeless, h'.placeless⟩

theorem of_span {region : List Token} (h : Span 0 region 0)
    (hplace : ∀ t ∈ outer 0 region, Placeless t) : Neutral region :=
  ⟨h.within.1, h.within.2, hplace⟩

theorem single {t : Token} (hk : t.kind ≠ .endSeparator) (hname : t.kind ≠ .argumentName) : Neutral [t] := by
  refine ⟨⟨fun _ ↦ by simp [Token.isCloser, hk], trivial⟩, nest_of_kind hk, ?_⟩
  intro u hu
  obtain rfl : u = t := by simpa [outer] using hu
  exact ⟨hname, by simp [isBareMark, hk]⟩

theorem listed_eq (h : Neutral ts) : listed ts = [] :=
  List.filterMap_eq_nil_iff.2 fun t ht ↦ place?_of_placeless (h.placeless t ht)

end Neutral

/-! ### Arguments -/

/-- A named argument of a header, and what is written for it. -/
structure Parameter where
  /-- Its name. -/
  name : Token
  /-- The tokens of its annotation with the colon, if it has one. -/
  hint : List Token
  /-- What is written as its type. -/
  type : Text
  /-- The tokens of its default value with the equals sign, if it has one. -/
  value : List Token
  /-- What is written as its default value. -/
  valueText : Text
  /-- The tokens up to the next argument. -/
  tail : List Token

namespace Parameter

/-- All tokens. -/
def tokens (p : Parameter) : List Token :=
  p.name :: (p.hint ++ p.value ++ p.tail)

/-- An argument behind the text before it. -/
def write (out : Text) (p : Parameter) : Text :=
  p.tail.foldl Header.write (out ++ p.name.text ++ p.type ++ p.valueText)

/-- An argument with an annotation of its own. -/
def Annotated (modules : Modules) (p : Parameter) : Prop :=
  ∃ colon region text, p.hint = colon :: region ∧ colon.kind = .typeDef ∧ Span 0 region 0 ∧
    Restates modules region text ∧ p.type = ": ".toList ++ text

/-- An argument without annotation, which gets the type that is given, if any. -/
def Typed (modules : Modules) (p : Parameter) (type? : Option (List Token)) : Prop :=
  p.hint = [] ∧ (∀ t ∈ (p.value ++ p.tail).head?, t.kind ≠ .typeDef) ∧
    match type? with
    | none => p.type = []
    | some tokens => ∃ text, Filling.inferred modules tokens = .ok text ∧ p.type = ": ".toList ++ text

/-- An argument has a default value or none. -/
def Valued (p : Parameter) : Prop :=
  (p.value = [] ∧ p.valueText = []) ∨ ∃ equals region text, p.value = equals :: region ∧
    equals.kind = .defaultDef ∧ Span 0 region 0 ∧ p.valueText = " = ".toList ++ text

end Parameter

/-- The text of a default value with the equals sign before it, or nothing. -/
def WritesValue (value : List Token) (text : Text) : Prop :=
  (value = [] ∧ text = []) ∨ ∃ equals region text', value = equals :: region ∧
    equals.kind = .defaultDef ∧ Span 0 region 0 ∧ RestatesValue region text' ∧
    text = " = ".toList ++ text'

theorem WritesValue.valued {p : Parameter} (h : WritesValue p.value p.valueText) : p.Valued :=
  h.imp_right fun ⟨equals, region, text, hvalue, hequals, hspan, _, htext⟩ ↦
    ⟨equals, region, text, hvalue, hequals, hspan, htext⟩

/-! ### One argument -/

theorem Within.openBrackets_eq {d : Nat} (h : Within 0 ts) (hlevel : ts.foldl nest 0 = 0) :
    ts.foldl nest d = d := by
  have := (h.add d).2
  rwa [hlevel, Nat.zero_add] at this

/-- The annotation of an argument is written, or the type that is next unless the argument is skipped. -/
theorem fillType_ok {name : Text} {skip : Bool} (h : Filling.fillType types name skip f = .ok f')
    (hruns : Runs g before f.rest) (hg : 0 < g.openBrackets) :
    ∃ hint type, f.rest = hint ++ f'.rest ∧
      ((∀ t ∈ hint, t.kind ≠ .returnTypeDef) → f'.out = f.out ++ type) ∧
      f'.nextType = (if skip then f.nextType else f.nextType + 1) ∧
      ((∃ colon region text, hint = colon :: region ∧ colon.kind = .typeDef ∧
          Span 0 region 0 ∧ (∀ t ∈ f'.rest.head?, endsItem t = true) ∧
          Restates types.modules region text ∧ type = ": ".toList ++ text) ∨
        (hint = [] ∧ (∀ t ∈ f'.rest.head?, t.kind ≠ .typeDef) ∧
          if skip then type = [] else ∃ tokens text, types.args[f.nextType]? = some tokens ∧
            Filling.inferred types.modules tokens = .ok text ∧ type = ": ".toList ++ text)) := by
  unfold Filling.fillType at h
  split at h
  · exact absurd h (by simp)
  rename_i t more hrest
  rw [hrest] at hruns
  by_cases hcolon : t.kind = .typeDef
  · rw [if_pos hcolon] at h
    obtain ⟨f₁, hwrite, heq⟩ := bind_eq_ok.1 h
    obtain ⟨-, hmore⟩ := hruns.next hg
    have hopen : (g.after t).openBrackets = g.openBrackets := by
      rw [openBrackets_after, nest_of_kind (by simp [hcolon])]
    have hword : some t ≠ some lambdaWord := by
      intro heq
      rw [Option.some.inj heq] at hcolon
      exact absurd hcolon (by decide)
    obtain ⟨region, text, hitem, htext⟩ := writeAnnotation_ok hwrite hmore (by omega) hword
    obtain rfl := Except.ok.inj heq
    have hsplit : more = region ++ f₁.rest := hitem.rest_eq
    have hends : ∀ t ∈ f₁.rest.head?, endsItem t = true := by
      obtain ⟨u, rest, hu, hends⟩ := hitem.ends
      rw [hu]
      simpa using hends
    have hout : (∀ u ∈ t :: region, u.kind ≠ .returnTypeDef) → f₁.out = f.out ++ (": ".toList ++ text) := by
      intro hk
      rw [hitem.out_eq fun u hu ↦ hk u (by simp [hu]), List.append_assoc]
    have hnext : f₁.nextType = f.nextType := hitem.nextType_eq
    refine ⟨t :: region, ": ".toList ++ text, ?_, ?_, ?_, .inl ⟨t, region, text, rfl, hcolon,
      hitem.span, ?_, htext, rfl⟩⟩
    · rw [hrest, hsplit]
      cases skip <;> rfl
    · cases skip <;> exact hout
    · cases skip <;> simp [hnext]
    · cases skip <;> exact hends
  rw [if_neg hcolon] at h
  have hhead : ∀ u ∈ f.rest.head?, u.kind ≠ .typeDef := by
    rw [hrest]
    simpa using hcolon
  cases skip with
  | true =>
    obtain rfl := Except.ok.inj h
    exact ⟨[], [], rfl, fun _ ↦ by simp, rfl, .inr ⟨rfl, hhead, rfl⟩⟩
  | false =>
    rw [if_neg (by simp)] at h
    split at h
    · exact absurd h (by simp)
    rename_i tokens htokens
    obtain ⟨text, hinferred, heq⟩ := bind_eq_ok.1 h
    obtain rfl := Except.ok.inj heq
    exact ⟨[], ": ".toList ++ text, rfl, fun _ ↦ by simp, rfl,
      .inr ⟨rfl, hhead, tokens, text, htokens, hinferred, rfl⟩⟩

/-- A default value is written; it takes no place. -/
theorem fillDefault_ok (h : Filling.fillDefault f = .ok f') (hruns : Runs g before f.rest)
    (hg : 0 < g.openBrackets) :
    ∃ value text, f.rest = value ++ f'.rest ∧ f'.nextType = f.nextType ∧ Neutral value ∧
      ((∀ t ∈ value, t.kind ≠ .returnTypeDef) → f'.out = f.out ++ text) ∧
      WritesValue value text := by
  unfold Filling.fillDefault at h
  split at h
  · exact absurd h (by simp)
  rename_i t more hrest
  by_cases hequals : t.kind = .defaultDef
  · rw [if_pos hequals] at h
    rw [hrest] at hruns
    obtain ⟨-, hmore⟩ := hruns.next hg
    have hopen : (g.after t).openBrackets = g.openBrackets := by
      rw [openBrackets_after, nest_of_kind (by simp [hequals])]
    have hvalue : (g.after t).valueDepth = 1 := by
      simp [Stage.after, Token.isOpener, Token.isCloser, hequals]
    have hword : some t ≠ some lambdaWord := by
      intro heq
      rw [Option.some.inj heq] at hequals
      exact absurd hequals (by decide)
    obtain ⟨region, text, hitem, htext⟩ := writeDefault_ok h hmore (by omega) hword
    have hsplit : more = region ++ f'.rest := hitem.rest_eq
    refine ⟨t :: region, " = ".toList ++ text, by rw [hrest, hsplit]; rfl, hitem.nextType_eq, ?_, ?_,
      .inr ⟨t, region, text, rfl, hequals, hitem.span, htext, rfl⟩⟩
    · rw [hsplit] at hmore
      have hplace := placeless_of_value hmore hitem.span (by omega) hvalue
      have hfirst : Neutral [t] := .single (by simp [hequals]) (by simp [hequals])
      exact hfirst.append (.of_span hitem.span fun u hu ↦ hplace u (mem_of_mem_outer hu))
    · intro hk
      rw [hitem.out_eq fun u hu ↦ hk u (by simp [hu]), List.append_assoc]
  · rw [if_neg hequals] at h
    obtain rfl := Except.ok.inj h
    exact ⟨[], [], rfl, rfl, .nil, fun _ ↦ by simp, .inl ⟨rfl, rfl⟩⟩

/-- An argument that is filled in, where the inferred type number `next` is to come. -/
structure Parameter.Filled (types : Types) (skip : Bool) (next : Nat) (p : Parameter) : Prop where
  name_kind : p.name.kind = .argumentName
  tail_eq : p.tail = []
  neutral : Neutral p.value
  valued : WritesValue p.value p.valueText
  typed : p.Annotated types.modules ∨
    if skip then p.Typed types.modules none
    else ∃ tokens, types.args[next]? = some tokens ∧ p.Typed types.modules (some tokens)

theorem within_of_colon {colon : Token} {region : List Token} (hcolon : colon.kind = .typeDef)
    (hspan : Span 0 region 0) : Within 0 (colon :: region) ∧ (colon :: region).foldl nest 0 = 0 := by
  have hkind : colon.kind ≠ .endSeparator := by simp [hcolon]
  rw [Within, List.foldl_cons, nest_of_kind hkind]
  exact ⟨⟨fun _ ↦ by simp [Token.isCloser, hkind], hspan.within.1⟩, hspan.within.2⟩

namespace Parameter.Filled

variable {skip : Bool} {p : Parameter}

/-- The annotation closes what it opens. -/
theorem hint_within (h : p.Filled types skip next) : Within 0 p.hint ∧ p.hint.foldl nest 0 = 0 := by
  have htyped : ∀ {type?}, p.Typed types.modules type? → Within 0 p.hint ∧ p.hint.foldl nest 0 = 0 := by
    intro type? htyped
    rw [htyped.1]
    exact ⟨trivial, rfl⟩
  rcases h.typed with ⟨colon, region, text, hhint, hcolon, hspan, -⟩ | hcase
  · rw [hhint]
    exact within_of_colon hcolon hspan
  · split at hcase
    · exact htyped hcase
    · obtain ⟨tokens, -, hcase⟩ := hcase
      exact htyped hcase

/-- The tokens behind the name close what they open. -/
theorem within (h : p.Filled types skip next) :
    Within 0 (p.hint ++ p.value) ∧ (p.hint ++ p.value).foldl nest 0 = 0 := by
  obtain ⟨hwithin, hlevel⟩ := h.hint_within
  refine ⟨within_append hwithin (by rw [hlevel]; exact h.neutral.within), ?_⟩
  rw [List.foldl_append, hlevel, h.neutral.level]

theorem tokens_eq (h : p.Filled types skip next) : p.tokens = p.name :: (p.hint ++ p.value) := by
  rw [Parameter.tokens, h.tail_eq, List.append_nil]

end Parameter.Filled

/-- What may follow an argument: a token that ends its annotation if it has one, and otherwise none that would
start one. -/
def Parameter.Followed (p : Parameter) (rest : List Token) : Prop :=
  ∀ t ∈ (p.value ++ rest).head?, if p.hint = [] then t.kind ≠ .typeDef else endsItem t = true

/-- A list that starts another one has its first element. -/
theorem mem_head?_of_append {α : Type} {l l' m : List α} {a : α} (h : m = l ++ l') (ha : a ∈ l.head?) :
    a ∈ m.head? := by
  cases l with
  | nil => exact absurd ha (by simp)
  | cons b l =>
    rw [h]
    exact ha

theorem Parameter.Followed.of_append {p : Parameter} {rest more : List Token} (h : p.Followed (rest ++ more)) :
    p.Followed rest :=
  fun t ht ↦ h t (mem_head?_of_append (List.append_assoc ..).symm ht)

/-- **An argument is one step.** -/
theorem fillArgument_filled {name : Token} {skip : Bool} (hname : name.kind = .argumentName)
    (h : Filling.fillArgument types name.text skip f = .ok f') (hruns : Runs g before f.rest)
    (hg : 0 < g.openBrackets) :
    ∃ p : Parameter, p.name = name ∧ f.rest = p.hint ++ p.value ++ f'.rest ∧
      p.Filled types skip f.nextType ∧ p.Followed f'.rest ∧
      f'.nextType = (if skip then f.nextType else f.nextType + 1) ∧
      ((∀ t ∈ p.tokens, t.kind ≠ .returnTypeDef) → f'.out = p.write f.out) := by
  unfold Filling.fillArgument at h
  obtain ⟨f₁, htype, hdefault⟩ := bind_eq_ok.1 h
  obtain ⟨hint, type, hrest, hout, hnext, hcases⟩ := fillType_ok htype hruns hg
  have hrest : f.rest = hint ++ f₁.rest := hrest
  -- the annotation closes what it opens
  have hlevel : Within 0 hint ∧ hint.foldl nest 0 = 0 := by
    rcases hcases with ⟨colon, region, text, rfl, hcolon, hspan, -⟩ | ⟨rfl, -⟩
    · exact within_of_colon hcolon hspan
    · exact ⟨trivial, rfl⟩
  rw [hrest] at hruns
  obtain ⟨-, g', before', hruns', hopen⟩ := hruns.drop hlevel.1 hg
  rw [hlevel.1.openBrackets_eq hlevel.2] at hopen
  obtain ⟨value, valueText, hrest', hnext', hneutral, hout', hvalued⟩ :=
    fillDefault_ok hdefault hruns' (by omega)
  refine ⟨⟨name, hint, type, value, valueText, []⟩, rfl, by rw [hrest, hrest', List.append_assoc],
    ⟨hname, rfl, hneutral, hvalued, ?_⟩, ?_, by rw [hnext', hnext], ?_⟩
  · rcases hcases with ⟨colon, region, text, rfl, hcolon, hspan, -, htext, rfl⟩ | ⟨rfl, hhead, hcase⟩
    · exact .inl ⟨colon, region, text, rfl, hcolon, hspan, htext, rfl⟩
    · right
      have hfollow : ∀ t ∈ (value ++ []).head?, t.kind ≠ .typeDef := by
        rw [List.append_nil]
        exact fun t ht ↦ hhead t (mem_head?_of_append hrest' ht)
      split
      · rename_i hskip
        rw [if_pos hskip] at hcase
        exact ⟨rfl, hfollow, hcase⟩
      · rename_i hskip
        rw [if_neg hskip] at hcase
        obtain ⟨tokens, text, htokens, hinferred, htype'⟩ := hcase
        exact ⟨tokens, htokens, rfl, hfollow, text, hinferred, htype'⟩
  · intro t ht
    dsimp only at ht ⊢
    rw [← hrest'] at ht
    rcases hcases with ⟨colon, region, text, rfl, -, -, hends, -⟩ | ⟨rfl, hhead, -⟩
    · rw [if_neg (by simp)]
      exact hends t ht
    · rw [if_pos rfl]
      exact hhead t ht
  · intro hk
    rw [Parameter.tokens, List.append_nil] at hk
    have hk := fun t ht ↦ hk t (List.mem_cons_of_mem _ ht)
    rw [hout' fun t ht ↦ hk t (by simp [ht]), hout fun t ht ↦ hk t (by simp [ht])]
    rfl

/-! ### Steps -/

/-- A step through an argument list. -/
inductive Step where
  /-- An argument is filled in, without a type if `skip` is set. -/
  | argument (p : Parameter) (skip : Bool)
  /-- A token is copied. -/
  | copied (t : Token)

namespace Step

/-- The tokens of a step. -/
def tokens : Step → List Token
  | argument p _ => p.tokens
  | copied t => [t]

/-- What is written, behind the text before it. -/
def write (out : Text) : Step → Text
  | argument p _ => p.write out
  | copied t => Header.write out t

/-- The places that are counted. -/
def counted : Step → List Place
  | argument _ _ => [.name]
  | copied t => (place? t).toList

/-- The places that are listed and passed over: those in an annotation. -/
def passed : Step → List Place
  | argument p _ => listed p.hint
  | copied _ => []

/-- Whether an inferred type is used up. An argument with an annotation uses one as well. -/
def usesType : Step → Bool
  | argument _ skip => !skip
  | copied _ => false

end Step

/-- The steps through an argument list whose places go without a type as `skips` says, from the inferred
type number `next` on. -/
inductive Walks (types : Types) : List Bool → Nat → List Step → Prop
  | done {skips : List Bool} {next : Nat} : Walks types skips next []
  | argument {skips : List Bool} {next : Nat} {p : Parameter} {steps : List Step} :
      p.Filled types (skips.headD false) next → p.Followed (steps.flatMap Step.tokens) →
      Walks types skips.tail (if skips.headD false then next else next + 1) steps →
      Walks types skips next (.argument p (skips.headD false) :: steps)
  | copied {skips : List Bool} {next : Nat} {t : Token} {steps : List Step} :
      t.kind ≠ .argumentName → t.isCloser = false →
      Walks types (if isBareMark t then skips.tail else skips) next steps →
      Walks types skips next (.copied t :: steps)

/-- **The argument list is gone through step by step.** -/
theorem fillArguments_walks {n : Nat} (h : Filling.fillArguments types n skips f = .ok f')
    (hruns : Runs g before f.rest) (hg : 0 < g.openBrackets) :
    ∃ steps closer, f.rest = steps.flatMap Step.tokens ++ closer :: f'.rest ∧
      closer.isCloser = true ∧ Walks types skips f.nextType steps ∧
      ((∀ t ∈ steps.flatMap Step.tokens, t.kind ≠ .returnTypeDef) →
        f'.out = write (steps.foldl Step.write f.out) closer) := by
  induction n generalizing skips f g before with
  | zero => exact absurd h (by simp [Filling.fillArguments])
  | succ n ih =>
    rw [Filling.fillArguments] at h
    split at h
    · exact absurd h (by simp)
    rename_i t more hrest
    rw [hrest] at hruns ⊢
    obtain ⟨-, hmore⟩ := hruns.next hg
    split at h
    · exact absurd h (by simp)
    split at h
    · -- an argument
      rename_i hname
      obtain ⟨f₁, hargument, hloop⟩ := bind_eq_ok.1 h
      have hkind : t.kind ≠ .endSeparator := by simp [hname]
      have hopen : (g.after t).openBrackets = g.openBrackets := by
        rw [openBrackets_after, nest_of_kind hkind]
      obtain ⟨p, rfl, hsplit, hfilled, hfollowed, hnext, hout⟩ :=
        fillArgument_filled hname hargument hmore (by omega)
      have hsplit : more = p.hint ++ p.value ++ f₁.rest := hsplit
      obtain ⟨hwithin, hlevel⟩ := hfilled.within
      rw [hsplit] at hmore
      obtain ⟨-, g', before', hruns', hopen'⟩ := hmore.drop hwithin (by omega)
      rw [hwithin.openBrackets_eq hlevel] at hopen'
      obtain ⟨steps, closer, hsteps, hcloser, hwalks, hfinal⟩ := ih hloop hruns' (by omega)
      refine ⟨.argument p (skips.headD false) :: steps, closer, ?_, hcloser, ?_, ?_⟩
      · rw [hsplit, hsteps, List.flatMap_cons, Step.tokens, hfilled.tokens_eq]
        simp
      · rw [hnext] at hwalks
        rw [hsteps] at hfollowed
        exact .argument hfilled hfollowed.of_append hwalks
      · intro hk
        rw [List.flatMap_cons, List.forall_mem_append] at hk
        rw [hfinal hk.2, hout hk.1]
        rfl
    rename_i hname
    dsimp only at h
    split at h
    · -- the end of the list
      rename_i hcloser
      obtain rfl := Except.ok.inj h
      exact ⟨[], t, rfl, hcloser, .done, fun _ ↦ rfl⟩
    · -- any other token
      rename_i hcloser
      have hclosed : t.isCloser = false := by simpa using hcloser
      have hopen : 0 < (g.after t).openBrackets := by
        have := lt_openBrackets_after (fun _ ↦ hclosed) hg
        omega
      obtain ⟨steps, closer, hsteps, hcloser', hwalks, hfinal⟩ := ih h hmore hopen
      have hsteps : more = steps.flatMap Step.tokens ++ closer :: f'.rest := hsteps
      refine ⟨.copied t :: steps, closer, ?_, hcloser', .copied hname hclosed hwalks, ?_⟩
      · rw [hsteps]
        rfl
      · intro hk
        rw [List.flatMap_cons, List.forall_mem_append] at hk
        exact hfinal hk.2

/-- A step that leaves no bracket open. The places that are listed for it are those that it counts, and then
those that it passes over. -/
structure Step.Flat (s : Step) : Prop where
  level : s.tokens.foldl nest 0 = 0
  listed_eq : listed s.tokens = s.counted ++ s.passed

theorem Parameter.Filled.flat {skip : Bool} {p : Parameter} (h : p.Filled types skip next) :
    (Step.argument p skip).Flat := by
  have hlevel : [p.name].foldl nest 0 = 0 := nest_of_kind (by simp [h.name_kind])
  refine ⟨?_, ?_⟩
  · rw [Step.tokens, h.tokens_eq, ← List.singleton_append, List.foldl_append, hlevel]
    exact h.within.2
  · have hname : listed [p.name] = [.name] := by simp [listed, outer, place?, h.name_kind]
    have hbehind : listed (p.hint ++ p.value) = listed p.hint := by
      rw [listed_append h.hint_within.2, h.neutral.listed_eq, List.append_nil]
    rw [Step.tokens, h.tokens_eq, ← List.singleton_append, listed_append hlevel, hname, hbehind]
    rfl

theorem Step.flat_copied {t : Token} (h : nest 0 t = 0) : (Step.copied t).Flat := by
  refine ⟨h, ?_⟩
  rw [Step.tokens, Step.counted, Step.passed, listed, outer, if_pos rfl, outer]
  cases hplace : place? t <;> simp [hplace]

theorem level_flatMap {steps : List Step} (h : ∀ s ∈ steps, s.Flat) :
    (steps.flatMap Step.tokens).foldl nest 0 = 0 := by
  induction steps with
  | nil => rfl
  | cons s steps ih =>
    rw [List.forall_mem_cons] at h
    rw [List.flatMap_cons, List.foldl_append, h.1.level, ih h.2]

namespace Walks

variable {steps : List Step}

theorem within (h : Walks types skips next steps) : Within 0 (steps.flatMap Step.tokens) := by
  induction h with
  | done => trivial
  | argument hfilled _ _ ih =>
    rw [List.flatMap_cons, Step.tokens, hfilled.tokens_eq]
    refine ⟨fun _ ↦ by simp [Token.isCloser, hfilled.name_kind], ?_⟩
    rw [nest_of_kind (by simp [hfilled.name_kind])]
    exact within_append hfilled.within.1 (by rw [hfilled.within.2]; exact ih)
  | copied _ hclosed _ ih =>
    refine ⟨fun _ ↦ hclosed, ?_⟩
    rw [← Nat.zero_add (nest _ _)]
    exact (ih.add _).1

/-- Where the list closes what it opens, so does every step: no bracket that closes another is copied. -/
theorem flat (h : Walks types skips next steps)
    (hlevel : (steps.flatMap Step.tokens).foldl nest 0 = 0) : ∀ s ∈ steps, s.Flat := by
  induction h with
  | done => simp
  | argument hfilled _ _ ih =>
    have hflat := hfilled.flat
    rw [List.flatMap_cons, List.foldl_append, hflat.level] at hlevel
    exact List.forall_mem_cons.2 ⟨hflat, ih hlevel⟩
  | @copied _ _ t _ _ _ hwalks ih =>
    have hfold := (hwalks.within.add (nest 0 t)).2
    rw [Nat.zero_add] at hfold
    rw [List.flatMap_cons, List.foldl_append, Step.tokens, List.foldl_cons, List.foldl_nil] at hlevel
    have hnest : nest 0 t = 0 := by omega
    rw [hnest] at hlevel
    exact List.forall_mem_cons.2 ⟨Step.flat_copied hnest, ih hlevel⟩

end Walks

/-! ### Whole headers -/

/-- The tokens of the argument list, without its brackets. -/
def argumentList (ts : List Token) : List Token :=
  enclosed 0 (argumentTokens ts)

theorem within_of_isLayout {d : Nat} (h : ∀ t ∈ ts, t.isLayout = true) :
    Within d ts ∧ ts.foldl nest d = d := by
  induction ts generalizing d with
  | nil => exact ⟨trivial, rfl⟩
  | cons t ts ih =>
    have hself := h t (by simp)
    -- layout starts with a blank, a hash or a backslash, and brackets do not
    have hbracket : t.isOpener = false ∧ t.isCloser = false := by
      simp only [Token.isLayout, Bool.and_eq_true] at hself
      constructor
      · cases hopen : t.isOpener with
        | false => rfl
        | true =>
          simp only [Token.isOpener, Token.opensBracket, Bool.and_eq_true, Bool.or_eq_true,
            decide_eq_true_eq] at hopen
          rcases hopen.2 with (h | h) | h <;> rw [h] at hself <;> exact absurd hself.2 (by decide)
      · cases hclose : t.isCloser with
        | false => rfl
        | true =>
          simp only [Token.isCloser, Token.closesBracket, Bool.and_eq_true, Bool.or_eq_true,
            decide_eq_true_eq] at hclose
          rcases hclose.2 with (h | h) | h <;> rw [h] at hself <;> exact absurd hself.2 (by decide)
    have hnest : nest d t = d := by
      rw [nest, if_neg (by simp [hbracket.1]), if_neg (by simp [hbracket.2])]
    obtain ⟨hwithin, hfold⟩ := ih (d := d) fun u hu ↦ h u (by simp [hu])
    exact ⟨⟨fun _ ↦ hbracket.2, by rwa [hnest]⟩, by rwa [List.foldl_cons, hnest]⟩

/-- **The bracket that ends the argument list is the one that closes it**: otherwise neither the closing
colon nor a return annotation could follow. -/
theorem level_of_finish {body rest : List Token} {closer : Token} {text : Text}
    (hruns : Runs g before (body ++ closer :: rest)) (hg : 0 < g.openBrackets)
    (hcloser : closer.isCloser = true) (hwithin : Within 0 body)
    (hreturn : ∀ t ∈ enclosed 0 (body ++ closer :: rest), t.kind ≠ .returnTypeDef)
    (hfinish : Filling.finish types out rest = .ok text) : body.foldl nest 0 = 0 := by
  by_contra hlevel
  obtain ⟨layout, t, after, rfl, hlayout, hcases⟩ := Filling.finish_ok hfinish
  obtain ⟨hinner, hfold⟩ := within_of_isLayout (d := body.foldl nest 0 - 1) hlayout
  rcases hcases with ⟨hcolon, -⟩ | ⟨harrow, -⟩
  · -- some bracket is still open at the colon
    obtain ⟨-, g₁, b₁, hruns₁, hopen₁⟩ := hruns.drop hwithin hg
    have hshift := (hwithin.add g.openBrackets).2
    rw [Nat.zero_add] at hshift
    rw [hshift] at hopen₁
    obtain ⟨-, hruns₂⟩ := hruns₁.next (by omega)
    have hopen₂ : (g₁.after closer).openBrackets = body.foldl nest 0 + g.openBrackets - 1 := by
      rw [openBrackets_after, nest_closer hcloser, hopen₁]
    obtain ⟨-, g₃, b₃, hruns₃, hopen₃⟩ := hruns₂.drop (d := 0) (within_of_isLayout hlayout).1 (by omega)
    rw [(within_of_isLayout hlayout).2, hopen₂] at hopen₃
    rw [Runs, if_pos hcolon] at hruns₃
    omega
  · -- the arrow is still in the argument list
    refine hreturn t ?_ harrow
    have hbody : Within 0 (body ++ closer :: layout) := by
      refine within_append hwithin ⟨fun h ↦ absurd h hlevel, ?_⟩
      rw [nest_closer hcloser]
      exact hinner
    rw [show body ++ closer :: (layout ++ t :: after) = (body ++ closer :: layout) ++ t :: after by simp,
      enclosed_append hbody, enclosed, if_neg]
    · simp
    · rintro ⟨-, htc⟩
      simp [Token.isCloser, harrow] at htc

/-- **The argument list of a complete header** is gone through in flat steps. -/
theorem fill_walks {written : List Token} {text : Text} (hfinished : Finished written)
    (hreturn : ∀ t ∈ argumentList (written.reverse ++ [Token.last]), t.kind ≠ .returnTypeDef)
    (h : fill types (written.reverse ++ [Token.last]) = .ok text) :
    ∃ opening steps closer after ps,
      written.reverse ++ [Token.last] =
        opening ++ argumentList (written.reverse ++ [Token.last]) ++ closer :: after ∧
      closer.isCloser = true ∧
      argumentList (written.reverse ++ [Token.last]) = steps.flatMap Step.tokens ∧
      (∀ t ∈ steps.flatMap Step.tokens, Proper t) ∧
      places 0 (argumentTokens (written.reverse ++ [Token.last])) = .ok ps ∧
      (∀ s ∈ steps, s.Flat) ∧
      Walks types (skipped (ps.count .name - types.args.length) ps) (types.args.length - ps.count .name)
        steps ∧
      Filling.finish types (write (steps.foldl Step.write (emitted opening)) closer) after = .ok text := by
  have hruns := runs_of_finished hfinished
  generalize written.reverse ++ [Token.last] = tokens at *
  unfold fill at h
  obtain ⟨f, hopening, h₁⟩ := bind_eq_ok.1 h
  obtain ⟨ps, hplaces, h₂⟩ := bind_eq_ok.1 h₁
  obtain ⟨f', harguments, hfinish⟩ := bind_eq_ok.1 h₂
  obtain ⟨opening, bracket, htokens, -, hout, -, hrest⟩ := Filling.copyOpening_ok hopening
  rw [if_neg (by simp)] at hrest
  obtain ⟨g, before, hruns', hg⟩ := hruns.arguments hopening rfl rfl
  obtain ⟨steps, closer, hsteps, hcloser, hwalks, hfinal⟩ := fillArguments_walks harguments hruns' hg
  have hsteps : f.rest = steps.flatMap Step.tokens ++ closer :: f'.rest := hsteps
  -- the argument list ends where the steps end
  have hlist : argumentList tokens = enclosed 0 (steps.flatMap Step.tokens ++ closer :: f'.rest) := by
    rw [argumentList, ← hrest, hsteps]
  rw [hsteps] at hruns'
  have hlevel := level_of_finish hruns' hg hcloser hwalks.within (hlist ▸ hreturn) hfinish
  rw [enclosed_append hwalks.within, hlevel, enclosed_closer hcloser, List.append_nil] at hlist
  refine ⟨opening ++ [bracket], steps, closer, f'.rest, ps, ?_, hcloser, hlist, (hruns'.drop hwalks.within hg).1,
    by rw [← hrest]; exact hplaces, hwalks.flat hlevel, hwalks, ?_⟩
  · rw [hlist]
    calc tokens = opening ++ bracket :: f.rest := htokens
      _ = opening ++ [bracket] ++ steps.flatMap Step.tokens ++ closer :: f'.rest := by
          rw [hsteps]
          simp
  · rw [emitted, ← hout, ← hfinal (hlist ▸ hreturn)]
    exact hfinish

end HeaderHints.Header
