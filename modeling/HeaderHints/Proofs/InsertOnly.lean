import HeaderHints.Proofs.FillSteps
import HeaderHints.Proofs.RenderedTypes
import HeaderHints.Suggestion.Basic
import Mathlib.Data.List.Chain

/-!
# Filling in only inserts

Where no argument of a header has an annotation or a default value, and the header has no return
annotation, filling it in copies its tokens and inserts the inferred types: some behind names of
arguments, and one before the closing colon (`fill_only_inserts`). Without these insertions the text is
the source of the header, up to blanks and backslashes, so that comments, decorators and what follows
the colon are all kept.
-/

namespace HeaderHints

namespace Header

open Lexeme Text

/-- No name of an argument has an annotation or a default value right behind it. -/
def Unannotated (ts : List Token) : Prop :=
  ts.IsChain fun t u ↦ t.kind = .argumentName → u.kind ≠ .typeDef ∧ u.kind ≠ .defaultDef

instance (ts : List Token) : Decidable (Unannotated ts) :=
  inferInstanceAs (Decidable (ts.IsChain _))

/-- The text of some tokens. -/
def emitted (ts : List Token) : Text :=
  ts.foldl write []

/-- Tokens with a type that is inserted behind them. -/
structure Insertion where
  /-- The tokens. -/
  tokens : List Token
  /-- The text of the type. -/
  type : Text

namespace Insertion

/-- An inferred type of an argument is inserted behind the name of an argument. -/
def Valid (types : Types) (i : Insertion) : Prop :=
  (∃ front name, i.tokens = front ++ [name] ∧ name.kind = .argumentName) ∧
    ∃ tokens ∈ types.args, Filling.inferred types.modules tokens = .ok i.type

/-- The text of the tokens with the type behind them. -/
def text (i : Insertion) : Text :=
  emitted i.tokens ++ ": ".toList ++ i.type

/-- The tokens and the type behind the text before them. -/
def write (out : Text) (i : Insertion) : Text :=
  i.tokens.foldl Header.write out ++ ": ".toList ++ i.type

end Insertion

/-- A header cut apart where types are inserted: behind names of arguments, and before the closing
colon. -/
structure Cuts where
  /-- The tokens through the bracket that opens the argument list. -/
  opening : List Token
  /-- The tokens of the argument list that a type is inserted behind. -/
  arguments : List Insertion
  /-- The tokens up to the closing colon. -/
  closing : List Token
  /-- The closing colon. -/
  colon : Token
  /-- The tokens after it. -/
  after : List Token

namespace Cuts

/-- All tokens. -/
def tokens (c : Cuts) : List Token :=
  c.opening ++ c.arguments.flatMap Insertion.tokens ++ c.closing ++ c.colon :: c.after

/-- The text without the inserted types. -/
def plain (c : Cuts) : Text :=
  emitted c.opening ++ c.arguments.flatMap (fun i ↦ emitted i.tokens) ++ emitted c.closing ++
    emitted (c.colon :: c.after)

/-- The text with the types of the arguments and the result inserted. -/
def filled (c : Cuts) (result : Text) : Text :=
  writeArrow (emitted c.opening ++ c.arguments.flatMap Insertion.text ++ emitted c.closing) ++
    result ++ emitted (c.colon :: c.after)

end Cuts

variable {types : Types} {f f' : Filling} {out : Text} {ts : List Token}

namespace Filling

/-! ### The argument list -/

/-- An argument without annotation and default value is written with an inferred type or without
one. -/
theorem fillArgument_ok {name : Text} {skip : Bool} (h : fillArgument types name skip f = .ok f')
    (hbare : ∀ t ∈ f.rest.head?, t.kind ≠ .typeDef ∧ t.kind ≠ .defaultDef) :
    f'.rest = f.rest ∧ (f'.out = f.out ++ name ∨ ∃ tokens ∈ types.args, ∃ type,
      inferred types.modules tokens = .ok type ∧ f'.out = f.out ++ name ++ ": ".toList ++ type) := by
  unfold fillArgument at h
  obtain ⟨g, htype, hdefault⟩ := bind_eq_ok.1 h
  unfold fillType at htype
  cases hrest : f.rest with
  | nil =>
    rw [hrest] at htype
    exact absurd htype (by simp)
  | cons t more =>
    rw [hrest] at htype hbare
    obtain ⟨hcolon, hequals⟩ := hbare t rfl
    have hskip : ∀ {g : Filling}, g.rest = t :: more → fillDefault g = .ok f' → f' = g := by
      intro g hg hdefault
      simp only [fillDefault, hg, if_neg hequals] at hdefault
      exact (Except.ok.inj hdefault).symm
    simp only [if_neg hcolon] at htype
    split at htype
    · obtain rfl := Except.ok.inj htype
      obtain rfl := hskip rfl hdefault
      exact ⟨rfl, .inl rfl⟩
    split at htype
    · exact absurd htype (by simp)
    · rename_i tokens htokens
      obtain ⟨type, hinferred, hpure⟩ := bind_eq_ok.1 htype
      obtain rfl := Except.ok.inj hpure
      obtain rfl := hskip rfl hdefault
      exact ⟨rfl, .inr ⟨tokens, List.mem_of_getElem? htokens, type, hinferred, rfl⟩⟩

/-- **The argument list is copied, and types are inserted behind names.** -/
theorem fillArguments_ok {n : Nat} {skips : List Bool}
    (h : fillArguments types n skips f = .ok f') (hbare : Unannotated f.rest) :
    ∃ (insertions : List Insertion) (closing : List Token),
      f.rest = insertions.flatMap Insertion.tokens ++ closing ++ f'.rest ∧
      (∀ i ∈ insertions, i.Valid types) ∧
      f'.out = closing.foldl write (insertions.foldl Insertion.write f.out) := by
  induction n generalizing skips f with
  | zero => exact absurd h (by simp [fillArguments])
  | succ n ih =>
    rw [fillArguments] at h
    cases hrest : f.rest with
    | nil =>
      rw [hrest] at h
      exact absurd h (by simp)
    | cons t more =>
      rw [hrest] at h hbare
      have hmore : Unannotated more := hbare.of_cons
      -- a token that is copied stands before the first insertion to come
      have hcopy : ∀ {g : Filling}, g.rest = more → g.out = write f.out t →
          (∃ (insertions : List Insertion) (closing : List Token),
            g.rest = insertions.flatMap Insertion.tokens ++ closing ++ f'.rest ∧
            (∀ i ∈ insertions, i.Valid types) ∧
            f'.out = closing.foldl write (insertions.foldl Insertion.write g.out)) →
          ∃ (insertions : List Insertion) (closing : List Token),
            t :: more = insertions.flatMap Insertion.tokens ++ closing ++ f'.rest ∧
            (∀ i ∈ insertions, i.Valid types) ∧
            f'.out = closing.foldl write (insertions.foldl Insertion.write f.out) := by
        rintro g rfl hout ⟨insertions, closing, hsplit, hvalid, hfinal⟩
        cases insertions with
        | nil =>
          refine ⟨[], t :: closing, by rw [hsplit]; rfl, by simp, ?_⟩
          rw [hfinal, hout]
          rfl
        | cons i insertions =>
          obtain ⟨⟨front, name, htokens, hname⟩, hinferred⟩ := hvalid i (by simp)
          refine ⟨⟨t :: i.tokens, i.type⟩ :: insertions, closing, by rw [hsplit]; rfl, ?_, ?_⟩
          · intro j hj
            rcases List.mem_cons.1 hj with rfl | hj
            · exact ⟨⟨t :: front, name, by rw [htokens]; rfl, hname⟩, hinferred⟩
            · exact hvalid j (by simp [hj])
          · rw [hfinal, hout]
            rfl
      simp only at h
      by_cases hstop : t.kind = .stop
      · rw [if_pos hstop] at h
        exact absurd h (by simp)
      rw [if_neg hstop] at h
      by_cases hname : t.kind = .argumentName
      · rw [if_pos hname] at h
        obtain ⟨g, harg, hnext⟩ := bind_eq_ok.1 h
        obtain ⟨hgrest, hgout⟩ := fillArgument_ok harg (by
          intro u hu
          obtain ⟨v, rfl⟩ := List.head?_eq_some_iff.1 hu
          exact hbare.rel hname)
        have hgrest : g.rest = more := hgrest
        have hwrite : write f.out t = f.out ++ t.text := by
          rw [write_eq (by simp [hname]), keptBefore,
            replacesSpace_eq_false (by simp [Token.isLayout, hname])]
          simp [spelling, hname]
        obtain hrec := ih hnext (hgrest ▸ hmore)
        rcases hgout with hgout | ⟨tokens, hmem, type, hinferred, hgout⟩
        · exact hcopy hgrest (hgout.trans hwrite.symm) hrec
        · obtain ⟨insertions, closing, hsplit, hvalid, hfinal⟩ := hrec
          refine ⟨⟨[t], type⟩ :: insertions, closing, ?_, ?_, ?_⟩
          · rw [← hgrest, hsplit]
            rfl
          · intro j hj
            rcases List.mem_cons.1 hj with rfl | hj
            · exact ⟨⟨[], t, rfl, hname⟩, tokens, hmem, hinferred⟩
            · exact hvalid j hj
          · rw [hfinal, hgout, List.foldl_cons, Insertion.write, List.foldl_cons, hwrite]
            rfl
      rw [if_neg hname] at h
      by_cases hcloser : t.isCloser = true
      · rw [if_pos hcloser] at h
        obtain rfl := Except.ok.inj h
        exact ⟨[], [t], rfl, by simp, rfl⟩
      · rw [if_neg hcloser] at h
        exact hcopy rfl rfl (ih h hmore)

end Filling

/-! ### The text with and without insertions -/

theorem firm_of_named {t : Text} (h : Named t) : Firm t := by
  obtain ⟨c, w, rfl, hc, hw⟩ := h
  have hspace : ∀ e ∈ c :: w, e ≠ ' ' := by
    intro e he
    rintro rfl
    rcases List.mem_cons.1 he with rfl | he
    · exact absurd hc (by decide)
    · exact absurd (hw _ he) (by decide)
  exact firm_of_not_mem (by simp) fun hmem ↦ hspace _ hmem rfl

/-- Tokens start anew behind a text that does not end in a space. -/
theorem foldl_write_firm (hk : ∀ t ∈ ts, t.kind ≠ .returnTypeDef) (hout : out.getLast? ≠ some ' ') :
    ts.foldl write out = out ++ emitted ts := by
  calc ts.foldl write out = ts.foldl write (out ++ []) := by rw [List.append_nil]
    _ = out ++ emitted ts := foldl_write_append hk hout

/-- The text of an insertion starts anew behind a text that does not end in a space. -/
theorem Insertion.write_eq {i : Insertion} (hk : ∀ t ∈ i.tokens, t.kind ≠ .returnTypeDef)
    (hout : out.getLast? ≠ some ' ') : i.write out = out ++ i.text := by
  rw [Insertion.write, foldl_write_firm hk hout, Insertion.text]
  simp

theorem foldl_insertion_write {insertions : List Insertion}
    (hk : ∀ i ∈ insertions, ∀ t ∈ i.tokens, t.kind ≠ .returnTypeDef)
    (hfirm : ∀ i ∈ insertions, Firm i.type) (hout : out.getLast? ≠ some ' ') :
    insertions.foldl Insertion.write out = out ++ insertions.flatMap Insertion.text ∧
      (insertions.foldl Insertion.write out).getLast? ≠ some ' ' := by
  induction insertions generalizing out with
  | nil => exact ⟨by simp, hout⟩
  | cons i insertions ih =>
    have hwrite := Insertion.write_eq (hk i (by simp)) hout
    have hlast : (i.write out).getLast? ≠ some ' ' := by
      rw [Insertion.write]
      exact ((hfirm i (by simp)).append _).getLast?_ne
    obtain ⟨heq, hend⟩ := ih (fun j hj ↦ hk j (by simp [hj])) (fun j hj ↦ hfirm j (by simp [hj]))
      hlast
    refine ⟨?_, hend⟩
    rw [List.foldl_cons, heq, hwrite]
    simp

/-- Names of arguments end the groups of tokens between insertions. -/
theorem foldl_write_insertions {insertions : List Insertion}
    (hk : ∀ i ∈ insertions, ∀ t ∈ i.tokens, t.kind ≠ .returnTypeDef)
    (hnamed : ∀ i ∈ insertions, ∃ front name, i.tokens = front ++ [name] ∧
      name.kind = .argumentName ∧ Named name.text)
    (hout : out.getLast? ≠ some ' ') :
    (insertions.flatMap Insertion.tokens).foldl write out =
        out ++ insertions.flatMap (fun i ↦ emitted i.tokens) ∧
      ((insertions.flatMap Insertion.tokens).foldl write out).getLast? ≠ some ' ' := by
  induction insertions generalizing out with
  | nil => exact ⟨by simp, hout⟩
  | cons i insertions ih =>
    have hwrite := foldl_write_firm (hk i (by simp)) hout
    have hlast : (i.tokens.foldl write out).getLast? ≠ some ' ' := by
      obtain ⟨front, name, htokens, hkind, hname⟩ := hnamed i (by simp)
      rw [htokens, List.foldl_append, List.foldl_cons, List.foldl_nil,
        Header.write_eq (by simp [hkind]), spelling, hkind]
      exact ((firm_of_named hname).append _).getLast?_ne
    obtain ⟨heq, hend⟩ := ih (fun j hj ↦ hk j (by simp [hj])) (fun j hj ↦ hnamed j (by simp [hj]))
      hlast
    rw [List.flatMap_cons, List.foldl_append]
    refine ⟨?_, hend⟩
    rw [heq, hwrite]
    simp

/-! ### Whole headers -/

/-- A list comes apart in one way around an element that is the only one of its kind. -/
theorem split_unique {α : Type} {P : α → Prop} {l l' m m' : List α} {a b : α}
    (h : l ++ a :: l' = m ++ b :: m') (ha : P a) (hm : ∀ x ∈ m, ¬ P x) (hm' : ∀ x ∈ m', ¬ P x) :
    l = m ∧ a = b ∧ l' = m' := by
  rcases List.append_eq_append_iff.1 h with ⟨w, rfl, hw⟩ | ⟨w, rfl, hw⟩
  · cases w with
    | nil =>
      obtain ⟨rfl, rfl⟩ := List.cons_eq_cons.1 hw
      exact ⟨by simp, rfl, rfl⟩
    | cons c w =>
      obtain ⟨rfl, -⟩ := List.cons_eq_cons.1 hw
      exact absurd ha (hm a (by simp))
  · cases w with
    | nil =>
      obtain ⟨rfl, rfl⟩ := List.cons_eq_cons.1 hw
      exact ⟨by simp, rfl, rfl⟩
    | cons c w =>
      obtain ⟨-, rfl⟩ := List.cons_eq_cons.1 hw
      exact absurd ha (hm' a (by simp))

/-- **The closing colon of a complete header** is the only one: at most the rest of its row follows. -/
theorem split_of_finished {written front after : List Token} {colon : Token} (h : Finished written)
    (hsplit : written.reverse ++ [Token.last] = front ++ colon :: after)
    (hcolon : colon.kind = .endDefinition) :
    Formed front.reverse ∧ colon = .of .endDefinition [':'] ∧
      (after = [Token.last] ∨ ∃ rest, after = [.of .endSeparator rest, Token.last]) := by
  obtain ⟨tail, before, rfl, htail, hformed, -, -⟩ := h
  have hproper : ∀ t ∈ before.reverse, ¬ t.kind = .endDefinition := by
    intro t ht hk
    have := proper_of_formed hformed t (by simpa using ht)
    simp [Proper, hk] at this
  have hrest : ∀ t ∈ tail.reverse ++ [Token.last], ¬ t.kind = .endDefinition := by
    intro t ht
    rcases htail with rfl | ⟨rest, rfl⟩
    · obtain rfl : t = Token.last := by simpa using ht
      decide
    · rcases List.mem_append.1 ht with ht | ht
      · obtain rfl : t = .of .endSeparator rest := by simpa using ht
        simp [Token.of]
      · obtain rfl : t = Token.last := by simpa using ht
        decide
  have hsplit' : front ++ colon :: after =
      before.reverse ++ .of .endDefinition [':'] :: (tail.reverse ++ [Token.last]) := by
    rw [← hsplit]
    simp
  obtain ⟨rfl, rfl, rfl⟩ := split_unique hsplit' hcolon hproper hrest
  refine ⟨by simpa using hformed, rfl, ?_⟩
  rcases htail with rfl | ⟨rest, rfl⟩
  · exact .inl rfl
  · exact .inr ⟨rest, rfl⟩

theorem firm_of_inferred {text type : Text} {modules : Modules} {tokens : List Token}
    (hlex : TypeExpr.lex text = .ok tokens) (h : Filling.inferred modules tokens = .ok type) :
    Firm type := by
  obtain ⟨t, hread, rfl⟩ := map_eq_ok.1 h
  exact TypeExpr.firm_of_readWhole modules hlex (Prod.ext hread rfl)

theorem firm_emitted_opening {opening : List Token} {bracket : Token}
    (h : isRoundOpener bracket = true) : Firm (emitted (opening ++ [bracket])) := by
  simp only [isRoundOpener, Token.isOpener, Bool.and_eq_true, decide_eq_true_eq] at h
  rw [emitted, List.foldl_append, List.foldl_cons, List.foldl_nil,
    Header.write_eq (by simp [h.1.1]), spelling, h.1.1, h.2]
  exact Firm.append ⟨[], '(', rfl, by decide⟩ _

/-- The closing colon and the rest of its row start anew behind any text. -/
theorem foldl_write_colon {colon : Token} {after : List Token}
    (hcolon : colon = .of .endDefinition [':'])
    (hafter : after = [] ∨ ∃ rest, after = [Token.of .endSeparator rest]) :
    after.foldl write (write out colon) = out ++ emitted (colon :: after) := by
  have hwrite : ∀ out : Text, write out colon = out ++ [':'] := by
    intro out
    rw [write_eq (by simp [hcolon, Token.of]), keptBefore,
      replacesSpace_eq_false (by simp [hcolon, Token.of, Token.isLayout])]
    simp [hcolon, spelling, Token.of, Token.text]
  rcases hafter with rfl | ⟨rest, rfl⟩
  · simp [emitted, hwrite]
  · rw [hwrite, List.foldl_cons, List.foldl_nil, write_append (by simp [Token.of]) (.inl (by simp))]
    simp [emitted, hwrite]

/-- Cuts whose pieces can be written one by one: the opening, the names before insertions and the types are firm,
no token is an arrow, and behind the closing colon stands at most the rest of its row. -/
structure Cuts.Seamless (c : Cuts) : Prop where
  opening : Firm (emitted c.opening)
  named : ∀ i ∈ c.arguments, ∃ front name, i.tokens = front ++ [name] ∧ name.kind = .argumentName ∧ Named name.text
  firm : ∀ i ∈ c.arguments, Firm i.type
  arguments_kind : ∀ i ∈ c.arguments, ∀ t ∈ i.tokens, t.kind ≠ .returnTypeDef
  closing_kind : ∀ t ∈ c.closing, t.kind ≠ .returnTypeDef
  colon_eq : c.colon = .of .endDefinition [':']
  after : c.after = [] ∨ ∃ rest, c.after = [.of .endSeparator rest]

namespace Cuts.Seamless

variable {c : Cuts}

/-- The tokens give the text without insertions. -/
theorem emitted_tokens (h : c.Seamless) : emitted c.tokens = c.plain := by
  obtain ⟨hplain, hlast⟩ := foldl_write_insertions h.arguments_kind h.named h.opening.getLast?_ne
  have hmiddle : (c.opening ++ c.arguments.flatMap Insertion.tokens).foldl write [] =
      (c.arguments.flatMap Insertion.tokens).foldl write (emitted c.opening) := by
    rw [List.foldl_append, emitted]
  have hfront : (c.opening ++ c.arguments.flatMap Insertion.tokens ++ c.closing).foldl write [] =
      emitted c.opening ++ c.arguments.flatMap (fun i ↦ emitted i.tokens) ++ emitted c.closing := by
    rw [List.foldl_append, hmiddle, foldl_write_firm h.closing_kind hlast, hplain]
  rw [Cuts.tokens, emitted, List.foldl_append, hfront, List.foldl_cons, foldl_write_colon h.colon_eq h.after]
  rfl

/-- What is written piece by piece is the text with insertions. -/
theorem foldl_write_eq (h : c.Seamless) (result : Text) :
    c.after.foldl write (write (writeArrow (c.closing.foldl write (c.arguments.foldl Insertion.write
      (emitted c.opening))) ++ result) c.colon) = c.filled result := by
  obtain ⟨hinsert, hlast⟩ := foldl_insertion_write h.arguments_kind h.firm h.opening.getLast?_ne
  rw [foldl_write_colon h.colon_eq h.after, foldl_write_firm h.closing_kind hlast, hinsert]
  rfl

end Cuts.Seamless

/-- **A complete header is copied with insertions.** -/
theorem fill_ok {text : Text} {written : List Token} (hfinished : Finished written)
    (hbare : Unannotated (written.reverse ++ [Token.last]))
    (hreturn : ∀ t ∈ argumentTokens (written.reverse ++ [Token.last]), t.kind ≠ .returnTypeDef)
    (hfirm : ∀ tokens ∈ types.args, ∀ {type}, Filling.inferred types.modules tokens = .ok type →
      Firm type)
    (h : fill types (written.reverse ++ [Token.last]) = .ok text) :
    ∃ (cuts : Cuts) (result : Text), written.reverse = cuts.tokens ∧
      (∀ i ∈ cuts.arguments, i.Valid types) ∧ cuts.colon.kind = .endDefinition ∧
      Filling.inferred types.modules types.result = .ok result ∧ text = cuts.filled result ∧
      emitted cuts.tokens = cuts.plain := by
  unfold fill at h
  obtain ⟨f, hopening, h₁⟩ := bind_eq_ok.1 h
  obtain ⟨places, -, h₂⟩ := bind_eq_ok.1 h₁
  obtain ⟨f', harguments, hfinish⟩ := bind_eq_ok.1 h₂
  obtain ⟨opening, bracket, htokens, hbracket, hout, -, hrest⟩ := Filling.copyOpening_ok hopening
  rw [if_neg (by simp)] at hrest
  have hbare' : Unannotated f.rest := by
    rw [htokens] at hbare
    exact (List.isChain_split.1 hbare).2.of_cons
  obtain ⟨insertions, closing, hargs, hvalid, hout'⟩ := Filling.fillArguments_ok harguments hbare'
  obtain ⟨layout, t, after, hafter, -, hcases⟩ := Filling.finish_ok hfinish
  -- the argument list and what follows it have no arrow
  have hsplit : f.rest = insertions.flatMap Insertion.tokens ++ (closing ++ layout) ++ t :: after := by
    rw [show f.rest = _ from hargs, hafter]
    simp
  have hkind : ∀ u ∈ f.rest, u.kind ≠ .returnTypeDef := by
    rw [hrest]
    exact hreturn
  obtain ⟨hcolon, result, hresult, hcopy⟩ := hcases.resolve_right fun h ↦
    hkind t (by simp [hsplit]) h.1
  -- the closing colon is the only one, and the end token ends the header
  have htokens' : written.reverse ++ [Token.last] =
      (opening ++ [bracket] ++ insertions.flatMap Insertion.tokens ++ (closing ++ layout)) ++
        t :: after := by
    rw [htokens, hsplit]
    simp
  obtain ⟨hformed, hcolon', hend⟩ := split_of_finished hfinished htokens' hcolon
  obtain ⟨tail, last, junk, htail, hlast, -, htext⟩ := Filling.copyRest_ok hcopy
  obtain ⟨rest, hrest', rfl⟩ : ∃ rest, (rest = [] ∨ ∃ text, rest = [Token.of .endSeparator text]) ∧
      after = rest ++ [Token.last] := by
    rcases hend with rfl | ⟨text, rfl⟩
    · exact ⟨[], .inl rfl, rfl⟩
    · exact ⟨_, .inr ⟨text, rfl⟩, rfl⟩
  obtain ⟨rfl, -, -⟩ : tail = rest ∧ last = Token.last ∧ junk = [] := by
    refine split_unique (P := fun t ↦ t.kind = .stop) htail.symm hlast ?_ (by simp)
    rcases hrest' with rfl | ⟨text, rfl⟩ <;> simp [Token.of]
  have hseamless : Cuts.Seamless ⟨opening ++ [bracket], insertions, closing ++ layout, t, tail⟩ := by
    refine ⟨firm_emitted_opening hbracket, fun i hi ↦ ?_, fun i hi ↦ ?_, fun i hi u hu ↦ hkind u ?_,
      fun u hu ↦ hkind u ?_, hcolon', hrest'⟩
    · obtain ⟨⟨front, name, hi', hname⟩, -⟩ := hvalid i hi
      have hmem : name ∈ insertions.flatMap Insertion.tokens :=
        List.mem_flatMap.2 ⟨i, hi, by simp [hi']⟩
      have hproper := proper_of_formed hformed name (by simp [hmem])
      exact ⟨front, name, hi', hname, by simpa [Proper, hname] using hproper⟩
    · obtain ⟨-, tokens, htok, hinf⟩ := hvalid i hi
      exact hfirm tokens htok hinf
    · rw [hsplit]
      simp only [List.mem_append, List.mem_flatMap]
      exact .inl (.inl ⟨i, hi, hu⟩)
    · rw [hsplit]
      simp only [List.mem_append] at hu ⊢
      exact .inl (.inr hu)
  refine ⟨_, result, ?_, hvalid, hcolon, hresult, ?_, hseamless.emitted_tokens⟩
  · have : written.reverse ++ [Token.last] =
        (opening ++ [bracket] ++ insertions.flatMap Insertion.tokens ++ (closing ++ layout) ++
          t :: tail) ++ [Token.last] := by
      rw [htokens']
      simp
    exact List.append_cancel_right this
  · have hfront : layout.foldl write f'.out = (closing ++ layout).foldl write
        (insertions.foldl Insertion.write (emitted (opening ++ [bracket]))) := by
      rw [List.foldl_append, hout', hout]
      rfl
    rw [htext, hfront]
    exact hseamless.foldl_write_eq result

end Header

namespace Suggestion

open Header Text

/-- The inferred types are those of the suggestion, one by one. -/
theorem types_ok {g : Suggestion} {types : Types} (h : g.types = .ok types) :
    types.args.length = g.signature.argTypes.length ∧
      (∀ {i : Nat} {tokens : List Token}, types.args[i]? = some tokens →
        ∃ text, g.signature.argTypes[i]? = some text ∧ TypeExpr.lex text = .ok tokens) ∧
      types.modules = ModulePath.redundant g.path := by
  unfold Suggestion.types at h
  obtain ⟨args, hargs, h₁⟩ := bind_eq_ok.1 h
  obtain ⟨result, -, h₂⟩ := bind_eq_ok.1 h₁
  obtain rfl := Except.ok.inj h₂
  have hmapM : ∀ {texts : List Text} {args : List (List Token)}, texts.mapM TypeExpr.lex = .ok args →
      args.length = texts.length ∧ ∀ {i : Nat} {tokens : List Token}, args[i]? = some tokens →
        ∃ text, texts[i]? = some text ∧ TypeExpr.lex text = .ok tokens := by
    intro texts
    induction texts with
    | nil =>
      intro args hargs
      obtain rfl := Except.ok.inj hargs
      exact ⟨rfl, by simp⟩
    | cons text texts ih =>
      intro args hargs
      rw [List.mapM_cons] at hargs
      obtain ⟨first, hfirst, h₁⟩ := bind_eq_ok.1 hargs
      obtain ⟨more, hmore, h₂⟩ := bind_eq_ok.1 h₁
      obtain rfl := Except.ok.inj h₂
      obtain ⟨hlength, hall⟩ := ih hmore
      refine ⟨by rw [List.length_cons, List.length_cons, hlength], ?_⟩
      intro i tokens htokens
      cases i with
      | zero =>
        obtain rfl : first = tokens := by simpa using htokens
        exact ⟨text, rfl, hfirst⟩
      | succ i => exact hall (by simpa using htokens)
  exact ⟨(hmapM hargs).1, (hmapM hargs).2, rfl⟩

/-- What is filled in is the header that is read. -/
theorem fill_of_read {g : Suggestion} {source : Source} {header : Header} {filled : Filled}
    (hread : (Header.read source g.line).1 = .ok header) (h : (g.fill source).1 = .ok filled) :
    ∃ types, g.types = .ok types ∧ Header.fill types header.tokens = .ok filled.text ∧
      filled.lineCount = header.lineCount := by
  unfold Suggestion.fill at h
  split at h
  · exact absurd h (by simp)
  · rename_i header' asked hread'
    rw [hread'] at hread
    obtain rfl := Except.ok.inj hread
    obtain ⟨types, htypes, h₁⟩ := bind_eq_ok.1 h
    obtain ⟨text, htext, h₂⟩ := bind_eq_ok.1 h₁
    obtain rfl := Except.ok.inj h₂
    exact ⟨types, htypes, htext, rfl⟩

/-- What is read and can be filled in is filled in. -/
theorem fill_eq_ok {g : Suggestion} {source : Source} {header : Header} {types : Types} {text : Text}
    (hread : (Header.read source g.line).1 = .ok header) (htypes : g.types = .ok types)
    (hfill : Header.fill types header.tokens = .ok text) :
    (g.fill source).1 = .ok ⟨text, header.lineCount⟩ := by
  unfold Suggestion.fill
  split
  · rename_i failure asked heq
    rw [heq] at hread
    exact absurd hread (by simp)
  · rename_i header' asked heq
    rw [heq] at hread
    obtain rfl := Except.ok.inj hread
    show Suggestion.fillHeader g header' = _
    rw [Suggestion.fillHeader, htypes]
    show (do return (⟨← Header.fill types header'.tokens, header'.lineCount⟩ : Filled)) = _
    rw [hfill]
    rfl

/-- **Filling in only inserts.** Where no argument of a header has an annotation or a default value and
the header has no return annotation, the text is what the tokens of the header read as, with types
inserted behind names of arguments and before the closing colon; and without them it is the source of the
header, up to blanks and backslashes. -/
theorem fill_only_inserts {t : Text} {g : Suggestion} {header : Header} {filled : Filled}
    (ht : ∀ {u v : Text}, t = u ++ '\r' :: v → v.head? = some '\n')
    (hread : (Header.read (Document.ofText t).source g.line).1 = .ok header)
    (hbare : Unannotated header.tokens)
    (hreturn : ∀ u ∈ argumentTokens header.tokens, u.kind ≠ .returnTypeDef)
    (hfill : (g.fill (Document.ofText t).source).1 = .ok filled) :
    ∃ (types : Types) (cuts : Cuts) (result : Text),
      g.types = .ok types ∧ Filling.inferred types.modules types.result = .ok result ∧
      header.tokens = cuts.tokens ++ [Token.last] ∧ cuts.colon.kind = .endDefinition ∧
      (∀ i ∈ cuts.arguments, i.Valid types) ∧ filled.text = cuts.filled result ∧
      emitted cuts.tokens = cuts.plain ∧
      bare cuts.plain = bare ((Document.ofText t).joined g.line filled.lineCount) := by
  obtain ⟨written, htokens, hfinished⟩ := finished_of_read (Document.source_lined t) hread
  obtain ⟨types, htypes, hheader, hcount⟩ := fill_of_read hread hfill
  rw [htokens] at hbare hreturn hheader
  have hfirm : ∀ tokens ∈ types.args, ∀ {type},
      Filling.inferred types.modules tokens = .ok type → Firm type := by
    intro tokens hmem type hinferred
    obtain ⟨i, hi⟩ := List.mem_iff_getElem?.1 hmem
    obtain ⟨text, -, hlex⟩ := (types_ok htypes).2.1 hi
    exact firm_of_inferred hlex hinferred
  obtain ⟨cuts, result, hcuts, hvalid, hcolon, hresult, htext, hplain⟩ :=
    fill_ok hfinished hbare hreturn hfirm hheader
  refine ⟨types, cuts, result, htypes, hresult, by rw [htokens, hcuts], hcolon, hvalid, htext, hplain,
    ?_⟩
  -- the tokens spell out the rows of the header
  obtain ⟨rows, hrows, hbareRows⟩ := bare_tokens_of_read (Document.source_clean ht) hread
  have hjoined : (Document.ofText t).joined g.line filled.lineCount = rows.flatten := by
    rw [Document.source, ← List.map_drop, ← List.map_take,
      List.map_inj_right fun _ _ ↦ Option.some.inj] at hrows
    rw [hrows, hcount]
    rfl
  have hproper : ∀ t ∈ cuts.tokens, Proper t ∨ t.kind = .endDefinition := by
    rw [← hcuts]
    intro t ht
    exact proper_of_finished hfinished t (List.mem_reverse.1 ht)
  calc bare cuts.plain = bare (cuts.tokens.flatMap Token.text) := by
        rw [← hplain, emitted, bare_foldl_write hproper]
        simp
    _ = bare (header.tokens.flatMap Token.text) := by
        rw [htokens, hcuts]
        simp [Token.last, Token.text]
    _ = bare ((Document.ofText t).joined g.line filled.lineCount) := by rw [hbareRows, hjoined]

/-- A decorated header of three rows with a comment in it. -/
theorem fill_only_inserts_decorated : ∃ (types : Types) (cuts : Cuts) (result : Text),
    "@d\ndef f(a,  # c\n      b: int) -> None: pass".toList = cuts.filled result ∧
    (∀ i ∈ cuts.arguments, i.Valid types) ∧
    bare cuts.plain = bare "@d\ndef f(a,  # c\n      b): pass\n".toList := by
  have hread : Header.read (Document.ofText "@d\ndef f(a,  # c\n      b): pass\n".toList).source 0 =
      (.ok ⟨[.of .endSeparator ['@'], .of .functionName ['d'], .of .endSeparator ['\n'],
        .of .definition "def".toList, .of .functionName ['f'], .of .endSeparator ['('],
        .of .argumentName ['a'], .of .endSeparator [','], .of .endSeparator "  # c".toList,
        .of .endSeparator ['\n'], .of .endSeparator "      ".toList, .of .argumentName ['b'],
        .of .endSeparator [')'], .of .endDefinition [':'], .of .endSeparator " pass".toList,
        Token.last], 3⟩, [0, 1, 2]) := by rfl
  have hfill : (Suggestion.fill ⟨none, 0, none, 0, ["int".toList], "None".toList⟩
      (Document.ofText "@d\ndef f(a,  # c\n      b): pass\n".toList).source).1 =
      .ok ⟨"@d\ndef f(a,  # c\n      b: int) -> None: pass".toList, 3⟩ := by
    rw [Suggestion.fill, hread]
    rfl
  obtain ⟨types, cuts, result, -, -, -, -, hvalid, htext, -, hbare⟩ := fill_only_inserts
    (fun h ↦ absurd (h ▸ List.mem_append_cons_self : '\r' ∈ _) (by decide)) (by rw [hread])
    (by decide) (by decide) hfill
  exact ⟨types, cuts, result, htext, hvalid, hbare⟩

end Suggestion

end HeaderHints
