import Mathlib.Data.List.Chain
import HeaderHints.Proofs.ArgumentOpenings
import HeaderHints.Proofs.ItemSpans
import HeaderHints.Proofs.RenderedTypes

/-!
# Where the items of a header end

An annotation or a default value is written anew where a reader stops at a token that ends it, and copied
otherwise. Both ways end at the same place: at the first token outside brackets that ends an item
(`EndsAlike`). For what a reader takes is a span, and so is what is copied; and nothing else than the end of the
header stops a copy, when a bracket is left open.

The readers know nothing of the kinds of the tokens that they take for brackets and commas. That these kinds
are what they should be is known of all tokens of a header (`known_of_read`), whatever the source is.
-/

namespace HeaderHints.Header

open TypeExpr

variable {Q : Text → Prop} {a b : Stage × List Token} {t u : Token} {ts front rest region : List Token}
  {source : Source} {first : Nat} {header : Header} {f f' : Filling} {modules : Modules}

/-! ### What is known of the tokens of a header -/

/-- The body of a lambda follows its word. -/
def Joined (t u : Token) : Prop :=
  u.kind = .lambdaBody → t = lambdaWord

theorem joined_of_kind (h : u.kind ≠ .lambdaBody) : Joined t u :=
  fun hk ↦ absurd hk h

theorem isChain_cons_of_kind (h : u.kind ≠ .lambdaBody) (hts : ts.IsChain (flip Joined)) :
    (u :: ts).IsChain (flip Joined) :=
  List.isChain_cons.2 ⟨fun _ _ ↦ joined_of_kind h, hts⟩

/-- Each step of writing keeps lambdas together. -/
theorem Writes.joined (h : Writes Q a b) (ha : a.2.IsChain (flip Joined)) : b.2.IsChain (flip Joined) := by
  cases h with
  | @token g ts t ht =>
    refine List.isChain_cons.2 ⟨fun u hu hk ↦ ?_, ha⟩
    exact Option.some.inj (hu.symm.trans (ht.lambda hk))
  | layout _ _ _ => exact isChain_cons_of_kind (by simp [Token.of]) ha
  | @grow g ts t text hk _ =>
    have hbody : (Token.of t.kind text).kind ≠ .lambdaBody := by
      rcases hk with hk | hk | hk <;> simp [Token.of, hk]
    exact isChain_cons_of_kind hbody (List.isChain_cons.1 ha).2
  | tighten _ => exact isChain_cons_of_kind (by simp) (List.isChain_cons.1 ha).2

theorem Written.joined (h : Written Q ({}, []) a) : a.2.IsChain (flip Joined) :=
  h.invariant (I := fun a ↦ a.2.IsChain (flip Joined)) (fun ha hstep ↦ hstep.joined ha) .nil

theorem known_of_isChain (hspelt : ∀ t ∈ ts, Spelt t) (hchain : (t :: ts).IsChain Joined) (d : Nat) :
    Known d (some t) ts := by
  induction ts generalizing d t with
  | nil => trivial
  | cons u ts ih =>
    obtain ⟨hu, hmore⟩ := List.forall_mem_cons.1 hspelt
    obtain ⟨hjoined, hchain⟩ := List.isChain_cons_cons.1 hchain
    exact ⟨⟨hu, fun hk ↦ congrArg some (hjoined hk)⟩, fun _ ↦ ih hmore hchain _⟩

/-- The tokens of a header look as they should, lambdas are together, and the end token comes last. -/
theorem spelt_of_read (h : (read source first).1 = .ok header) :
    (∀ t ∈ header.tokens, Spelt t) ∧ header.tokens.IsChain Joined ∧
      ∃ init, header.tokens = init ++ [Token.last] ∧ ∀ t ∈ init, t.kind ≠ .stop := by
  obtain ⟨g, before, tail, hwritten, -, -, htail, htokens⟩ :=
    exists_written_of_read (Q := fun _ ↦ True) (fun _ ↦ trivial) residual_true h
  have hclosing : ∀ t ∈ tail, Proper t ∧ t.kind ≠ .lambdaBody := fun t ht ↦ by
    have hk := (layout_of_mem htail ht).1
    exact ⟨by simp [Proper, hk], by simp [hk]⟩
  refine ⟨?_, ?_, before.reverse ++ .of .endDefinition [':'] :: tail, by simp [htokens], ?_⟩
  · intro t ht
    simp only [htokens, List.mem_append, List.mem_reverse, List.mem_cons, List.not_mem_nil, or_false] at ht
    rcases ht with ht | ht | ht | ht
    · exact .inl (hwritten.proper t ht)
    · exact .inr (.inl ht)
    · exact .inl (hclosing t ht).1
    · exact .inr (.inr ht)
  · -- behind the closing colon there are no lambdas
    have hplain : ∀ u ∈ .of .endDefinition [':'] :: (tail ++ [Token.last]), u.kind ≠ .lambdaBody := by
      intro u hu
      simp only [List.mem_cons, List.mem_append, List.not_mem_nil, or_false] at hu
      rcases hu with rfl | hu | rfl
      · simp [Token.of]
      · exact (hclosing u hu).2
      · simp [Token.last]
    rw [htokens, List.isChain_append]
    refine ⟨List.isChain_reverse.2 hwritten.joined, ?_,
      fun t _ u hu ↦ joined_of_kind (hplain u (List.mem_of_mem_head? hu))⟩
    exact List.isChain_iff_forall_rel_of_append_cons_cons.2 fun t u l₁ l₂ hsplit ↦
      joined_of_kind (hplain u (by rw [hsplit]; simp))
  · intro t ht
    simp only [List.mem_append, List.mem_reverse, List.mem_cons] at ht
    rcases ht with ht | rfl | ht
    · exact (hwritten.proper t ht).kind_ne_stop
    · simp [Token.of]
    · exact (hclosing t ht).1.kind_ne_stop

/-- **The tokens of a header are known** from any of them on, and the end token closes them. -/
theorem known_of_read (h : (read source first).1 = .ok header) (hsplit : header.tokens = front ++ t :: rest)
    (ht : t.kind ≠ .stop) :
    Known 0 (some t) rest ∧ ∃ init, rest = init ++ [Token.last] ∧ ∀ u ∈ init, u.kind ≠ .stop := by
  obtain ⟨hspelt, hchain, init, hinit, hstop⟩ := spelt_of_read h
  rw [hsplit] at hspelt hchain hinit
  refine ⟨known_of_isChain (fun u hu ↦ hspelt u (by simp [hu])) (hchain.suffix (List.suffix_append _ _)) 0, ?_⟩
  rcases List.eq_nil_or_concat rest with rfl | ⟨more, u, rfl⟩
  · obtain ⟨-, hlast⟩ := List.append_inj' hinit rfl
    obtain rfl := List.head_eq_of_cons_eq hlast
    exact absurd rfl ht
  · have hinit : (front ++ t :: more) ++ [u] = init ++ [Token.last] := by simpa using hinit
    obtain ⟨rfl, hlast⟩ := List.append_inj' hinit rfl
    obtain rfl := List.head_eq_of_cons_eq hlast
    exact ⟨more, by simp, fun u hu ↦ hstop u (by simp [hu])⟩

/-! ### Copies -/

/-- A span up to a token that ends it is what is copied. -/
theorem copy_of_span {openers : List Text} {out : Text} (h : Span openers.length region 0)
    (hu : endsItem u = true) :
    Filling.copy openers out (region ++ u :: rest) = .ok (u :: rest, copyText openers out region) := by
  induction region generalizing openers out with
  | nil =>
    obtain rfl := List.length_eq_zero_iff.1 h
    rw [List.nil_append, Filling.copy, if_pos (by simp [hu])]
    rfl
  | cons t region ih =>
    obtain ⟨hends, hstop, hmore⟩ := h
    rw [← length_openersAfter] at hmore
    have hopen : (openers.isEmpty && endsItem t) = false := by
      cases openers with
      | nil => exact hends rfl
      | cons _ _ => rfl
    rw [List.cons_append, Filling.copy, if_neg (by simp [hopen]), if_neg hstop]
    exact ih hmore

/-- A copy fails only at the end of the header, where a bracket is left open. -/
theorem copy_error {openers : List Text} {out : Text} {fault : Fault} {init : List Token}
    (hstop : ∀ t ∈ init, t.kind ≠ .stop)
    (h : Filling.copy openers out (init ++ [Token.last]) = .error fault) :
    fault = .unbalanced ∧ ∃ n, Span openers.length init (n + 1) := by
  induction init generalizing openers out with
  | nil =>
    cases openers with
    | nil => exact absurd h (by simp [Filling.copy, endsItem, Token.last])
    | cons opener openers =>
      have hcopy : Filling.copy (opener :: openers) out [Token.last] = .error .unbalanced := rfl
      exact ⟨Except.error.inj (h.symm.trans hcopy), openers.length, rfl⟩
  | cons t init ih =>
    obtain ⟨ht, hmore⟩ := List.forall_mem_cons.1 hstop
    rw [List.cons_append, Filling.copy] at h
    by_cases hopen : (openers.isEmpty && endsItem t) = true
    · rw [if_pos hopen] at h
      exact absurd h (by simp)
    rw [if_neg hopen, if_neg ht] at h
    obtain ⟨hfault, n, hspan⟩ := ih hmore h
    refine ⟨hfault, n, fun hlen ↦ ?_, ht, by rwa [← length_openersAfter]⟩
    simpa [List.length_eq_zero_iff.1 hlen] using hopen

/-! ### Both ways of writing an item -/

/-- With the result `result`, an item is written from the state `f` on: what a reader makes of the tokens is kept
if the reader stops at a token that ends the item, and the tokens are copied otherwise. Either way the item ends
at the first such token outside brackets. -/
structure EndsAlike (reader : Reader Text) (f : Filling) (result : Except Fault Filling) : Prop where
  /-- Where the text of a reader is kept, a copy would have stopped at the same token. -/
  kept : ∀ {text : Text} {u : Token} {more : List Token}, reader.Takes f.rest text (u :: more) →
    endsItem u = true → result = .ok { f with rest := u :: more, out := f.out ++ text } ∧
      f.rest = item 0 f.rest ++ u :: more ∧
      Filling.copy [] f.out f.rest = .ok (u :: more, copyText [] f.out (item 0 f.rest))
  /-- Otherwise the output grows by a copy of the item, or nothing is written because a bracket stays open up to
  the end of the header. -/
  copied : (∀ {text : Text} {u : Token} {more : List Token}, reader.Takes f.rest text (u :: more) →
      endsItem u = false) →
    (∃ u more, f.rest = item 0 f.rest ++ u :: more ∧ endsItem u = true ∧
      result = .ok { f with rest := u :: more, out := copyText [] f.out (item 0 f.rest) }) ∨
    (result = .error .unbalanced ∧ ∃ region n, f.rest = region ++ [Token.last] ∧ Span 0 region (n + 1))

theorem item_of_span (h : Span 0 region 0) (hu : endsItem u = true) :
    item 0 (region ++ u :: rest) = region :=
  item_append h fun _ ht ↦ Option.some.inj ht ▸ hu

theorem renderOrCopy_of_takes {reader : Reader Text} {text : Text} (h : reader.Takes f.rest text (u :: rest))
    (hu : endsItem u = true) : f.renderOrCopy reader = .ok { f with rest := u :: rest, out := f.out ++ text } := by
  have hrun : reader.run.run f.rest = (.ok text, u :: rest) := h
  rw [Filling.renderOrCopy, hrun]
  exact if_pos hu

theorem renderOrCopy_of_not_takes {reader : Reader Text}
    (h : ∀ {text : Text} {rest : List Token}, reader.Takes f.rest text rest →
      ∃ u more, rest = u :: more ∧ endsItem u = false) :
    f.renderOrCopy reader = Filling.copy [] f.out f.rest >>= fun p ↦ .ok { f with rest := p.1, out := p.2 } := by
  rcases hrun : reader.run.run f.rest with ⟨_ | text, rest⟩
  · rw [Filling.renderOrCopy, hrun]
    rfl
  · obtain ⟨u, more, rfl, hu⟩ := h hrun
    rw [Filling.renderOrCopy, hrun]
    exact if_neg (by simp [hu])

/-- A reader that takes spans ends items where a copy does. -/
theorem endsAlike_renderOrCopy {reader : Reader Text} {init : List Token}
    (hreader : ∀ {text : Text} {rest : List Token}, reader.Takes f.rest text rest →
      ∃ region, f.rest = region ++ rest ∧ Span 0 region 0)
    (hinit : f.rest = init ++ [Token.last]) (hstop : ∀ t ∈ init, t.kind ≠ .stop) :
    EndsAlike reader f (f.renderOrCopy reader) := by
  constructor
  · intro text u more htakes hu
    obtain ⟨region, hsplit, hspan⟩ := hreader htakes
    have hitem : item 0 f.rest = region := by rw [hsplit, item_of_span hspan hu]
    refine ⟨renderOrCopy_of_takes htakes hu, by rw [hitem, hsplit], ?_⟩
    rw [hitem, hsplit]
    exact copy_of_span hspan hu
  · intro hnot
    have hcopy : f.renderOrCopy reader =
        Filling.copy [] f.out f.rest >>= fun p ↦ .ok { f with rest := p.1, out := p.2 } := by
      refine renderOrCopy_of_not_takes fun {text rest} htakes ↦ ?_
      cases rest with
      | cons u more => exact ⟨u, more, rfl, hnot htakes⟩
      | nil =>
        -- no reader takes the end token
        obtain ⟨region, hsplit, hspan⟩ := hreader htakes
        refine absurd rfl (hspan.kind_ne_stop Token.last ?_)
        rw [← List.append_nil region, ← hsplit, hinit]
        simp
    rw [hcopy]
    cases hok : Filling.copy [] f.out f.rest with
    | error fault =>
      rw [hinit] at hok
      obtain ⟨rfl, n, hspan⟩ := copy_error hstop hok
      exact .inr ⟨rfl, init, n, hinit, hspan⟩
    | ok p =>
      obtain ⟨region, hsplit, hspan, ⟨u, more, hu, hends⟩, hout⟩ := copy_ok hok
      rw [hu] at hsplit
      have hitem : item 0 f.rest = region := by rw [hsplit, item_of_span hspan hends]
      refine .inl ⟨u, more, by rw [hitem, hsplit], hends, ?_⟩
      rw [hitem, ← hu, ← hout]
      rfl

/-! ### The items of a header -/

/-- The kinds of items that are written anew or copied. -/
inductive ItemKind where
  /-- An annotation of an argument, or the return annotation. -/
  | hint
  /-- A default value. -/
  | value

namespace ItemKind

/-- The tokens that an item follows. -/
def Follows : ItemKind → Token → Prop
  | hint, t => t.kind = .typeDef ∨ t.kind = .returnTypeDef
  | value, t => t.kind = .defaultDef

/-- Write the item at hand. -/
def write (modules : Modules) (f : Filling) : ItemKind → Except Fault Filling
  | hint => f.writeAnnotation modules
  | value => f.writeDefault

/-- What tries to read an item that starts with the tokens `ts`. -/
def reader (modules : Modules) (ts : List Token) : ItemKind → Reader Text
  | hint => TypeExpr.render modules <$> TypeExpr.read
  | value =>
    if ts.head?.any (·.isOpener) then Collection.render [] <$> Collection.read
    else TypeExpr.render [] <$> TypeExpr.read

variable {i : ItemKind}

theorem Follows.kind_ne (h : i.Follows t) : t.kind ≠ .stop ∧ some t ≠ some lambdaWord := by
  have hkind : t.kind ≠ .stop ∧ t.kind ≠ .argumentDefault := by
    cases i with
    | hint => rcases h with hk | hk <;> simp [hk]
    | value =>
      have hk : t.kind = .defaultDef := h
      simp [hk]
  refine ⟨hkind.1, fun hword ↦ hkind.2 ?_⟩
  rw [Option.some.inj hword]
  rfl

theorem write_eq (hrest : f.rest ≠ []) : i.write modules f = f.renderOrCopy (i.reader modules f.rest) := by
  cases i with
  | hint => rfl
  | value =>
    obtain ⟨t, more, hcons⟩ := List.exists_cons_of_ne_nil hrest
    show f.writeDefault = _
    rw [Filling.writeDefault, hcons]
    exact (apply_ite f.renderOrCopy _ _ _).symm

/-- **What is read of an item is a span.** -/
theorem exists_span_of_takes {before : Option Token} {text : Text} (h : (i.reader modules ts).Takes ts text rest)
    (hknown : Known 0 before ts) (hb : before ≠ some lambdaWord) : ∃ region, ts = region ++ rest ∧ Span 0 region 0 := by
  have hpasses : Passes 0 0 ts rest := by
    have htype : ∀ {modules}, (TypeExpr.render modules <$> TypeExpr.read).Takes ts text rest → Passes 0 0 ts rest := by
      intro modules h
      obtain ⟨tree, hread, -⟩ := Reader.takes_map.1 h
      exact passes_of_read hread hknown hb
    cases i with
    | hint => exact htype h
    | value =>
      dsimp only [reader] at h
      split at h
      · rename_i hopen
        obtain ⟨t, hhead, ht⟩ := (Option.any_eq_true _ _).1 hopen
        obtain ⟨more, rfl⟩ := List.head?_eq_some_iff.1 hhead
        obtain ⟨c, hread, -⟩ := Reader.takes_map.1 h
        exact passes_of_collection hread ht hknown
      · exact htype h
  obtain ⟨region, -, hsplit, -, -, hspan⟩ := hpasses
  exact ⟨region, hsplit, hspan 0 le_rfl⟩

/-- **In the tokens of a header**, both ways of writing an item end alike. -/
theorem endsAlike (modules : Modules) (h : (read source first).1 = .ok header)
    (hsplit : header.tokens = front ++ t :: f.rest)
    (ht : i.Follows t) : EndsAlike (i.reader modules f.rest) f (i.write modules f) := by
  obtain ⟨hstop, hword⟩ := ht.kind_ne
  obtain ⟨hknown, init, hinit, hends⟩ := known_of_read h hsplit hstop
  rw [write_eq (by simp [hinit])]
  exact endsAlike_renderOrCopy (fun htakes ↦ exists_span_of_takes htakes hknown hword) hinit hends

end ItemKind

/-! ### Filling in -/

variable {types : Types} {i : ItemKind} {g : Filling} {n : Nat} {skips : List Bool}

/-- While the argument list is filled in from the state `f` on, an item of the kind `i` is written from the state `g`
on. -/
inductive Meets (types : Types) : Nat → List Bool → Filling → ItemKind → Filling → Prop
  /-- The annotation of the argument at hand. -/
  | hint {n : Nat} {skips : List Bool} {f : Filling} {name colon : Token} {ts : List Token} :
      f.rest = name :: colon :: ts → name.kind = .argumentName → colon.kind = .typeDef →
      Meets types (n + 1) skips f .hint { f with rest := ts, out := f.out ++ name.text ++ ": ".toList }
  /-- The default value of the argument at hand. -/
  | value {n : Nat} {skips : List Bool} {f f' : Filling} {name equals : Token} {ts us : List Token} :
      f.rest = name :: ts → name.kind = .argumentName →
      Filling.fillType types name.text (skips.headD false) { f with rest := ts, out := f.out ++ name.text } = .ok f' →
      f'.rest = equals :: us → equals.kind = .defaultDef →
      Meets types (n + 1) skips f .value { f' with rest := us, out := f'.out ++ " = ".toList }
  /-- An item behind the argument at hand. -/
  | argument {n : Nat} {skips : List Bool} {f f' g : Filling} {i : ItemKind} {name : Token} {ts : List Token} :
      f.rest = name :: ts → name.kind = .argumentName →
      Filling.fillArgument types name.text (skips.headD false) { f with rest := ts } = .ok f' →
      Meets types n skips.tail f' i g → Meets types (n + 1) skips f i g
  /-- An item behind the token at hand. -/
  | token {n : Nat} {skips : List Bool} {f g : Filling} {i : ItemKind} {t : Token} {ts : List Token} :
      f.rest = t :: ts → t.kind ≠ .stop → t.kind ≠ .argumentName → t.isCloser = false →
      Meets types n (if isBareMark t then skips.tail else skips) { f with rest := ts, out := write f.out t } i g →
      Meets types (n + 1) skips f i g

/-- While a header with the given tokens is filled in, an item of the kind `i` is written from the state `g` on. -/
inductive Writing (types : Types) (tokens : List Token) : ItemKind → Filling → Prop
  /-- An item of the argument list. -/
  | argument {f g : Filling} {ps : List Place} {i : ItemKind} : Filling.copyOpening false [] tokens = .ok f →
      places 0 f.rest = .ok ps →
      Meets types (f.rest.length + 1) (skipped (ps.count .name - types.args.length) ps)
        { f with nextType := types.args.length - ps.count .name } i g → Writing types tokens i g
  /-- The return annotation. -/
  | result {f f' : Filling} {ps : List Place} {layout ts : List Token} {arrow : Token} :
      Filling.copyOpening false [] tokens = .ok f → places 0 f.rest = .ok ps →
      Filling.fillArguments types (f.rest.length + 1) (skipped (ps.count .name - types.args.length) ps)
        { f with nextType := types.args.length - ps.count .name } = .ok f' →
      f'.rest = layout ++ arrow :: ts → (∀ t ∈ layout, t.isLayout = true) → arrow.kind = .returnTypeDef →
      Writing types tokens .hint { rest := ts, out := writeArrow (layout.foldl write f'.out) }

theorem bind_of_error {α β : Type} {r : Except Fault α} {k : α → Except Fault β} {fault : Fault}
    (h : r = .error fault) : r >>= k = .error fault := by
  rw [h]
  rfl

theorem fillArguments_argument {name : Token} (hrest : f.rest = name :: ts) (hname : name.kind = .argumentName) :
    Filling.fillArguments types (n + 1) skips f =
      Filling.fillArgument types name.text (skips.headD false) { f with rest := ts } >>= fun f ↦
        Filling.fillArguments types n skips.tail f := by
  rw [Filling.fillArguments, hrest]
  dsimp only
  rw [if_neg (by simp [hname]), if_pos hname]

theorem fillArguments_token (hrest : f.rest = t :: ts) (hstop : t.kind ≠ .stop) (hname : t.kind ≠ .argumentName)
    (hcloser : t.isCloser = false) :
    Filling.fillArguments types (n + 1) skips f = Filling.fillArguments types n
      (if isBareMark t then skips.tail else skips) { f with rest := ts, out := write f.out t } := by
  rw [Filling.fillArguments, hrest]
  dsimp only
  rw [if_neg hstop, if_neg hname, if_neg (by simp [hcloser])]

/-- Where an item cannot be written, the argument list is not filled in. -/
theorem Meets.error {fault : Fault} (h : Meets types n skips f i g) (hg : i.write types.modules g = .error fault) :
    Filling.fillArguments types n skips f = .error fault := by
  induction h with
  | hint hrest hname hcolon =>
    rw [fillArguments_argument hrest hname]
    refine bind_of_error (bind_of_error ?_)
    rw [Filling.fillType]
    dsimp only
    rw [if_pos hcolon]
    exact bind_of_error hg
  | value hrest hname htype hrest' hequals =>
    rw [fillArguments_argument hrest hname]
    refine bind_of_error ?_
    rw [Filling.fillArgument, htype]
    show Filling.fillDefault _ = _
    rw [Filling.fillDefault, hrest']
    dsimp only
    rw [if_pos hequals]
    exact hg
  | argument hrest hname hfill _ ih =>
    rw [fillArguments_argument hrest hname, hfill]
    exact ih hg
  | token hrest hstop hname hcloser _ ih =>
    rw [fillArguments_token hrest hstop hname hcloser]
    exact ih hg

/-- Behind layout, the return annotation is written. -/
theorem finish_layout {out : Text} {layout : List Token} {arrow : Token} (h : ∀ t ∈ layout, t.isLayout = true)
    (harrow : arrow.kind = .returnTypeDef) :
    Filling.finish types out (layout ++ arrow :: ts) =
      Filling.writeAnnotation types.modules { rest := ts, out := writeArrow (layout.foldl write out) } >>= fun f ↦
        Filling.copyRest f.out f.rest := by
  induction layout generalizing out with
  | nil =>
    rw [List.nil_append, Filling.finish, if_neg (by simp [harrow]), if_pos harrow]
    rfl
  | cons t layout ih =>
    obtain ⟨ht, hmore⟩ := List.forall_mem_cons.1 h
    have hkind : t.kind = .endSeparator := by
      simp only [Token.isLayout, Bool.and_eq_true, decide_eq_true_eq] at ht
      exact ht.1
    rw [List.cons_append, Filling.finish, if_neg (by simp [hkind]), if_neg (by simp [hkind]), if_pos ht]
    exact ih hmore

/-- **Where an item cannot be written, the header is not filled in.** -/
theorem Writing.error {tokens : List Token} {fault : Fault} (h : Writing types tokens i g)
    (hg : i.write types.modules g = .error fault) : fill types tokens = .error fault := by
  cases h with
  | argument hopening hplaces hmeets =>
    rw [fill, hopening]
    dsimp only [bind, Except.bind]
    rw [hplaces]
    dsimp only
    rw [hmeets.error hg]
  | result hopening hplaces harguments hrest hlayout harrow =>
    rw [fill, hopening]
    dsimp only [bind, Except.bind]
    rw [hplaces]
    dsimp only
    rw [harguments]
    dsimp only
    rw [hrest, finish_layout hlayout harrow]
    exact bind_of_error hg

section Places

variable (h : (read source first).1 = .ok header)
include h

/-- What an item leaves to come has come before. -/
theorem ItemKind.suffix_of_write (modules : Modules) (hrest : t :: f.rest <:+ header.tokens) (ht : i.Follows t)
    (hwrite : i.write modules f = .ok f') : f'.rest <:+ f.rest := by
  obtain ⟨front, hfront⟩ := hrest
  have halike := ItemKind.endsAlike modules h hfront.symm ht
  rw [hwrite] at halike
  by_cases hkept : ∃ text u more, (i.reader modules f.rest).Takes f.rest text (u :: more) ∧ endsItem u = true
  · obtain ⟨text, u, more, htakes, hu⟩ := hkept
    obtain ⟨heq, hitem, -⟩ := halike.kept htakes hu
    obtain rfl := Except.ok.inj heq
    exact ⟨_, hitem.symm⟩
  · obtain ⟨u, more, hitem, -, heq⟩ | ⟨heq, -⟩ := halike.copied fun {text u more} htakes ↦ by
      simpa using fun hu ↦ hkept ⟨text, u, more, htakes, hu⟩
    · obtain rfl := Except.ok.inj heq
      exact ⟨_, hitem.symm⟩
    · exact absurd heq (by simp)

theorem suffix_of_fillType {name : Text} {skip : Bool} (hrest : f.rest <:+ header.tokens)
    (hfill : Filling.fillType types name skip f = .ok f') : f'.rest <:+ f.rest := by
  unfold Filling.fillType at hfill
  split at hfill
  · exact absurd hfill (by simp)
  rename_i t ts hts
  split at hfill
  · rename_i hcolon
    obtain ⟨f₁, hwrite, heq⟩ := bind_eq_ok.1 hfill
    have hsuffix : f₁.rest <:+ ts :=
      ItemKind.suffix_of_write h types.modules (i := .hint) (f := { f with rest := ts, out := f.out ++ ": ".toList })
        (hts ▸ hrest) (.inl hcolon) hwrite
    have hf' : f'.rest = f₁.rest := by
      rw [← Except.ok.inj heq]
      cases skip <;> rfl
    rw [hf', hts]
    exact hsuffix.trans (List.suffix_cons _ _)
  split at hfill
  · obtain rfl := Except.ok.inj hfill
    exact List.suffix_rfl
  split at hfill
  · exact absurd hfill (by simp)
  · obtain ⟨text, -, heq⟩ := bind_eq_ok.1 hfill
    obtain rfl := Except.ok.inj heq
    exact List.suffix_rfl

theorem suffix_of_fillArgument {name : Text} {skip : Bool} (hrest : f.rest <:+ header.tokens)
    (hfill : Filling.fillArgument types name skip f = .ok f') : f'.rest <:+ f.rest := by
  obtain ⟨f₁, htype, hdefault⟩ := bind_eq_ok.1 hfill
  have hsuffix : f₁.rest <:+ f.rest := suffix_of_fillType h (f := { f with out := f.out ++ name }) hrest htype
  refine List.IsSuffix.trans ?_ hsuffix
  unfold Filling.fillDefault at hdefault
  split at hdefault
  · exact absurd hdefault (by simp)
  rename_i t ts hts
  split at hdefault
  · rename_i hequals
    have hvalue : f'.rest <:+ ts :=
      ItemKind.suffix_of_write h [] (i := .value) (f := { f₁ with rest := ts, out := f₁.out ++ " = ".toList })
        (hts ▸ hsuffix.trans hrest) hequals hdefault
    rw [hts]
    exact hvalue.trans (List.suffix_cons _ _)
  · obtain rfl := Except.ok.inj hdefault
    exact List.suffix_rfl

theorem suffix_of_fillArguments (hrest : f.rest <:+ header.tokens)
    (hfill : Filling.fillArguments types n skips f = .ok f') : f'.rest <:+ f.rest := by
  induction n generalizing skips f with
  | zero => exact absurd hfill (by simp [Filling.fillArguments])
  | succ n ih =>
    rw [Filling.fillArguments] at hfill
    split at hfill
    · exact absurd hfill (by simp)
    rename_i t ts hts
    have hmore : ts <:+ f.rest := hts ▸ List.suffix_cons t ts
    split at hfill
    · exact absurd hfill (by simp)
    split at hfill
    · obtain ⟨f₁, hargument, hloop⟩ := bind_eq_ok.1 hfill
      have hsuffix : f₁.rest <:+ ts := suffix_of_fillArgument h (hmore.trans hrest) hargument
      exact (ih ((hsuffix.trans hmore).trans hrest) hloop).trans (hsuffix.trans hmore)
    dsimp only at hfill
    split at hfill
    · obtain rfl := Except.ok.inj hfill
      exact hmore
    · exact (ih (hmore.trans hrest) hfill).trans hmore

theorem Meets.follows (hmeets : Meets types n skips f i g) (hrest : f.rest <:+ header.tokens) :
    ∃ t, i.Follows t ∧ t :: g.rest <:+ f.rest := by
  induction hmeets with
  | hint hsplit _ hcolon => exact ⟨_, .inl hcolon, hsplit ▸ List.suffix_cons _ _⟩
  | @value _ _ f _ _ _ ts us hsplit _ htype hsplit' hequals =>
    have hmore : ts <:+ f.rest := hsplit ▸ List.suffix_cons _ _
    refine ⟨_, hequals, ?_⟩
    show _ :: us <:+ f.rest
    rw [← hsplit']
    exact (suffix_of_fillType h (hmore.trans hrest) htype).trans hmore
  | @argument _ _ f _ _ _ _ ts hsplit _ hfill _ ih =>
    have hmore : ts <:+ f.rest := hsplit ▸ List.suffix_cons _ _
    have hsuffix := (suffix_of_fillArgument h (hmore.trans hrest) hfill).trans hmore
    obtain ⟨t, ht, hfollows⟩ := ih (hsuffix.trans hrest)
    exact ⟨t, ht, hfollows.trans hsuffix⟩
  | @token _ _ f _ _ _ ts hsplit _ _ _ _ ih =>
    have hmore : ts <:+ f.rest := hsplit ▸ List.suffix_cons _ _
    obtain ⟨t, ht, hfollows⟩ := ih (hmore.trans hrest)
    exact ⟨t, ht, hfollows.trans hmore⟩

/-- **Every item that is written** stands behind a token that it follows. -/
theorem Writing.follows (hwriting : Writing types header.tokens i g) :
    ∃ front t, header.tokens = front ++ t :: g.rest ∧ i.Follows t := by
  have hopened : ∀ {f : Filling}, Filling.copyOpening false [] header.tokens = .ok f → f.rest <:+ header.tokens := by
    intro f hopening
    obtain ⟨opening, bracket, hsplit, -⟩ := Filling.copyOpening_ok hopening
    exact ⟨opening ++ [bracket], by rw [hsplit]; simp⟩
  cases hwriting with
  | argument hopening _ hmeets =>
    have hrest := hopened hopening
    obtain ⟨t, ht, hfollows⟩ := hmeets.follows h hrest
    obtain ⟨front, hfront⟩ := hfollows.trans hrest
    exact ⟨front, t, hfront.symm, ht⟩
  | @result f _ ps _ _ _ hopening _ harguments hsplit _ harrow =>
    have hrest : f.rest <:+ header.tokens := hopened hopening
    have hsuffix := suffix_of_fillArguments h
      (f := { f with nextType := types.args.length - ps.count .name }) hrest harguments
    obtain ⟨front, hfront⟩ := hsuffix.trans hrest
    rw [hsplit, ← List.append_assoc] at hfront
    exact ⟨_, _, hfront.symm, .inr harrow⟩

end Places

/-- **Both ways of writing an annotation or a default value end at the same place**, wherever it stands in a header:
at the first token outside brackets that ends it. If there is none, the header is not filled in. -/
theorem items_end_alike (h : (read source first).1 = .ok header) :
    (∀ {front : List Token} {t : Token} {f : Filling} {i : ItemKind} (modules : Modules),
      header.tokens = front ++ t :: f.rest → i.Follows t →
        EndsAlike (i.reader modules f.rest) f (i.write modules f)) ∧
    ∀ {types : Types} {i : ItemKind} {f : Filling}, Writing types header.tokens i f →
      (∃ front t, header.tokens = front ++ t :: f.rest ∧ i.Follows t) ∧
        ∀ {fault : Fault}, i.write types.modules f = .error fault → fill types header.tokens = .error fault :=
  ⟨fun modules hsplit ht ↦ ItemKind.endsAlike modules h hsplit ht, fun hwriting ↦ ⟨hwriting.follows h, hwriting.error⟩⟩

/-- A default value that is copied, and a return annotation with a bracket that is never closed. -/
theorem items_end_alike_call :
    (∃ header, (read (Document.ofText "def f(b=g(c=1)[1:2]): pass\n".toList).source 0).1 = .ok header ∧
      EndsAlike (ItemKind.value.reader [] (header.tokens.drop 5)) ⟨header.tokens.drop 5, "def f(b = ".toList, 0⟩
        (ItemKind.value.write [] ⟨header.tokens.drop 5, "def f(b = ".toList, 0⟩) ∧
      ItemKind.value.write [] ⟨header.tokens.drop 5, "def f(b = ".toList, 0⟩ =
        .ok ⟨header.tokens.drop 14, "def f(b = g(c=1)[1:2]".toList, 0⟩) ∧
    ∃ header, (read [some "def f(x) -> [a=lambda\r(".toList, some "]: pass\n".toList] 0).1 = .ok header ∧
      fill ⟨[[.of .dottedName "int".toList, Token.last]], [.of .dottedName "None".toList, Token.last], []⟩
        header.tokens = .error .unbalanced := by
  constructor
  · have hread : (read (Document.ofText "def f(b=g(c=1)[1:2]): pass\n".toList).source 0).1 =
        .ok ⟨[.of .definition "def".toList, .of .functionName ['f'], .of .endSeparator ['('], .of .argumentName ['b'],
          .of .defaultDef ['='], .of .argumentDefault ['g'], .of .endSeparator ['('], .of .argumentDefault "c=1".toList,
          .of .endSeparator [')'], .of .endSeparator ['['], .of .argumentDefault ['1'], .of .colon [':'],
          .of .argumentDefault ['2'], .of .endSeparator [']'], .of .endSeparator [')'], .of .endDefinition [':'],
          .of .endSeparator " pass".toList, Token.last], 1⟩ := by rfl
    obtain ⟨hends, -⟩ := items_end_alike hread
    refine ⟨_, hread, hends (f := ⟨_, _, _⟩) (i := .value) [] (List.take_append_drop 4 _).symm ?_, by rfl⟩
    rfl
  · have hread : (read [some "def f(x) -> [a=lambda\r(".toList, some "]: pass\n".toList] 0).1 =
        .ok ⟨[.of .definition "def".toList, .of .functionName ['f'], .of .endSeparator ['('], .of .argumentName ['x'],
          .of .endSeparator [')'], .of .returnTypeDef "->".toList, .of .endSeparator ['['], .of .dottedName ['a'],
          .of .defaultDef ['='], .of .argumentDefault "lambda".toList, .of .lambdaBody [], .of .endSeparator ['('],
          .of .endSeparator [']'], .of .endDefinition [':'], .of .endSeparator " pass".toList, Token.last], 2⟩ := by
      rfl
    obtain ⟨-, hwrites⟩ := items_end_alike hread
    have hresult := hwrites (@Writing.result
      ⟨[[.of .dottedName "int".toList, Token.last]], [.of .dottedName "None".toList, Token.last], []⟩ _ _ _ _ [] _
      (.of .returnTypeDef "->".toList) rfl rfl rfl rfl (by simp) rfl)
    exact ⟨_, hread, hresult.2 rfl⟩

end HeaderHints.Header
