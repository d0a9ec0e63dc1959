import HeaderHints.Proofs.ContainedTypes
import HeaderHints.Proofs.LineFeeds
import HeaderHints.Proofs.MergedEdits
import HeaderHints.Proofs.Values

/-!
# Rows of a filled header

Filling in a header keeps its line feeds: each step moves as many of them to the text that has been written
as it takes off the tokens to come (`Filling.Balances`). Tokens are copied with their line feeds, a type or
a default value that is read has those of its tokens (`count_of_derives`), and an inferred type has none.

So a header without joined lines and lambdas takes up as many rows when it is filled in as before
(`fill_keeps_rows`), and the lines after it keep their numbers.
-/

namespace HeaderHints

open Text

/-! ### Types -/

namespace TypeExpr

variable {modules : Modules} {ts rest : List Token}

theorem count_intercalate {sep : Text} (hsep : '\n' ∉ sep) (texts : List Text) :
    (sep.intercalate texts).count '\n' = texts.flatten.count '\n' := by
  induction texts with
  | nil => rfl
  | cons t texts ih =>
    cases texts with
    | nil => simp
    | cons u texts =>
      rw [List.intercalate_cons_cons, List.count_append, List.count_append, ih, List.count_eq_zero.2 hsep,
        Nat.add_zero, List.flatten_cons (l := t), List.count_append]

/-- A module before a name holds no line feed. -/
theorem count_unqualified? (hm : ∀ m ∈ modules, '\n' ∉ m) {sep : Char} (hsep : sep ≠ '\n') {name short : Text}
    (h : unqualified? modules sep name = some short) : short.count '\n' = name.count '\n' := by
  unfold unqualified? at h
  split at h
  · rename_i module back hcut
    split at h
    · rename_i hmem
      obtain rfl := Option.some.inj h
      have hmodule := List.count_eq_zero.2 (hm module (by simpa using hmem))
      rw [cut?_eq_some hcut, List.count_append, hmodule, List.count_cons_of_ne hsep, Nat.zero_add]
    · exact absurd h (by simp)
  · exact absurd h (by simp)

theorem count_displayName (hm : ∀ m ∈ modules, '\n' ∉ m) (name : Text) :
    (displayName modules name).count '\n' = name.count '\n' := by
  have hgetD : ∀ {modules : Modules} {sep : Char} (name : Text), (∀ m ∈ modules, '\n' ∉ m) → sep ≠ '\n' →
      ((unqualified? modules sep name).getD name).count '\n' = name.count '\n' := by
    intro modules sep name hm hsep
    cases h : unqualified? modules sep name with
    | none => rfl
    | some short => exact count_unqualified? hm hsep h
  have huntyped : ∀ name : Text, (untyped name).count '\n' = name.count '\n' := by
    intro name
    unfold untyped
    cases h : unqualified? typingModules '.' name with
    | some short => exact count_unqualified? (by decide) (by decide) h
    | none => exact hgetD name (by decide) (by decide)
  have halias : ∀ short ∈ aliases, (short.map Char.toLower).count '\n' = short.count '\n' := by decide
  have hshort := (huntyped _).trans (hgetD name hm (by decide : '.' ≠ '\n'))
  rw [displayName, ← hshort]
  split
  · rename_i hmem
    exact halias _ (by simpa using hmem)
  · rfl

theorem count_applied (name : Text) (texts : List Text) :
    (applied name texts).count '\n' = name.count '\n' + texts.flatten.count '\n' := by
  unfold applied
  split
  · rename_i hempty
    obtain rfl : texts = [] := by simpa using hempty
    split
    · rename_i hname
      obtain rfl : name = [] := by simpa using hname
      rfl
    · rfl
  split
  · rename_i hname
    rw [count_intercalate (by decide), hname]
    exact (Nat.zero_add _).symm
  split
  · rename_i hname
    rw [count_intercalate (by decide), hname]
    exact (Nat.zero_add _).symm
  · simp only [List.count_append, count_intercalate (by decide : '\n' ∉ ", ".toList)]
    rfl

theorem count_render_node (hm : ∀ m ∈ modules, '\n' ∉ m) (name : Text) (args : List TypeExpr) :
    (render modules (node name args)).count '\n' =
      name.count '\n' + (args.map (render modules)).flatten.count '\n' := by
  rw [render, renderAll_eq_map, count_applied, count_displayName hm]

theorem count_render_ofChoices (hm : ∀ m ∈ modules, '\n' ∉ m) (choices : List TypeExpr) :
    (render modules (ofChoices choices)).count '\n' = (choices.map (render modules)).flatten.count '\n' := by
  unfold ofChoices
  split
  · simp
  · rw [union, count_render_node hm]
    exact Nat.zero_add _

theorem count_render_ofItems (hm : ∀ m ∈ modules, '\n' ∉ m) (name : Text) (items : List TypeExpr) :
    (render modules (ofItems name items)).count '\n' =
      name.count '\n' + (items.map (render modules)).flatten.count '\n' := by
  unfold ofItems
  split
  · split
    · rename_i hname
      have hnone : (render modules (leaf "None".toList)).count '\n' = 0 := by
        rw [leaf, count_render_node hm]
        rfl
      rw [optional, union, count_render_node hm, hname, List.map_cons, List.map_singleton, List.flatten_cons,
        List.flatten_singleton, List.count_append, hnone]
      simp
    · exact count_render_node hm _ _
  · exact count_render_node hm _ _

end TypeExpr

namespace Header

open TypeExpr

variable {modules : Modules} {ts rest : List Token}

/-- Number of line feeds in tokens. -/
def feeds (ts : List Token) : Nat :=
  (ts.flatMap Token.text).count '\n'

@[simp]
theorem feeds_nil : feeds [] = 0 := rfl

@[simp]
theorem feeds_cons (t : Token) (ts : List Token) : feeds (t :: ts) = t.text.count '\n' + feeds ts := by
  rw [feeds, List.flatMap_cons, List.count_append]
  rfl

@[simp]
theorem feeds_append (ts us : List Token) : feeds (ts ++ us) = feeds ts + feeds us := by
  rw [feeds, List.flatMap_append, List.count_append]
  rfl

/-- **What is written for a part of a type has the line feeds of its tokens.** -/
theorem count_of_derives (hm : ∀ m ∈ modules, '\n' ∉ m) {p : Part} {trees : List TypeExpr}
    (h : Derives p ts trees rest) :
    ∃ region, ts = region ++ rest ∧
      (partText p (trees.map (render modules))).count '\n' = feeds region := by
  have hleaf : ∀ name : Text, (render modules (TypeExpr.leaf name)).count '\n' = name.count '\n' :=
    fun name ↦ count_render_node hm name []
  have hbrackets : ∀ texts : List Text, (partText (.bracketed ['['] [']']) texts).count '\n' =
      texts.flatten.count '\n' ∧ (partText (.bracketed ['('] [')']) texts).count '\n' =
      texts.flatten.count '\n' := by
    intro texts
    simp [partText]
  have hchoices : ∀ texts : List Text, (partText .choices texts).count '\n' = texts.flatten.count '\n' :=
    count_intercalate (by decide)
  induction h with
  | @list t ts rest args _ _ ih =>
    obtain ⟨region, hsplit, hcount⟩ := ih
    refine ⟨region, hsplit, ?_⟩
    rw [← hcount, (hbrackets _).1]
    simp [partText, count_render_node hm]
  | @any t rest hk hname =>
    exact ⟨[t], rfl, by simp [partText, hleaf]⟩
  | @noReturn t rest hk hname =>
    refine ⟨[t], rfl, ?_⟩
    rw [List.map_singleton, partText, List.flatten_singleton, hleaf, feeds_cons, feeds_nil]
    rcases hname with hname | hname <;> rw [hname] <;> decide
  | @tuple t ts rest args hk hname _ ih =>
    obtain ⟨region, hsplit, hcount⟩ := ih
    refine ⟨t :: region, by rw [hsplit]; rfl, ?_⟩
    rw [feeds_cons, ← hcount, (hbrackets _).1]
    simp [partText, count_render_node hm]
  | @overload t ts rest args hk hname _ ih =>
    obtain ⟨region, hsplit, hcount⟩ := ih
    refine ⟨t :: region, by rw [hsplit]; rfl, ?_⟩
    rw [feeds_cons, ← hcount, (hbrackets _).2]
    simp [partText, count_render_node hm]
  | @union t ts rest args hk hname _ _ ih =>
    obtain ⟨region, hsplit, hcount⟩ := ih
    refine ⟨t :: region, by rw [hsplit]; rfl, ?_⟩
    rw [feeds_cons, ← hcount, (hbrackets _).1, hname]
    simp [partText, count_render_ofChoices hm]
  | @lambda t b rest hk hname _ =>
    refine ⟨[t, b], rfl, ?_⟩
    rw [List.map_singleton, partText, List.flatten_singleton, TypeExpr.lambda, hleaf, feeds_cons, hname]
    split <;> simp
  | @applied t b ts rest args hk _ _ hopen _ ih =>
    obtain ⟨region, hsplit, hcount⟩ := ih
    refine ⟨t :: region, by rw [hsplit]; rfl, ?_⟩
    rw [feeds_cons, ← hcount, (hbrackets _).1]
    simp [partText, count_render_ofItems hm]
  | @leaf t b rest hk _ _ _ =>
    exact ⟨[t], rfl, by simp [partText, hleaf]⟩
  | @bracketed opening closing t u ts rest args hopen _ hclose ih =>
    obtain ⟨region, rfl, hcount⟩ := ih
    refine ⟨t :: (region ++ [u]), by simp, ?_⟩
    simp only [partText, List.count_append] at hcount ⊢
    simp [hcount, hopen, hclose, Nat.add_assoc]
  | itemsEnd _ => exact ⟨[], rfl, rfl⟩
  | @itemsComma t u ts mid rest choices more _ _ hcomma _ ih ih' =>
    obtain ⟨region, hsplit, hcount⟩ := ih
    obtain ⟨region', rfl, hcount'⟩ := ih'
    refine ⟨region ++ u :: region', by rw [hsplit]; simp, ?_⟩
    rw [hchoices] at hcount
    simp only [partText] at hcount' ⊢
    rw [List.map_cons, List.flatten_cons, List.count_append, count_render_ofChoices hm, hcount, hcount',
      feeds_append, feeds_cons, hcomma]
    simp
  | @itemsLast t u ts rest choices _ _ _ ih =>
    obtain ⟨region, hsplit, hcount⟩ := ih
    refine ⟨region, hsplit, ?_⟩
    rw [← hcount, hchoices]
    simp [partText, count_render_ofChoices hm]
  | @choicesBar u ts mid rest t more _ hbar _ ih ih' =>
    obtain ⟨region, rfl, hcount⟩ := ih
    obtain ⟨region', rfl, hcount'⟩ := ih'
    refine ⟨region ++ u :: region', by simp, ?_⟩
    rw [hchoices] at hcount' ⊢
    simp only [partText, List.map_cons, List.map_nil, List.flatten_singleton] at hcount
    rw [List.map_cons, List.flatten_cons, List.count_append, hcount, hcount', feeds_append, feeds_cons, hbar]
    simp
  | @choicesLast u ts rest t _ _ ih =>
    obtain ⟨region, hsplit, hcount⟩ := ih
    refine ⟨region, hsplit, ?_⟩
    rw [← hcount, hchoices]
    simp [partText]

theorem count_of_read (hm : ∀ m ∈ modules, '\n' ∉ m) {tree : TypeExpr}
    (h : TypeExpr.read.Takes ts tree rest) :
    ∃ region, ts = region ++ rest ∧ (render modules tree).count '\n' = feeds region := by
  obtain ⟨choices, hderives, rfl⟩ := read_takes_iff.1 h
  obtain ⟨region, hsplit, hcount⟩ := count_of_derives hm hderives
  refine ⟨region, hsplit, ?_⟩
  rw [← hcount, count_render_ofChoices hm, partText, count_intercalate (by decide)]

/-! ### Collections -/

theorem count_of_item (hm : ∀ m ∈ modules, '\n' ∉ m) {pairs : Bool} {item : TypeExpr}
    (h : Collection.DerivesItem pairs ts item rest) :
    ∃ region, ts = region ++ rest ∧ (render modules item).count '\n' = feeds region := by
  cases h with
  | single hread => exact count_of_read hm hread
  | @pair u _ mid _ key value hkey hcolon hvalue =>
    obtain ⟨region, rfl, hcount⟩ := count_of_read hm hkey
    obtain ⟨region', rfl, hcount'⟩ := count_of_read hm hvalue
    refine ⟨region ++ u :: region', by simp, ?_⟩
    rw [TypeExpr.pair, count_render_node hm, feeds_append, feeds_cons, hcolon, ← hcount, ← hcount']
    simp

theorem count_of_items (hm : ∀ m ∈ modules, '\n' ∉ m) {closing : Text} {pairs : Bool}
    {items : List TypeExpr} (h : Collection.DerivesItems closing pairs ts items rest) :
    ∃ region, ts = region ++ rest ∧ (items.map (render modules)).flatten.count '\n' = feeds region := by
  induction h with
  | done _ => exact ⟨[], rfl, rfl⟩
  | @comma u ts mid rest item items hitem hcomma _ ih =>
    obtain ⟨region, rfl, hcount⟩ := count_of_item hm hitem
    obtain ⟨region', rfl, hcount'⟩ := ih
    refine ⟨region ++ u :: region', by simp, ?_⟩
    rw [List.map_cons, List.flatten_cons, List.count_append, hcount, hcount', feeds_append, feeds_cons, hcomma]
    simp
  | last hitem _ =>
    obtain ⟨region, hsplit, hcount⟩ := count_of_item hm hitem
    exact ⟨region, hsplit, by simpa using hcount⟩

/-- **What is written for a collection has the line feeds of its tokens.** -/
theorem count_of_collection (hm : ∀ m ∈ modules, '\n' ∉ m) {c : Collection}
    (h : Collection.read.Takes ts c rest) :
    ∃ region, ts = region ++ rest ∧ (Collection.render modules c).count '\n' = feeds region := by
  obtain ⟨t, mid, u, pairs, rfl, hopen, hitems, hclose⟩ := Collection.exists_derivesItems_of_read h
  obtain ⟨region, rfl, hcount⟩ := count_of_items hm hitems
  refine ⟨t :: (region ++ [u]), by simp, ?_⟩
  have hlast : (if c.bracket = .round && c.items.length = 1 && c.trailingComma then [','] else []).count '\n' =
      0 := by
    split <;> rfl
  rw [Collection.render, List.count_append, List.count_append, List.count_append,
    count_intercalate (by decide), hcount, hlast, feeds_cons, feeds_append, feeds_cons, hopen, hclose]
  simp [Nat.add_assoc]

/-! ### Steps of filling in -/

/-- A token whose text is what its kind says. -/
def Regular (t : Token) : Prop :=
  (Proper t ∨ t.kind = .endDefinition) ∨ t.kind = .stop

variable {types : Types} {f f' g : Filling} {out text : Text} {t : Token}

/-- The signs that lead up to an annotation or a default value hold no line feed. -/
theorem Regular.feed_notMem (h : Regular t) (hk : t.kind ∈ [.typeDef, .defaultDef, .returnTypeDef]) :
    '\n' ∉ t.text := by
  have htext : t.text ∈ [[':'], ['='], ['-', '>']] := by
    simp only [List.mem_cons, List.not_mem_nil, or_false] at hk
    rcases hk with hk | hk | hk <;> simp_all [Regular, Proper]
  simp only [List.mem_cons, List.not_mem_nil, or_false] at htext
  rcases htext with htext | htext | htext <;> rw [htext] <;> decide

theorem count_write (ht : Regular t) : (write out t).count '\n' = out.count '\n' + t.text.count '\n' := by
  rcases ht with ht | ht
  · rw [← length_filter_isFeed, ← length_filter_isFeed, ← length_filter_isFeed, filter_write rfl ht,
      List.length_append]
  · have hlayout : t.isLayout = false := by simp [Token.isLayout, ht]
    rw [write_eq (by simp [ht]), keptBefore, replacesSpace_eq_false hlayout, if_neg (by simp), spelling, ht,
      List.count_append]

theorem count_foldl_write (h : ∀ t ∈ ts, Regular t) :
    (ts.foldl write out).count '\n' = out.count '\n' + feeds ts := by
  induction ts generalizing out with
  | nil => rfl
  | cons t ts ih =>
    rw [List.forall_mem_cons] at h
    rw [List.foldl_cons, ih h.2, count_write h.1, feeds_cons, Nat.add_assoc]

theorem count_writeArrow (out : Text) : (writeArrow out).count '\n' = out.count '\n' := by
  rw [← length_filter_isFeed, ← length_filter_isFeed, filter_writeArrow rfl]
  simp [isFeed]

namespace Filling

/-- From one state to the other, line feeds move from the tokens to come to what has been written, and none
is lost or added. -/
structure Balances (f f' : Filling) : Prop where
  rest : f'.rest <:+ f.rest
  feeds : f'.out.count '\n' + feeds f'.rest = f.out.count '\n' + feeds f.rest

theorem Balances.refl (f : Filling) : f.Balances f :=
  ⟨List.suffix_rfl, rfl⟩

theorem Balances.trans (h : f.Balances g) (h' : g.Balances f') : f.Balances f' :=
  ⟨h'.rest.trans h.rest, h'.feeds.trans h.feeds⟩

/-- Some tokens are taken off, and as many line feeds are written. -/
theorem balances_of_split (region : List Token) (hrest : f.rest = region ++ f'.rest)
    (hout : f'.out.count '\n' = f.out.count '\n' + Header.feeds region) : f.Balances f' := by
  refine ⟨⟨region, hrest.symm⟩, ?_⟩
  rw [hout, hrest, feeds_append, Nat.add_assoc]

theorem Balances.regular (h : f.Balances f') (hf : ∀ t ∈ f.rest, Regular t) : ∀ t ∈ f'.rest, Regular t :=
  fun t ht ↦ hf t (h.rest.subset ht)

/-- **An item keeps its line feeds**, copied or rendered. -/
theorem renderOrCopy_balances {reader : Reader Text}
    (hreader : ∀ {ts rest : List Token} {text : Text}, reader.Takes ts text rest →
      ∃ region, ts = region ++ rest ∧ text.count '\n' = Header.feeds region)
    (hf : ∀ t ∈ f.rest, Regular t) (h : f.renderOrCopy reader = .ok f') : f.Balances f' := by
  rcases renderOrCopy_cases h with ⟨rest, out, hcopy, rfl⟩ | ⟨text, t, more, htakes, -, rfl⟩
  · obtain ⟨region, hsplit, hspan, -, rfl⟩ := copy_ok hcopy
    have hproper : ∀ t ∈ region, Proper t ∨ t.kind = .endDefinition := fun t ht ↦
      (hf t (by simp [hsplit, ht])).resolve_right (hspan.kind_ne_stop t ht)
    refine balances_of_split region hsplit ?_
    show (copyText [] f.out region).count '\n' = _
    rw [← length_filter_isFeed, filter_copyText rfl hproper, List.length_append, length_filter_isFeed,
      length_filter_isFeed]
    rfl
  · obtain ⟨region, hsplit, hcount⟩ := hreader htakes
    exact balances_of_split region hsplit (by rw [List.count_append, hcount])

theorem writeAnnotation_balances (hm : ∀ m ∈ modules, '\n' ∉ m) (hf : ∀ t ∈ f.rest, Regular t)
    (h : f.writeAnnotation modules = .ok f') : f.Balances f' := by
  refine renderOrCopy_balances (fun htakes ↦ ?_) hf h
  obtain ⟨tree, htree, rfl⟩ := Reader.takes_map.1 htakes
  exact count_of_read hm htree

theorem writeDefault_balances (hf : ∀ t ∈ f.rest, Regular t) (h : f.writeDefault = .ok f') : f.Balances f' := by
  unfold writeDefault at h
  split at h
  · exact absurd h (by simp)
  split at h
  · refine renderOrCopy_balances (fun htakes ↦ ?_) hf h
    obtain ⟨c, hc, rfl⟩ := Reader.takes_map.1 htakes
    exact count_of_collection (by simp) hc
  · refine renderOrCopy_balances (fun htakes ↦ ?_) hf h
    obtain ⟨tree, htree, rfl⟩ := Reader.takes_map.1 htakes
    exact count_of_read (by simp) htree

/-- A token that is rewritten without line feeds has none itself. -/
theorem balances_of_cons (mark : Text) {ts : List Token} (hrest : f.rest = t :: ts) (ht : '\n' ∉ t.text)
    (hmark : '\n' ∉ mark) : f.Balances { f with rest := ts, out := f.out ++ mark } := by
  refine balances_of_split [t] hrest ?_
  rw [List.count_append, List.count_eq_zero.2 hmark, feeds_cons, List.count_eq_zero.2 ht]
  rfl

/-- What is inferred holds no line feed, and neither do the modules that are left out. -/
structure OneRow (types : Types) : Prop where
  args : ∀ tokens ∈ types.args, ∀ {text : Text}, inferred types.modules tokens = .ok text → '\n' ∉ text
  result : ∀ {text : Text}, inferred types.modules types.result = .ok text → '\n' ∉ text
  modules : ∀ m ∈ types.modules, '\n' ∉ m

/-- The next type does not count. -/
theorem Balances.congr (h : f.Balances f') (hrest : g.rest = f'.rest) (hout : g.out = f'.out) : f.Balances g := by
  obtain ⟨hsuffix, hfeeds⟩ := h
  exact ⟨hrest ▸ hsuffix, by rw [hout, hrest, hfeeds]⟩

theorem fillType_balances (htypes : OneRow types) {name : Text} {skip : Bool}
    (hf : ∀ t ∈ f.rest, Regular t) (h : fillType types name skip f = .ok f') : f.Balances f' := by
  unfold fillType at h
  cases hrest : f.rest with
  | nil => simp [hrest] at h
  | cons t ts =>
    simp only [hrest] at h
    split at h
    · -- the annotation of the header
      rename_i hkind
      have ht := (hf t (by simp [hrest])).feed_notMem (by simp [hkind])
      obtain ⟨g, hwrite, hpure⟩ := bind_eq_ok.1 h
      have hfirst := balances_of_cons ": ".toList hrest ht (by decide)
      have hsecond := writeAnnotation_balances htypes.modules (hfirst.regular hf) hwrite
      refine (hfirst.trans hsecond).congr ?_ ?_ <;> obtain rfl := Except.ok.inj hpure <;> split <;> rfl
    split at h
    · exact Except.ok.inj h ▸ .refl f
    split at h
    · exact absurd h (by simp)
    · -- the inferred type
      rename_i tokens htokens
      obtain ⟨type, hinferred, hpure⟩ := bind_eq_ok.1 h
      obtain rfl := Except.ok.inj hpure
      have htype := htypes.args tokens (List.mem_of_getElem? htokens) hinferred
      refine balances_of_split [] hrest ?_
      simp [List.count_eq_zero.2 htype]

theorem fillDefault_balances (hf : ∀ t ∈ f.rest, Regular t) (h : fillDefault f = .ok f') : f.Balances f' := by
  unfold fillDefault at h
  cases hrest : f.rest with
  | nil => simp [hrest] at h
  | cons t ts =>
    simp only [hrest] at h
    split at h
    · rename_i hkind
      have ht := (hf t (by simp [hrest])).feed_notMem (by simp [hkind])
      have hfirst := balances_of_cons " = ".toList hrest ht (by decide)
      exact hfirst.trans (writeDefault_balances (hfirst.regular hf) h)
    · exact Except.ok.inj h ▸ .refl f

/-- The opening is copied with its line feeds. -/
theorem copyOpening_balances {n : Nat} (hts : ∀ t ∈ ts, Regular t) (h : copyOpening false [] ts = .ok f) :
    Balances ⟨ts, [], n⟩ f := by
  obtain ⟨opening, bracket, htokens, -, hout, -⟩ := copyOpening_ok h
  have hsplit : ts = opening ++ [bracket] ++ f.rest := by simpa using htokens
  refine balances_of_split (opening ++ [bracket]) hsplit ?_
  rw [hout, count_foldl_write fun t ht ↦ hts t (hsplit ▸ List.mem_append_left _ ht)]

/-- **The argument list keeps its line feeds.** -/
theorem fillArguments_balances (htypes : OneRow types) {n : Nat} {skips : List Bool}
    (hf : ∀ t ∈ f.rest, Regular t) (h : fillArguments types n skips f = .ok f') : f.Balances f' := by
  induction n generalizing skips f with
  | zero => exact absurd h (by simp [fillArguments])
  | succ n ih =>
    rw [fillArguments] at h
    cases hrest : f.rest with
    | nil => simp [hrest] at h
    | cons t ts =>
      simp only [hrest] at h
      split at h
      · exact absurd h (by simp)
      split at h
      · -- an argument
        obtain ⟨g, hargument, hmore⟩ := bind_eq_ok.1 h
        obtain ⟨g', htype, hdefault⟩ := bind_eq_ok.1 hargument
        have hname : f.Balances { f with rest := ts, out := f.out ++ t.text } :=
          balances_of_split [t] hrest (by simp)
        have hfirst := hname.trans (fillType_balances htypes (hname.regular hf) htype)
        have hsecond := hfirst.trans (fillDefault_balances (hfirst.regular hf) hdefault)
        exact hsecond.trans (ih (hsecond.regular hf) hmore)
      · -- a token that is copied
        have hcopy : f.Balances { f with rest := ts, out := write f.out t } := by
          refine balances_of_split [t] hrest ?_
          simp [count_write (hf t (by simp [hrest]))]
        split at h
        · exact Except.ok.inj h ▸ hcopy
        · exact hcopy.trans (ih (hcopy.regular hf) h)

end Filling

/-! ### Whole headers -/

/-- The rest is copied with its line feeds. -/
theorem count_of_copyRest {written : List Token} (hfinished : Finished written)
    (hrest : ts <:+ written.reverse ++ [Token.last]) (h : Filling.copyRest out ts = .ok text) :
    text.count '\n' = out.count '\n' + feeds ts := by
  obtain ⟨tail, last, junk, rfl, hlast, hopen, rfl⟩ := Filling.copyRest_ok h
  obtain ⟨front, hfront⟩ := hrest
  have hproper := proper_of_finished hfinished
  -- the end token is the last one
  obtain ⟨hwritten, rfl, rfl⟩ : front ++ tail = written.reverse ∧ last = Token.last ∧ junk = [] := by
    refine split_unique (P := fun t ↦ t.kind = .stop) ?_ hlast (fun t ht hstop ↦ ?_) (by simp)
    · rw [← hfront, List.append_assoc]
    · have := hproper t (List.mem_reverse.1 ht)
      simp [Proper, hstop] at this
  have hregular : ∀ t ∈ tail, Regular t := fun t ht ↦ by
    refine .inl (hproper t (List.mem_reverse.1 ?_))
    rw [← hwritten]
    exact List.mem_append_right _ ht
  rw [count_foldl_write hregular, feeds_append, feeds_cons]
  rfl

/-- What follows the argument list keeps its line feeds. -/
theorem count_of_finish {written : List Token} (htypes : Filling.OneRow types) (hfinished : Finished written)
    (hregular : ∀ t ∈ ts, Regular t) (hrest : ts <:+ written.reverse ++ [Token.last])
    (h : Filling.finish types out ts = .ok text) : text.count '\n' = out.count '\n' + feeds ts := by
  obtain ⟨layout, t, after, rfl, -, hcases⟩ := Filling.finish_ok h
  rw [List.forall_mem_append, List.forall_mem_cons] at hregular
  obtain ⟨hlayout, ht, hmore⟩ := hregular
  have hsuffix : after <:+ written.reverse ++ [Token.last] :=
    ((List.suffix_cons _ _).trans (List.suffix_append _ _)).trans hrest
  rw [feeds_append, feeds_cons]
  rcases hcases with ⟨-, result, hresult, hcopy⟩ | ⟨hkind, g, hannotation, hcopy⟩
  · -- the inferred result
    have hnone := List.count_eq_zero.2 (htypes.result hresult)
    rw [count_of_copyRest hfinished hsuffix hcopy, count_write ht, List.count_append, hnone, count_writeArrow,
      count_foldl_write hlayout]
    omega
  · -- the result of the header
    have harrow := List.count_eq_zero.2 (ht.feed_notMem (by simp [hkind]))
    have hbalance := Filling.writeAnnotation_balances htypes.modules hmore hannotation
    rw [count_of_copyRest hfinished (hbalance.rest.trans hsuffix) hcopy, hbalance.feeds, count_writeArrow,
      count_foldl_write hlayout]
    dsimp only
    omega

/-- **Filling in a header keeps its line feeds.** -/
theorem count_of_fill {written : List Token} (htypes : Filling.OneRow types) (hfinished : Finished written)
    (h : fill types (written.reverse ++ [Token.last]) = .ok text) :
    text.count '\n' = feeds (written.reverse ++ [Token.last]) := by
  have hregular : ∀ t ∈ written.reverse ++ [Token.last], Regular t := by
    intro t ht
    rcases List.mem_append.1 ht with ht | ht
    · exact .inl (proper_of_finished hfinished t (List.mem_reverse.1 ht))
    · exact .inr (by rw [List.mem_singleton.1 ht]; rfl)
  unfold fill at h
  obtain ⟨f, hopening, h₁⟩ := bind_eq_ok.1 h
  obtain ⟨places, -, h₂⟩ := bind_eq_ok.1 h₁
  obtain ⟨f', harguments, hfinish⟩ := bind_eq_ok.1 h₂
  have hopen : Filling.Balances ⟨written.reverse ++ [Token.last], [], 0⟩
      { f with nextType := types.args.length - places.count .name } :=
    (Filling.copyOpening_balances hregular hopening).congr rfl rfl
  have hargs := hopen.trans (Filling.fillArguments_balances htypes (hopen.regular hregular) harguments)
  rw [count_of_finish htypes hfinished (hargs.regular hregular) hargs.rest hfinish, hargs.feeds]
  exact Nat.zero_add _

end Header

/-! ### Replacing rows -/

namespace Text

theorem length_rows_of_closed {t : Text} (h : Closed t) : (rows t).length = t.count '\n' := by
  have hrows : ∀ {d : List Text}, (∀ row ∈ d, IsRow row) → d.length = d.flatten.count '\n' := by
    intro d hd
    induction d with
    | nil => rfl
    | cons row d ih =>
      rw [List.forall_mem_cons] at hd
      obtain ⟨⟨body, rfl, hbody⟩, hd⟩ := hd
      rw [List.length_cons, ih hd, List.flatten_cons, List.count_append, List.count_append,
        List.count_eq_zero.2 hbody]
      exact Nat.add_comm _ _
  rw [hrows h.isRow, flatten_rows]

/-- The last rows of a text are cut as they are in the text. -/
theorem rows_flatten_drop (t : Text) (n : Nat) : rows ((rows t).drop n).flatten = (rows t).drop n := by
  rcases Nat.lt_or_ge n (rows t).length with hn | hn
  · have hsplit := rows_flatten_append (isRow_of_mem_take hn) ((rows t).drop n).flatten
    rw [← List.flatten_append, List.take_append_drop, flatten_rows] at hsplit
    conv_lhs at hsplit => rw [← List.take_append_drop n (rows t)]
    exact (List.append_cancel_left hsplit).symm
  · rw [List.drop_eq_nil_of_le hn]
    rfl

end Text

namespace Document

/-- The text of a document in which rows give way to a text that a line feed closes. -/
def replaced (d : Document) (start count : Nat) (text : Text) : Text :=
  (d.take start).flatten ++ text ++ ['\n'] ++ (d.drop (start + count)).flatten

/-- An edit that replaces rows writes its text in their place. -/
theorem apply_eq_replaced {start count : Nat} (h : start + count < Decimal.wordSize) (d : Document)
    (text : Text) : Edit.apply ⟨start, count, text ++ ['\n'], true⟩ d = d.replaced start count text := by
  rw [Edit.apply_eq fun _ ↦ h, replaced, List.append_assoc _ text]
  rfl

/-- A text of as many rows leaves the rows behind it where they are. -/
theorem drop_ofText_replaced {t text : Text} {start count : Nat} (hstart : start < (ofText t).length)
    (hcount : text.count '\n' + 1 = count) :
    (ofText ((ofText t).replaced start count text)).drop (start + count) =
      (ofText t).drop (start + count) := by
  replace hstart : start < (rows t).length := hstart
  have hclosed : Closed (text ++ ['\n']) := .inr (by simp)
  have hlength : (rows (text ++ ['\n'])).length = count := by
    rw [length_rows_of_closed hclosed, List.count_append, ← hcount]
    rfl
  have hrows : ofText ((ofText t).replaced start count text) =
      (rows t).take start ++ rows (text ++ ['\n']) ++ (rows t).drop (start + count) := by
    rw [replaced, ofText, ofText, List.append_assoc _ text, List.append_assoc,
      rows_flatten_append (isRow_of_mem_take hstart), hclosed.rows_append, rows_flatten_drop,
      List.append_assoc]
  have hfront : ((rows t).take start ++ rows (text ++ ['\n'])).length = start + count := by
    rw [List.length_append, hlength, List.length_take, Nat.min_eq_left (Nat.le_of_lt hstart)]
  rw [hrows, List.drop_append_of_le_length hfront.ge, List.drop_of_length_le hfront.le, List.nil_append]
  rfl

end Document

namespace Suggestion

open Header TypeExpr

/-- The inferred types of a suggestion hold no line feed. -/
theorem types_oneRow {g : Suggestion} {types : Types} (hpath : g.path = none) (h : g.types = .ok types) :
    Filling.OneRow types := by
  have hinferred : ∀ {text : Text} {tokens : List Token} {type : Text}, lex text = .ok tokens →
      Filling.inferred types.modules tokens = .ok type → '\n' ∉ type := by
    intro text tokens type hlex hok hmem
    obtain ⟨tree, hread, rfl⟩ := map_eq_ok.1 hok
    have hcontained := (allNames_of_readWhole hlex (Prod.ext hread rfl)).contained_render types.modules
    exact absurd (hcontained.chars _ hmem) (by decide)
  obtain ⟨-, hargs, hmodules⟩ := types_ok h
  refine ⟨fun tokens htokens text hok ↦ ?_, fun {text} hok ↦ ?_, ?_⟩
  · obtain ⟨i, hi⟩ := List.mem_iff_getElem?.1 htokens
    obtain ⟨written, -, hlex⟩ := hargs hi
    exact hinferred hlex hok
  · unfold Suggestion.types at h
    obtain ⟨args, -, h₁⟩ := bind_eq_ok.1 h
    obtain ⟨result, hresult, h₂⟩ := bind_eq_ok.1 h₁
    obtain rfl := Except.ok.inj h₂
    exact hinferred hresult hok
  · rw [hmodules, hpath]
    simp [ModulePath.redundant]

/-- **A header keeps its rows.** Where the header joins no lines and has no lambda, the text of the filled
header holds one line feed less than the header has rows. So it takes up as many rows as the header did, and
all rows behind the header keep their numbers. -/
theorem fill_keeps_rows {t : Text} {g : Suggestion} {filled : Filled}
    (ht : ∀ {u v : Text}, t = u ++ '\r' :: v → v.head? = some '\n') (hpath : g.path = none)
    (hjoins : ¬ Joins (Document.ofText t).source g.line)
    (hlambda : ¬ Names (Document.ofText t).source g.line "lambda".toList)
    (hfill : (g.fill (Document.ofText t).source).1 = .ok filled) :
    filled.text.count '\n' = filled.lineCount - 1 ∧ 1 ≤ filled.lineCount ∧
      ∀ i, g.line + filled.lineCount ≤ i →
        (Document.ofText ((Document.ofText t).replaced g.line filled.lineCount filled.text))[i]? =
          (Document.ofText t)[i]? := by
  obtain ⟨header, hread, hlines⟩ := lineCount_of_fill hfill
  obtain ⟨-, hone, hend⟩ := asked_of_fill hfill
  have hread : (Header.read (Document.ofText t).source g.line).1 = .ok header := by rw [hread]
  obtain ⟨types, htypes, hheader, -⟩ := fill_of_read hread hfill
  obtain ⟨written, htokens, hfinished⟩ := finished_of_read (Document.source_lined t) hread
  have hfull : some [] ∉ (Document.ofText t).source := by
    intro hmem
    obtain ⟨row, hrow, heq⟩ := List.mem_map.1 hmem
    exact Text.ne_nil_of_mem_rows hrow (Option.some.inj heq)
  have hfeeds := count_tokens_of_read (Document.source_clean ht) hfull hjoins hlambda hread
  have hcount : filled.text.count '\n' + 1 = filled.lineCount := by
    rw [htokens] at hheader hfeeds
    rw [hlines, ← hfeeds, count_of_fill (types_oneRow hpath htypes) hfinished hheader]
    rfl
  refine ⟨by omega, hone, fun i hi ↦ ?_⟩
  obtain ⟨j, rfl⟩ := Nat.exists_eq_add_of_le hi
  rw [← List.getElem?_drop, ← List.getElem?_drop, Document.drop_ofText_replaced (by omega) hcount]

/-- A comment, a blank row, an annotation, a tuple and a string over two rows each, and a string with a
replacement field. -/
theorem fill_keeps_rows_six : ∃ (t : Text) (filled : Filled),
    t = "def f(a,  # one\n\n  b: dict[str,\n  int]=(1,\n  2), c=\"\"\"x\ny\"\"\", ".toList ++
      "d=f\"\x7ba\x7d\"):\n  pass\n".toList ∧
    (Suggestion.fill ⟨none, 0, none, 0, ["int".toList, "int".toList, "str".toList, "str".toList], "None".toList⟩
      (Document.ofText t).source).1 = .ok filled ∧
    filled.lineCount = 6 ∧ filled.text.count '\n' = 5 := by
  obtain ⟨t, ht⟩ : ∃ t : Text,
      t = "def f(a,  # one\n\n  b: dict[str,\n  int]=(1,\n  2), c=\"\"\"x\ny\"\"\", ".toList ++
        "d=f\"\x7ba\x7d\"):\n  pass\n".toList := ⟨_, rfl⟩
  have hread : (Header.read (Document.ofText t).source 0).1 =
      .ok ⟨[.of .definition "def".toList, .of .functionName ['f'], .of .endSeparator ['('],
        .of .argumentName ['a'], .of .endSeparator [','], .of .endSeparator "  # one".toList,
        .of .endSeparator ['\n'], .of .endSeparator ['\n'], .of .endSeparator "  ".toList,
        .of .argumentName ['b'], .of .typeDef [':'], .of .dottedName "dict".toList, .of .endSeparator ['['],
        .of .dottedName "str".toList, .of .endSeparator [','], .of .endSeparator ['\n'],
        .of .endSeparator "  ".toList, .of .dottedName "int".toList, .of .endSeparator [']'],
        .of .defaultDef ['='], .of .endSeparator ['('], .of .argumentDefault ['1'], .of .endSeparator [','],
        .of .endSeparator ['\n'], .of .endSeparator "  ".toList, .of .argumentDefault ['2'],
        .of .endSeparator [')'], .of .separator [','], .of .argumentName ['c'], .of .defaultDef ['='],
        .of .argumentDefault "\"\"\"x\ny\"\"\"".toList, .of .separator [','], .of .argumentName ['d'],
        .of .defaultDef ['='], .of .argumentDefault "f\"\x7ba\x7d\"".toList, .of .endSeparator [')'],
        .of .endDefinition [':'], Token.last], 6⟩ := by
    rw [ht]
    rfl
  have htypes : Suggestion.types
      ⟨none, 0, none, 0, ["int".toList, "int".toList, "str".toList, "str".toList], "None".toList⟩ =
      .ok ⟨[[.of .dottedName "int".toList, Token.last], [.of .dottedName "int".toList, Token.last],
        [.of .dottedName "str".toList, Token.last], [.of .dottedName "str".toList, Token.last]],
        [.of .dottedName "None".toList, Token.last], []⟩ := by rfl
  have hfill : (Suggestion.fill
      ⟨none, 0, none, 0, ["int".toList, "int".toList, "str".toList, "str".toList], "None".toList⟩
      (Document.ofText t).source).1 =
      .ok ⟨"def f(a: int,  # one\n\n  b: dict[str,\n  int] = (1,\n  2), c: str = \"\"\"x\ny\"\"\", ".toList ++
        "d: str = f\"\x7ba\x7d\") -> None:".toList, 6⟩ :=
    fill_eq_ok (g := ⟨none, 0, none, 0, _, _⟩) hread htypes (eq_ok_of_toOption (by decide +kernel))
  have hchars : '\r' ∉ t ∧ '\\' ∉ t ∧ ¬ "lambda".toList <:+: t := by
    rw [ht]
    decide +kernel
  obtain ⟨hcount, -⟩ := fill_keeps_rows (fun h ↦ absurd (h ▸ List.mem_append_cons_self) hchars.1) rfl
    (not_joins_of_notMem hchars.2.1) (fun h ↦ absurd (infix_of_names h) hchars.2.2) hfill
  exact ⟨t, _, ht, hfill, rfl, hcount⟩

end Suggestion

end HeaderHints
