import Mathlib.Data.List.TakeWhile
import HeaderHints.Proofs.Readers
import HeaderHints.Suggestion.Batch

/-!
# Complaints on one line

What a message quotes comes from a source or from an inferred type and may hold anything, yet a message has
no line end in it: a text in quotes has its line ends escaped (`Text.oneLine_quoted`), and apart from quoted
texts a message holds fixed words and the names of kinds (`Fault.oneLine_message`). The exception are faults
that somebody has described in words, and no step of filling in a header fails with one of these
(`Suggestion.fill_worded`): `FailsOnly` follows the failures through every step, and `Reader.FailsOnly` through
the readers.

So the comment about a suggestion that fails is a single line (`Suggestion.complaint_on_one_line`).
-/

namespace HeaderHints

namespace Text

/-- The characters that end a line. -/
def lineEnds : List Char :=
  ['\n', '\r', '\x0b', '\x0c', '\u0085', '\u2028', '\u2029']

/-- A text in which no line ends. -/
def OneLine (t : Text) : Prop :=
  ∀ c ∈ t, c ∉ lineEnds

instance (t : Text) : Decidable (OneLine t) :=
  inferInstanceAs (Decidable (∀ c ∈ t, c ∉ lineEnds))

variable {t u : Text}

@[simp] theorem oneLine_append : OneLine (t ++ u) ↔ OneLine t ∧ OneLine u :=
  List.forall_mem_append

/-- Visible characters of the ASCII range end no line. -/
theorem oneLine_of_ascii (h : ∀ c ∈ t, 32 ≤ c.toNat ∧ c.toNat < 127) : OneLine t := by
  intro c hc hend
  have hout : ∀ e ∈ lineEnds, ¬ (32 ≤ e.toNat ∧ e.toNat < 127) := by decide
  exact hout c hend (h c hc)

theorem oneLine_flatMap {α : Type} {f : α → Text} {xs : List α} (h : ∀ x ∈ xs, OneLine (f x)) :
    OneLine (xs.flatMap f) := by
  intro c hc
  obtain ⟨x, hx, hcx⟩ := List.mem_flatMap.1 hc
  exact h x hx c hcx

/-! ### Quoted texts -/

theorem notMem_lineEnds_of_isVisible {c : Char} (h : isVisible c = true) : c ∉ lineEnds := by
  intro hc
  have hhidden : ∀ c ∈ lineEnds, isVisible c = false := by decide +kernel
  rw [hhidden c hc] at h
  exact absurd h (by simp)

theorem oneLine_toDigits (n : Nat) : OneLine (Nat.toDigits 16 n) := by
  have hdigit : ∀ d < 16, d.digitChar ∉ lineEnds := by decide
  induction n using Nat.strongRecOn with
  | ind n ih =>
    rw [Nat.toDigits_eq_if (by decide)]
    split
    · rename_i hlt
      exact List.forall_mem_singleton.2 (hdigit n hlt)
    · have hlt : n / 16 < n := by omega
      have hmod : n % 16 < 16 := Nat.mod_lt _ (by decide)
      exact oneLine_append.2 ⟨ih _ hlt, List.forall_mem_singleton.2 (hdigit _ hmod)⟩

theorem oneLine_escaped (c : Char) : OneLine (escaped c) := by
  unfold escaped
  -- the six characters with an escape of their own
  iterate 6
    split
    · decide
  split
  · rename_i hvisible
    exact List.forall_mem_singleton.2 (notMem_lineEnds_of_isVisible hvisible)
  · have hlead : OneLine "\\u\x7b".toList := by decide
    have hlast : OneLine ['}'] := by decide
    exact oneLine_append.2 ⟨oneLine_append.2 ⟨hlead, oneLine_toDigits _⟩, hlast⟩

/-- **A text in quotes is one line**, whatever the text. -/
theorem oneLine_quoted (t : Text) : OneLine (quoted t) := by
  have hquote : OneLine ['"'] := by decide
  have hbody : OneLine (t.flatMap escaped) := oneLine_flatMap fun c _ ↦ oneLine_escaped c
  exact oneLine_append.2 ⟨oneLine_append (t := ['"']).2 ⟨hquote, hbody⟩, hquote⟩

theorem oneLine_alternatives {choices : List Text} (h : ∀ choice ∈ choices, OneLine choice) :
    OneLine (alternatives choices) := by
  have hor : OneLine " or ".toList := by decide
  have hcomma : OneLine ", ".toList := by decide
  have hlast : OneLine "or ".toList := by decide
  unfold alternatives
  split
  · exact List.forall_mem_nil _
  · exact h _ List.mem_cons_self
  · simp only [List.mem_cons, List.not_mem_nil, or_false, forall_eq_or_imp, forall_eq] at h
    exact oneLine_append.2 ⟨oneLine_append.2 ⟨h.1, hor⟩, h.2⟩
  · refine oneLine_append.2 ⟨oneLine_append.2 ⟨oneLine_flatMap fun choice hmem ↦ ?_, hlast⟩, ?_⟩
    · exact oneLine_append.2 ⟨h _ (List.dropLast_subset _ hmem), hcomma⟩
    · cases hget : choices.getLast? with
      | none => exact List.forall_mem_nil _
      | some choice => exact h _ (List.mem_of_getLast? hget)

end Text

/-! ### Messages -/

open Text

theorem Token.Kind.oneLine_title (k : Token.Kind) : OneLine k.title := by
  cases k <;> decide

theorem Token.oneLine_display (t : Token) : OneLine t.display := by
  have hopen : OneLine ['('] := by decide
  have hclose : OneLine [')'] := by decide
  unfold Token.display
  split
  · simp only [oneLine_append]
    exact ⟨⟨⟨t.kind.oneLine_title, hopen⟩, oneLine_quoted _⟩, hclose⟩
  · exact t.kind.oneLine_title

namespace Fault

/-- A fault that gets its words from the library. -/
def Worded : Fault → Prop
  | described _ => False
  | _ => True

/-- **A message is one line**, whatever it quotes. -/
theorem oneLine_message {f : Fault} (h : f.Worded) : OneLine f.message := by
  have hkinds : ∀ wanted : List Token.Kind,
      OneLine (alternatives (wanted.map fun k ↦ ['\''] ++ k.title ++ ['\''])) := by
    intro wanted
    have hmark : OneLine ['\''] := by decide
    refine oneLine_alternatives fun choice hmem ↦ ?_
    obtain ⟨k, -, rfl⟩ := List.mem_map.1 hmem
    exact oneLine_append.2 ⟨oneLine_append.2 ⟨hmark, k.oneLine_title⟩, hmark⟩
  cases f with
  | described words => exact h.elim
  | _ =>
    simp only [message, message?, Option.getD_some, Option.getD_none, oneLine_append, oneLine_quoted,
      Token.oneLine_display, hkinds, and_true]
    and_intros
    all_goals exact oneLine_of_ascii (by decide)

end Fault

/-! ### Following failures -/

/-- A computation that fails with errors of one sort only. -/
def FailsOnly {ε α : Type} (p : ε → Prop) (r : Except ε α) : Prop :=
  ∀ e, r = .error e → p e

namespace FailsOnly

variable {ε α β : Type} {p : ε → Prop} {r : Except ε α}

@[simp] theorem ok (a : α) : FailsOnly p (.ok a : Except ε α) :=
  fun _ h ↦ absurd h (by simp)

@[simp] theorem error {e : ε} : FailsOnly p (.error e : Except ε α) ↔ p e :=
  ⟨fun h ↦ h e rfl, fun h _ he ↦ Except.error.inj he ▸ h⟩

theorem bind {f : α → Except ε β} (hr : FailsOnly p r) (hf : ∀ a, FailsOnly p (f a)) :
    FailsOnly p (r >>= f) := by
  cases r with
  | error e => exact error.2 (error.1 hr)
  | ok a => exact hf a

theorem map {f : α → β} (hr : FailsOnly p r) : FailsOnly p (f <$> r) := by
  cases r with
  | error e => exact error.2 (error.1 hr)
  | ok a => exact ok (f a)

theorem ite {c : Prop} [Decidable c] {r' : Except ε α} (hr : FailsOnly p r) (hr' : FailsOnly p r') :
    FailsOnly p (if c then r else r') := by
  split
  · exact hr
  · exact hr'

theorem mapM {f : α → Except ε β} (hf : ∀ a, FailsOnly p (f a)) (xs : List α) :
    FailsOnly p (xs.mapM f) := by
  induction xs with
  | nil => exact ok []
  | cons x xs ih =>
    rw [List.mapM_cons]
    exact (hf x).bind fun _ ↦ ih.bind fun _ ↦ ok _

end FailsOnly

namespace Reader

variable {α β : Type} {p : Fault → Prop} {r : Reader α}

/-- A reader that fails with faults of one sort only. -/
def FailsOnly (p : Fault → Prop) (r : Reader α) : Prop :=
  ∀ ts, HeaderHints.FailsOnly p (r.run.run ts).1

namespace FailsOnly

theorem pure (a : α) : FailsOnly p (Pure.pure a : Reader α) :=
  fun _ ↦ .ok a

theorem throw {f : Fault} (h : p f) : FailsOnly p (MonadExcept.throw f : Reader α) :=
  fun _ ↦ HeaderHints.FailsOnly.error.2 h

theorem get : FailsOnly p (MonadState.get : Reader (List Token)) :=
  fun ts ↦ .ok ts

theorem bind {f : α → Reader β} (hr : FailsOnly p r) (hf : ∀ a, FailsOnly p (f a)) :
    FailsOnly p (r >>= f) := by
  intro ts
  have hrun : (r >>= f).run.run ts =
      (ExceptT.bindCont f (r.run.run ts).1).run (r.run.run ts).2 := rfl
  rw [hrun]
  have hfirst := hr ts
  revert hfirst
  rcases r.run.run ts with ⟨fault | a, mid⟩ <;> intro hfirst
  · exact HeaderHints.FailsOnly.error.2 (HeaderHints.FailsOnly.error.1 hfirst)
  · exact hf a mid

theorem map {f : α → β} (hr : FailsOnly p r) : FailsOnly p (f <$> r) := by
  rw [map_eq_pure_bind]
  exact hr.bind fun _ ↦ pure _

end FailsOnly

/-! ### Readers -/

theorem peek_worded : peek.FailsOnly Fault.Worded := by
  refine FailsOnly.get.bind fun ts ↦ ?_
  cases ts with
  | nil => exact .throw trivial
  | cons t ts => exact .pure t

theorem next_worded : next.FailsOnly Fault.Worded := by
  refine FailsOnly.get.bind fun ts ↦ ?_
  cases ts with
  | nil => exact .throw trivial
  | cons t ts => exact FailsOnly.bind (fun _ ↦ .ok ()) fun _ ↦ .pure t

theorem peekText_worded : peekText.FailsOnly Fault.Worded :=
  peek_worded.map

theorem expect_worded (wanted : Text) : (expect wanted).FailsOnly Fault.Worded := by
  refine next_worded.bind fun t ↦ ?_
  split
  · exact .pure ()
  · exact .throw trivial

theorem expectKind_worded (wanted : List Token.Kind) : (expectKind wanted).FailsOnly Fault.Worded := by
  refine next_worded.bind fun t ↦ ?_
  split
  · exact .pure t
  · exact .throw trivial

end Reader

namespace TypeExpr

open Reader

/-- What the readers of the grammar fail with, for one bound on the depth of their calls. -/
theorem readWithin_worded (n : Nat) :
    (readSingleWithin n).FailsOnly Fault.Worded ∧
    (∀ opening closing, (readBracketedWithin n opening closing).FailsOnly Fault.Worded) ∧
    (readItemsWithin n).FailsOnly Fault.Worded ∧
    (readChoicesWithin n).FailsOnly Fault.Worded := by
  induction n with
  | zero =>
    refine ⟨?_, fun opening closing ↦ ?_, ?_, ?_⟩
    · rw [readSingleWithin]
      exact .throw trivial
    · rw [readBracketedWithin]
      exact .throw trivial
    · rw [readItemsWithin]
      exact .throw trivial
    · rw [readChoicesWithin]
      exact .throw trivial
  | succ n ih =>
    obtain ⟨hsingle, hbracketed, hitems, hchoices⟩ := ih
    refine ⟨?_, fun opening closing ↦ ?_, ?_, ?_⟩
    · rw [readSingleWithin]
      refine peekText_worded.bind fun ahead ↦ ?_
      split
      · exact (hbracketed _ _).bind fun _ ↦ .pure _
      refine (expectKind_worded _).bind fun t ↦ ?_
      dsimp only
      split
      · exact .pure _
      split
      · exact .pure _
      split
      · exact (hbracketed _ _).bind fun _ ↦ .pure _
      split
      · refine (hbracketed _ _).bind fun ts ↦ ?_
        split
        · exact .throw trivial
        · exact .pure _
      split
      · exact (expectKind_worded _).map.bind fun _ ↦ .pure _
      split
      · exact (hbracketed _ _).bind fun _ ↦ .pure _
      refine peekText_worded.bind fun ahead ↦ ?_
      split
      · refine (hbracketed _ _).bind fun ts ↦ ?_
        split <;> exact .pure _
      · exact .pure _
    · rw [readBracketedWithin]
      exact (expect_worded _).bind fun _ ↦ hitems.bind fun _ ↦ (expect_worded _).bind fun _ ↦ .pure _
    · rw [readItemsWithin]
      refine peekText_worded.bind fun ahead ↦ ?_
      split
      · exact .pure _
      refine hchoices.bind fun _ ↦ peekText_worded.bind fun ahead ↦ ?_
      split
      · exact (expect_worded _).bind fun _ ↦ hitems.bind fun _ ↦ .pure _
      split
      · exact .pure _
      · exact .throw trivial
    · rw [readChoicesWithin]
      refine hsingle.bind fun _ ↦ peekText_worded.bind fun ahead ↦ ?_
      split
      · exact (expect_worded _).bind fun _ ↦ hchoices.bind fun _ ↦ .pure _
      · exact .pure _

theorem readWhole_worded : readWhole.FailsOnly Fault.Worded := by
  have hread : read.FailsOnly Fault.Worded :=
    Reader.FailsOnly.map (Reader.FailsOnly.get.bind fun _ ↦ (readWithin_worded _).2.2.2)
  have hend : atEnd.FailsOnly Fault.Worded := Reader.FailsOnly.get.bind fun _ ↦ .pure _
  refine hread.bind fun t ↦ hend.bind fun _ ↦ ?_
  split
  · exact .pure t
  · exact peek_worded.bind fun _ ↦ .throw trivial

theorem lexRest_worded (whole : Text) (n : Nat) :
    ∀ t : Text, FailsOnly Fault.Worded (lexRest whole n t) := by
  induction n with
  | zero =>
    intro t
    cases t with
    | nil => exact .ok _
    | cons c t => exact FailsOnly.error.2 trivial
  | succ n ih =>
    intro t
    cases t with
    | nil => exact .ok _
    | cons c t =>
      have hcons : ∀ (u : Token) (r : Text),
          FailsOnly Fault.Worded (do return u :: (← lexRest whole n r)) := fun u r ↦
        (ih r).bind fun _ ↦ .ok _
      refine .ite (ih t) <| .ite (hcons _ _) ?_
      split
      · exact hcons _ _
      split
      · exact hcons _ _
      split
      · exact FailsOnly.error.2 trivial
      · exact hcons _ _

theorem lex_worded (text : Text) : FailsOnly Fault.Worded (lex text) :=
  lexRest_worded text _ _

end TypeExpr

/-! ### Reading a header -/

namespace Header

/-- A failure whose fault gets its words from the library. -/
def Failure.Worded (failure : Failure) : Prop :=
  failure.fault.Worded

namespace Draft

variable {d : Draft} {rows : List Text} {x : Lexeme}

theorem operator_worded (op : Text) : FailsOnly Failure.Worded (d.operator op) :=
  .ite (.ok _) <| .ite (.ok _) <| .ite (.ok _) <| FailsOnly.error.2 trivial

theorem name_worded : FailsOnly Failure.Worded (d.name x) :=
  .ite (.ite (.ok _) <| .ite (.ite (FailsOnly.error.2 trivial) (.ok _)) (.ok _)) <|
    .ite (.ok _) <| .ite (.ite (.ok _) (.ok _)) (.ok _)

theorem dot_worded (text : Text) : FailsOnly Failure.Worded (d.dot text) :=
  .ite (.ok _) <| .ite (.ok _) <| FailsOnly.error.2 trivial

theorem op_worded : FailsOnly Failure.Worded (d.op rows x) :=
  .ite (.ok _) <| .map <| .ite (.ok _) <| .ite (.ok _) <| .ite (.ok _) <| .ite (.ok _) <|
    .ite (.ok _) <| .ite (.ok _) <| .ite (dot_worded _) <| .ite (.ok _) <| .ite (.ok _) <|
    .ite (.ok _) <| .ite (.ok _) <| .ite (operator_worded _) <| FailsOnly.error.2 trivial

theorem plain_worded : FailsOnly Failure.Worded (d.plain rows x) := by
  unfold plain
  split
  · exact .ok _
  · exact .ok _
  · exact FailsOnly.error.2 trivial
  · exact FailsOnly.error.2 trivial
  · exact .ok _
  · exact .ok _
  · exact .ok _
  · exact name_worded
  · exact .ok _
  · exact .ok _
  · exact .ok _
  · exact FailsOnly.error.2 trivial
  · exact FailsOnly.error.2 trivial
  · exact op_worded

theorem take_worded : FailsOnly Failure.Worded (d.take rows x) := by
  unfold take
  split
  · exact plain_worded
  · unfold inLambda
    split
    · exact FailsOnly.error.2 trivial
    · exact FailsOnly.error.2 trivial
    · split
      · exact plain_worded
      · exact .ok _
  · unfold inFString
    split
    · exact FailsOnly.error.2 trivial
    · exact FailsOnly.error.2 trivial
    · exact .ok _
    · split <;> exact .ok _
    · exact .ok _
  · exact .ok _

end Draft

theorem readWithin_worded (n : Nat) :
    ∀ (s : Scan) (d : Draft), FailsOnly Failure.Worded (readWithin n s d).1 := by
  induction n with
  | zero => exact fun s d ↦ FailsOnly.error.2 trivial
  | succ n ih =>
    intro s d
    rw [readWithin]
    dsimp only
    have htake : FailsOnly Failure.Worded (d.take s.next.2.rows s.next.1) := Draft.take_worded
    split
    · rename_i failure hfail
      exact FailsOnly.error.2 (htake failure hfail)
    · split
      · exact .ok _
      · exact ih _ _

theorem read_worded (source : Source) (first : Nat) :
    FailsOnly Failure.Worded (read source first).1 :=
  readWithin_worded ((Scan.start source first).weight + 1) _ _

/-! ### Filling in a header -/

theorem places_worded (depth : Nat) (ts : List Token) : FailsOnly Fault.Worded (places depth ts) := by
  fun_induction places depth ts with
  | case1 => exact .ok _
  | case2 => exact FailsOnly.error.2 trivial
  | case3 _ _ _ _ _ ih => exact ih
  | case4 => exact .ok _
  | case5 _ _ _ _ _ _ _ ih => exact ih
  | case6 _ _ _ _ _ _ _ ih => exact ih.bind fun _ ↦ .ok _
  | case7 _ _ _ _ _ _ _ _ ih => exact ih.bind fun _ ↦ .ok _
  | case8 _ _ _ _ _ _ _ _ ih => exact ih

namespace Filling

variable {types : Types} {f : Filling}

theorem inferred_worded (modules : Modules) (tokens : List Token) :
    FailsOnly Fault.Worded (inferred modules tokens) :=
  FailsOnly.map (TypeExpr.readWhole_worded tokens)

theorem copyOpening_worded (seenDef : Bool) (out : Text) (ts : List Token) :
    FailsOnly Fault.Worded (copyOpening seenDef out ts) := by
  fun_induction copyOpening seenDef out ts with
  | case1 => exact FailsOnly.error.2 trivial
  | case2 => exact FailsOnly.error.2 trivial
  | case3 _ _ _ _ _ _ ih => exact ih
  | case4 => exact .ok _
  | case5 _ _ _ _ _ _ _ ih => exact ih

theorem copy_worded (openers : List Text) (out : Text) (ts : List Token) :
    FailsOnly Fault.Worded (copy openers out ts) := by
  fun_induction copy openers out ts with
  | case1 => exact FailsOnly.error.2 trivial
  | case2 => exact .ok _
  | case3 => exact FailsOnly.error.2 trivial
  | case4 _ _ _ _ _ _ _ _ ih => exact ih

theorem renderOrCopy_worded (reader : Reader Text) : FailsOnly Fault.Worded (f.renderOrCopy reader) := by
  have hcopied : FailsOnly Fault.Worded
      (copy [] f.out f.rest >>= fun p ↦ .ok { f with rest := p.1, out := p.2 }) :=
    (copy_worded [] f.out f.rest).bind fun _ ↦ .ok _
  unfold renderOrCopy
  dsimp only
  split
  · exact hcopied
  · exact FailsOnly.error.2 trivial
  · split
    · exact .ok _
    · exact hcopied

theorem fillType_worded (name : Text) (skip : Bool) :
    FailsOnly Fault.Worded (fillType types name skip f) := by
  unfold fillType
  split
  · exact FailsOnly.error.2 trivial
  split
  · exact (renderOrCopy_worded _).bind fun _ ↦ .ok _
  split
  · exact .ok _
  split
  · exact FailsOnly.error.2 trivial
  · exact (inferred_worded _ _).bind fun _ ↦ .ok _

theorem fillDefault_worded : FailsOnly Fault.Worded (fillDefault f) := by
  unfold fillDefault
  split
  · exact FailsOnly.error.2 trivial
  split
  · unfold writeDefault
    split
    · exact FailsOnly.error.2 trivial
    · split <;> exact renderOrCopy_worded _
  · exact .ok _

theorem fillArguments_worded (n : Nat) :
    ∀ (skips : List Bool) (f : Filling), FailsOnly Fault.Worded (fillArguments types n skips f) := by
  induction n with
  | zero => exact fun _ _ ↦ FailsOnly.error.2 trivial
  | succ n ih =>
    intro skips f
    rw [fillArguments]
    split
    · exact FailsOnly.error.2 trivial
    split
    · exact FailsOnly.error.2 trivial
    split
    · exact ((fillType_worded _ _).bind fun _ ↦ fillDefault_worded).bind fun _ ↦ ih _ _
    dsimp only
    split
    · exact .ok _
    · exact ih _ _

theorem copyRest_worded (out : Text) (ts : List Token) : FailsOnly Fault.Worded (copyRest out ts) := by
  fun_induction copyRest out ts with
  | case1 => exact FailsOnly.error.2 trivial
  | case2 => exact .ok _
  | case3 _ _ _ _ ih => exact ih

theorem finish_worded (out : Text) (ts : List Token) : FailsOnly Fault.Worded (finish types out ts) := by
  fun_induction finish types out ts with
  | case1 => exact FailsOnly.error.2 trivial
  | case2 => exact (inferred_worded _ _).bind fun _ ↦ copyRest_worded _ _
  | case3 => exact (renderOrCopy_worded _).bind fun _ ↦ copyRest_worded _ _
  | case4 _ _ _ _ _ _ ih => exact ih
  | case5 => exact FailsOnly.error.2 trivial

end Filling

theorem fill_worded (types : Types) (ts : List Token) : FailsOnly Fault.Worded (fill types ts) :=
  (Filling.copyOpening_worded _ _ _).bind fun _ ↦ (places_worded _ _).bind fun _ ↦
    (Filling.fillArguments_worded _ _ _).bind fun _ ↦ Filling.finish_worded _ _

end Header

namespace Suggestion

theorem types_worded (s : Suggestion) : FailsOnly Fault.Worded s.types :=
  (FailsOnly.mapM TypeExpr.lex_worded _).bind fun _ ↦ (TypeExpr.lex_worded _).bind fun _ ↦ .ok _

/-- **No failure is described in words of its own.** -/
theorem fill_worded (s : Suggestion) (source : Source) : FailsOnly Fault.Worded (s.fill source).1 := by
  unfold fill
  split
  · rename_i failure _ hread
    have hworded := Header.read_worded source s.line failure (by rw [hread])
    exact FailsOnly.error.2 hworded
  · exact s.types_worded.bind fun _ ↦ (Header.fill_worded _ _).bind fun _ ↦ .ok _

/-- **Complaints are one line.** Where a header cannot be filled in, the message has no line end, whatever it
quotes. If the lead of comments has none, the suggestion is turned into a single line: the spaces that its row
starts with, the lead, the marker and the message. -/
theorem complaint_on_one_line (s : Suggestion) :
    (∀ (source : Source) (fault : Fault), (s.fill source).1 = .error fault → OneLine fault.message) ∧
    ∀ (d : Document) (style : Style) (fault : Fault), (s.fill d.source).1 = .error fault →
      OneLine style.commentLead →
      ∃ indent rest text, d.getD s.line [] = List.replicate indent ' ' ++ rest ∧ rest.head? ≠ some ' ' ∧
        text = List.replicate indent ' ' ++ style.commentLead ++ complaintMarker ++ fault.message ∧
        s.proposal? d style = some ⟨text, 1⟩ ∧ OneLine text := by
  have hmessage : ∀ (source : Source) (fault : Fault), (s.fill source).1 = .error fault →
      OneLine fault.message := fun source fault hfail ↦
    Fault.oneLine_message (s.fill_worded source fault hfail)
  refine ⟨hmessage, fun d style fault hfail hlead ↦ ?_⟩
  set row := d.getD s.line []
  have hspace : ∀ c ∈ row.takeWhile (· = ' '), c = ' ' := fun c hc ↦ by
    simpa using List.mem_takeWhile_imp hc
  obtain ⟨indent, hindent⟩ : ∃ indent, row.takeWhile (· = ' ') = List.replicate indent ' ' :=
    ⟨_, List.eq_replicate_iff.2 ⟨rfl, hspace⟩⟩
  have hspaces : OneLine (List.replicate indent ' ') := by
    intro c hc
    rw [List.eq_of_mem_replicate hc]
    decide
  have hmarker : OneLine complaintMarker := by decide
  refine ⟨indent, row.dropWhile (· = ' '), _, ?_, ?_, rfl, ?_, ?_⟩
  · rw [← hindent]
    exact List.takeWhile_append_dropWhile.symm
  · intro hhead
    have hnot := List.head?_dropWhile_not (· = ' ') row
    rw [hhead] at hnot
    exact absurd hnot (by simp)
  · rw [← hindent, proposal?, hfail]
    rfl
  · simp only [oneLine_append]
    exact ⟨⟨⟨hspaces, hlead⟩, hmarker⟩, hmessage _ _ hfail⟩

/-- The return type holds a line feed, which the message quotes. -/
theorem complaint_on_one_line_quoting :
    (fill ⟨none, 0, none, 0, [], "int\n; x = 1".toList⟩
        (Document.ofText "  def f(): pass\n".toList).source).1 =
      .error (.unreadableType "; x = 1".toList "int\n; x = 1".toList) ∧
    ∃ text, proposal? ⟨none, 0, none, 0, [], "int\n; x = 1".toList⟩
        (Document.ofText "  def f(): pass\n".toList) {} = some ⟨text, 1⟩ ∧ OneLine text := by
  have hfail : (fill ⟨none, 0, none, 0, [], "int\n; x = 1".toList⟩
        (Document.ofText "  def f(): pass\n".toList).source).1 =
      .error (.unreadableType "; x = 1".toList "int\n; x = 1".toList) := by rfl
  obtain ⟨-, -, text, -, -, -, hproposal, htext⟩ :=
    (complaint_on_one_line ⟨none, 0, none, 0, [], "int\n; x = 1".toList⟩).2 _ {} _ hfail (by decide)
  exact ⟨hfail, text, hproposal, htext⟩

end Suggestion

end HeaderHints
