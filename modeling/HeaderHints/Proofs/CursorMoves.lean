import HeaderHints.Proofs.NestedReaders

/-!
# Moves of a cursor

A cursor moves forward over the tokens that a reader takes and never leaves its list, whatever the tokens are
and whether the reader succeeds (`Cursor.Moves`). A reader that succeeds moves it on by a token at least
(`Cursor.MovesOn`), lists of items apart, which may be empty. An `Operation` is anything that can be done with a
cursor. None of them takes it out of the list (`Cursor.perform_inside`), as long as it is only set to positions
within the list.
-/

namespace HeaderHints

namespace Cursor

variable {α : Type} {c : Cursor} {r : Reader α}

/-- The cursor is within its list. -/
def Inside (c : Cursor) : Prop :=
  c.position ≤ c.tokens.length

instance : Decidable c.Inside :=
  inferInstanceAs (Decidable (c.position ≤ c.tokens.length))

/-! ### Moves over tokens -/

/-- The cursor moves over the tokens that the reader takes, stays within its list, and does not move back. -/
structure Moves (c : Cursor) (r : Reader α) : Prop where
  tokens : (c.run r).2.tokens = c.tokens
  rest : (c.run r).2.rest = (r.run.run c.rest).2
  forward : c.position ≤ (c.run r).2.position
  inside : (c.run r).2.Inside

/-- A reader that succeeds moves the cursor by at least one token. -/
structure MovesOn (c : Cursor) (r : Reader α) : Prop extends c.Moves r where
  onward : ∀ a, (c.run r).1 = .ok a → c.position < (c.run r).2.position

theorem length_rest : c.rest.length = c.tokens.length - c.position :=
  List.length_drop

theorem run_position : (c.run r).2.position = c.tokens.length - (r.run.run c.rest).2.length :=
  rfl

/-- The tokens that are left over are those behind the position that the cursor has got to. -/
theorem moves_of_advances (hr : r.Advances) (hc : c.Inside) : c.Moves r := by
  have hsuffix := hr c.rest
  have hlen := hsuffix.length_le
  rw [length_rest] at hlen
  have hinside : c.position ≤ c.tokens.length := hc
  refine ⟨rfl, ?_, ?_, Nat.sub_le _ _⟩
  · exact (List.suffix_iff_eq_drop.1 (hsuffix.trans (List.drop_suffix _ _))).symm
  · rw [run_position]
    omega

theorem movesOn_of_consumes (hr : r.Advances) (hconsumes : r.Consumes) (hc : c.Inside) :
    c.MovesOn r := by
  refine ⟨moves_of_advances hr hc, fun a ha ↦ ?_⟩
  have hlt := hconsumes c.rest a (r.run.run c.rest).2 (Prod.ext ha rfl)
  rw [length_rest] at hlt
  have hinside : c.position ≤ c.tokens.length := hc
  rw [run_position]
  omega

/-! ### Operations -/

/-- What can be done with a cursor. -/
inductive Operation where
  | peek
  | next
  | peekText
  | expect (wanted : Text)
  | expectKind (wanted : List Token.Kind)
  | atEnd
  | back
  | moveTo (position : Nat)
  | readLambdaBody
  | readSingle
  | readItems
  | readChoices
  | readType
  | readWhole
  | readCollection

/-- The cursor after an operation. -/
def perform (c : Cursor) : Operation → Cursor
  | .peek => (c.run Reader.peek).2
  | .next => (c.run Reader.next).2
  | .peekText => (c.run Reader.peekText).2
  | .expect wanted => (c.run (Reader.expect wanted)).2
  | .expectKind wanted => (c.run (Reader.expectKind wanted)).2
  | .atEnd => (c.run Reader.atEnd).2
  | .back => c.back
  | .moveTo position => c.moveTo position
  | .readLambdaBody => (c.run TypeExpr.readLambdaBody).2
  | .readSingle => (c.run TypeExpr.readSingle).2
  | .readItems => (c.run TypeExpr.readItems).2
  | .readChoices => (c.run TypeExpr.readChoices).2
  | .readType => (c.run TypeExpr.read).2
  | .readWhole => (c.run TypeExpr.readWhole).2
  | .readCollection => (c.run Collection.read).2

theorem Moves.stays (h : c.Moves r) : (c.run r).2.tokens = c.tokens ∧ (c.run r).2.Inside :=
  ⟨h.tokens, h.inside⟩

/-- One operation leaves the cursor within its list. -/
theorem perform_inside (hc : c.Inside) {op : Operation} (hop : ∀ p, op = .moveTo p → p ≤ c.tokens.length) :
    (c.perform op).tokens = c.tokens ∧ (c.perform op).Inside := by
  have hmoves : ∀ {α : Type} {r : Reader α}, r.Advances →
      (c.run r).2.tokens = c.tokens ∧ (c.run r).2.Inside := fun hr ↦ (moves_of_advances hr hc).stays
  cases op with
  | peek => exact hmoves Reader.advances_peek
  | next => exact hmoves Reader.advances_next
  | peekText => exact hmoves Reader.advances_peekText
  | expect wanted => exact hmoves Reader.advances_expect
  | expectKind wanted => exact hmoves Reader.advances_expectKind
  | atEnd => exact hmoves Reader.advances_atEnd
  | back => exact ⟨rfl, Nat.le_trans (Nat.sub_le _ _) hc⟩
  | moveTo p => exact ⟨rfl, hop p rfl⟩
  | readLambdaBody => exact hmoves TypeExpr.Readers.advances_readLambdaBody
  | readSingle => exact hmoves TypeExpr.advances_readSingle
  | readItems => exact hmoves TypeExpr.advances_readItems
  | readChoices => exact hmoves TypeExpr.advances_readChoices
  | readType => exact hmoves TypeExpr.advances_read
  | readWhole => exact hmoves TypeExpr.advances_readWhole
  | readCollection => exact hmoves Collection.advances_read

/-- Any number of operations leave the cursor within its list. -/
theorem foldl_perform_inside (hc : c.Inside) {ops : List Operation}
    (hops : ∀ p, .moveTo p ∈ ops → p ≤ c.tokens.length) :
    (ops.foldl perform c).tokens = c.tokens ∧ (ops.foldl perform c).Inside := by
  induction ops generalizing c with
  | nil => exact ⟨rfl, hc⟩
  | cons op ops ih =>
    obtain ⟨htokens, hinside⟩ := perform_inside hc fun p hp ↦ hops p (hp ▸ List.mem_cons_self)
    rw [List.foldl_cons, ← htokens]
    exact ih hinside fun p hp ↦ htokens ▸ hops p (List.mem_cons_of_mem _ hp)

/-- **Reading ends, goes forward, and stays within the list.** The calls of the readers are nested at most four
deep for each token, and four more, and the rounds for the items of a collection are at most one more than the
tokens; what calls further in would do makes no difference. -/
theorem reads_forward (hc : c.Inside) :
    (∀ ts n, 4 * ts.length + 4 ≤ n → TypeExpr.EndsWithin n ts) ∧
    (∀ closing pairs deeper ts n, ts.length + 1 ≤ n →
      (Collection.nestedItems closing pairs deeper n).run.run ts =
        (Collection.readItemsWithin closing pairs (ts.length + 1)).run.run ts) ∧
    c.MovesOn TypeExpr.readSingle ∧ c.MovesOn TypeExpr.read ∧ c.MovesOn TypeExpr.readChoices ∧
    c.Moves TypeExpr.readItems ∧ c.MovesOn TypeExpr.readWhole ∧ c.MovesOn Collection.read ∧
    ∀ ops : List Operation, (∀ p, .moveTo p ∈ ops → p ≤ c.tokens.length) →
      (ops.foldl perform c).tokens = c.tokens ∧ (ops.foldl perform c).Inside := by
  refine ⟨fun ts n hn ↦ TypeExpr.endsWithin hn, fun closing pairs deeper ts n hn ↦ ?_, ?_, ?_, ?_, ?_, ?_, ?_,
    fun ops hops ↦ foldl_perform_inside hc hops⟩
  · exact Collection.nestedItems_eq (Nat.lt_succ_self _) hn
  · exact movesOn_of_consumes TypeExpr.advances_readSingle TypeExpr.consumes_readSingle hc
  · exact movesOn_of_consumes TypeExpr.advances_read TypeExpr.consumes_read hc
  · exact movesOn_of_consumes TypeExpr.advances_readChoices TypeExpr.consumes_readChoices hc
  · exact moves_of_advances TypeExpr.advances_readItems hc
  · exact movesOn_of_consumes TypeExpr.advances_readWhole TypeExpr.consumes_readWhole hc
  · exact movesOn_of_consumes Collection.advances_read Collection.consumes_read hc

/-- A cursor between stray brackets, without an end token: a union is read, and a list of items fails behind it. -/
theorem reads_forward_stray :
    let c : Cursor := ⟨[⟨.endSeparator, [')']⟩, ⟨.dottedName, ['a']⟩, ⟨.separator, ['|']⟩, ⟨.dottedName, ['b']⟩,
      ⟨.separator, ['\x7d']⟩], 1⟩
    c.Inside ∧ c.MovesOn TypeExpr.readChoices ∧ (c.run TypeExpr.readChoices).2.position = 4 ∧
      c.Moves TypeExpr.readItems ∧ (c.run TypeExpr.readItems).1 = .error (.expectedListEnd ['\x7d']) ∧
      ([.readChoices, .next, .next, .back, .moveTo 5, .readCollection].foldl perform c).Inside := by
  intro c
  have hc : c.Inside := by decide
  obtain ⟨-, -, -, -, hchoices, hitems, -, -, hops⟩ := reads_forward hc
  refine ⟨hc, hchoices, by rfl, hitems, by rfl, (hops _ fun p hp ↦ ?_).2⟩
  obtain rfl : p = 5 := by simpa using hp
  exact Nat.le_refl _

end Cursor

end HeaderHints
