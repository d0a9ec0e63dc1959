import Mathlib.Tactic.Common
import HeaderHints.TypeExpr.Reader

/-!
# Computations that succeed

What is known of a computation that may fail when it does not: the steps that it is made of have
succeeded. `Reader.Takes` is this for readers, with the tokens that are left over.
-/

namespace HeaderHints

/-! ### Computations that may fail -/

theorem map_eq_ok {ε α β : Type} {f : α → β} {r : Except ε α} {b : β} :
    f <$> r = .ok b ↔ ∃ a, r = .ok a ∧ f a = b := by
  cases r <;> simp [Functor.map, Except.map]

theorem bind_eq_ok {ε α β : Type} {r : Except ε α} {f : α → Except ε β} {b : β} :
    r >>= f = .ok b ↔ ∃ a, r = .ok a ∧ f a = .ok b := by
  cases r <;> simp [bind, Except.bind]

theorem eq_ok_of_toOption {ε α : Type} {r : Except ε α} {a : α} (h : r.toOption = some a) :
    r = .ok a := by
  cases r with
  | error _ => exact absurd h (by simp [Except.toOption])
  | ok b => exact congrArg _ (Option.some.inj h)

/-! ### Readers -/

namespace Reader

variable {α β : Type} {ts rest : List Token}

/-- A reader takes `a` off the front of `ts` and leaves `rest`. -/
def Takes (r : Reader α) (ts : List Token) (a : α) (rest : List Token) : Prop :=
  r.run.run ts = (.ok a, rest)

theorem takes_pure {a b : α} : Takes (pure a) ts b rest ↔ b = a ∧ rest = ts := by
  show ((Except.ok a : Except Fault α), ts) = (.ok b, rest) ↔ _
  simp only [Prod.mk.injEq, Except.ok.injEq]
  exact ⟨fun h ↦ ⟨h.1.symm, h.2.symm⟩, fun h ↦ ⟨h.1.symm, h.2.symm⟩⟩

theorem takes_throw {fault : Fault} {b : α} : ¬ Takes (throw fault) ts b rest := by
  show ¬ ((Except.error fault : Except Fault α), ts) = (.ok b, rest)
  simp

/-- **Readers in sequence**: the second starts where the first stopped. -/
theorem takes_bind {r : Reader α} {f : α → Reader β} {b : β} :
    Takes (r >>= f) ts b rest ↔ ∃ a mid, Takes r ts a mid ∧ Takes (f a) mid b rest := by
  have hrun : (r >>= f).run.run ts =
      (ExceptT.bindCont f (r.run.run ts).1).run (r.run.run ts).2 := rfl
  unfold Takes
  rw [hrun]
  rcases r.run.run ts with ⟨fault | a, mid⟩
  · constructor
    · intro h
      have hfails : Except.error fault = Except.ok b := congrArg Prod.fst h
      exact absurd hfails (by simp)
    · rintro ⟨a, mid', h, -⟩
      exact absurd (congrArg Prod.fst h) (by simp)
  · constructor
    · exact fun h ↦ ⟨a, mid, rfl, h⟩
    · rintro ⟨a', mid', h, hf⟩
      obtain ⟨ha, rfl⟩ := Prod.mk.inj h
      obtain rfl := Except.ok.inj ha
      exact hf

theorem takes_map {r : Reader α} {f : α → β} {b : β} :
    Takes (f <$> r) ts b rest ↔ ∃ a, Takes r ts a rest ∧ f a = b := by
  rw [map_eq_pure_bind, takes_bind]
  simp only [takes_pure]
  exact ⟨fun ⟨a, mid, h, hb, hmid⟩ ↦ ⟨a, hmid ▸ h, hb.symm⟩,
    fun ⟨a, h, hb⟩ ↦ ⟨a, rest, h, hb.symm, rfl⟩⟩

theorem takes_get {s : List Token} : Takes get ts s rest ↔ s = ts ∧ rest = ts := by
  show ((Except.ok ts : Except Fault (List Token)), ts) = (.ok s, rest) ↔ _
  simp only [Prod.mk.injEq, Except.ok.injEq]
  exact ⟨fun h ↦ ⟨h.1.symm, h.2.symm⟩, fun h ↦ ⟨h.1.symm, h.2.symm⟩⟩

theorem takes_peekText {text : Text} :
    Takes peekText ts text rest ↔ ∃ t more, ts = t :: more ∧ t.text = text ∧ rest = ts := by
  cases ts with
  | nil =>
    show ((Except.error .ranOut : Except Fault Text), []) = (.ok text, rest) ↔ _
    simp
  | cons t more =>
    show ((Except.ok t.text : Except Fault Text), t :: more) = (.ok text, rest) ↔ _
    simp [eq_comm]

theorem takes_next {t : Token} : Takes next ts t rest ↔ ts = t :: rest := by
  cases ts with
  | nil =>
    show ((Except.error .ranOut : Except Fault Token), []) = (.ok t, rest) ↔ _
    simp
  | cons t' more =>
    show ((Except.ok t' : Except Fault Token), more) = (.ok t, rest) ↔ _
    simp

theorem takes_expect {wanted : Text} {u : Unit} :
    Takes (expect wanted) ts u rest ↔ ∃ t, ts = t :: rest ∧ t.text = wanted := by
  unfold expect
  rw [takes_bind]
  simp only [takes_next]
  constructor
  · rintro ⟨t, mid, rfl, h⟩
    split at h
    · rename_i htext
      obtain ⟨-, rfl⟩ := takes_pure.1 h
      exact ⟨t, rfl, htext⟩
    · exact absurd h takes_throw
  · rintro ⟨t, rfl, htext⟩
    refine ⟨t, rest, rfl, ?_⟩
    rw [if_pos htext]
    exact takes_pure.2 ⟨rfl, rfl⟩

theorem takes_expectKind {wanted : List Token.Kind} {t : Token} :
    Takes (expectKind wanted) ts t rest ↔ ts = t :: rest ∧ wanted.any t.isA = true := by
  unfold expectKind
  rw [takes_bind]
  simp only [takes_next]
  constructor
  · rintro ⟨t', mid, rfl, h⟩
    split at h
    · rename_i hkind
      obtain ⟨rfl, rfl⟩ := takes_pure.1 h
      exact ⟨rfl, hkind⟩
    · exact absurd h takes_throw
  · rintro ⟨rfl, hkind⟩
    refine ⟨t, rest, rfl, ?_⟩
    rw [if_pos hkind]
    exact takes_pure.2 ⟨rfl, rfl⟩

end Reader

end HeaderHints
