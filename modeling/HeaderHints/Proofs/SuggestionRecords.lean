import Mathlib.Logic.Relation
import HeaderHints.Proofs.JsonTexts
import HeaderHints.Suggestion.Json

/-!
# Suggestions as JSON records

What is written for a list of suggestions is a JSON text of their records, and the records are read back as the
suggestions (`Suggestion.decode_encode`). The names of the function and the file are left out where they are not
known, which is what their absence is read as.

A record may be written otherwise. `SameRecord` lets the fields of a record and of the signature in it come in any
order, with further fields of other names among them. That makes no difference to what is read.
-/

namespace HeaderHints

namespace Json

variable {t : Text} {v : Json}

/-! ### Written texts -/

theorem unit?_control : ∀ n < 0x20, unit? '0' '0' (Nat.digitChar (n / 16)) (Nat.digitChar (n % 16)) = some n := by
  decide

/-- A character as it is written in a literal. -/
theorem Literal.escaped {text? : Option Text} (h : Literal t text?) (c : Char) :
    Literal (escaped c ++ t) (text?.map (c :: ·)) := by
  unfold Json.escaped
  split_ifs with h₁ h₂ h₃ h₄ h₅ h₆ h₇ h₈
  · rw [h₁]
    exact .short rfl h
  · rw [h₂]
    exact .short rfl h
  · rw [h₃]
    exact .short rfl h
  · rw [h₄]
    exact .short rfl h
  · rw [h₅]
    exact .short rfl h
  · rw [h₆]
    exact .short rfl h
  · rw [h₇]
    exact .short rfl h
  · have hunit := Literal.unit (unit?_control c.toNat h₈) (by simp [isHigh]; omega) (by simp [isLow]; omega) h
    rwa [Char.ofNat_toNat] at hunit
  · exact .plain (Nat.not_lt.1 h₈) h₁ h₂ h

theorem literal_flatMap (t : Text) : Literal (t.flatMap escaped) (some t) := by
  induction t with
  | nil => exact .nil
  | cons c t ih => exact ih.escaped c

theorem spells_writeString (t : Text) : Spells (writeString t) (string (some t)) :=
  .string (literal_flatMap t)

theorem value_write (n : Nat) : Decimal.value (Decimal.write n) = n := by
  have hfold : ∀ t, Decimal.value t = Nat.ofDigitChars 10 t 0 := fun t ↦ by
    rw [Nat.ofDigitChars_eq_foldl]
    simp only [Decimal.value, Nat.mul_comm]
  rw [hfold]
  exact Nat.ofDigitChars_toDigits (by decide) (by decide)

theorem toDigits_head {n : Nat} (hn : n ≠ 0) : (Nat.toDigits 10 n).head? ≠ some '0' := by
  induction n using Nat.strongRecOn with
  | ind n ih =>
    by_cases hlt : n < 10
    · rw [Nat.toDigits_of_lt_base hlt]
      simpa using hn
    · rw [Nat.toDigits_of_base_le (by decide) (Nat.not_lt.1 hlt),
        List.head?_append]
      have hhead := ih (n / 10) (by omega) (by omega)
      obtain ⟨c, t, ht⟩ := List.exists_cons_of_ne_nil (Nat.toDigits_ne_nil (n := n / 10) (b := 10))
      rwa [ht] at hhead ⊢

theorem whole_write (n : Nat) : Whole (Decimal.write n) := by
  by_cases hn : n = 0
  · rw [hn]
    exact .zero
  · obtain ⟨c, t, ht⟩ := List.exists_cons_of_ne_nil (Nat.toDigits_ne_nil (n := n) (b := 10))
    rw [show Decimal.write n = c :: t from ht]
    refine .digits ?_ ⟨List.cons_ne_nil _ _, fun d hd ↦ ?_⟩
    · rintro rfl
      exact toDigits_head hn (by rw [ht]; rfl)
    · exact Nat.isDigit_of_mem_toDigits (b := 10) (n := n) (by decide) (by decide) (ht ▸ hd)

theorem spells_write {n : Nat} (hn : n < Decimal.wordSize) : Spells (Decimal.write n) (number (some n)) := by
  have hnatural := Numeral.natural (whole_write n) (by rwa [value_write])
  rw [value_write] at hnatural
  exact .number hnatural

theorem blank_nil : Blank [] :=
  fun _ h ↦ absurd h List.not_mem_nil

theorem spells_writeArray (parts : List (Text × Json)) (h : ∀ p ∈ parts, Spells p.1 p.2) :
    Spells (writeArray (parts.map Prod.fst)) (array (parts.map Prod.snd)) := by
  by_cases hne : parts = []
  · rw [hne]
    exact .emptyArray blank_nil
  · exact .array hne h

theorem spells_writeObject (parts : List (Text × Text × Json)) (hne : parts ≠ [])
    (h : ∀ p ∈ parts, Spells p.2.1 p.2.2) :
    Spells (writeObject (parts.map fun p ↦ (p.1, p.2.1))) (object (parts.map fun p ↦ (some p.1, p.2.2))) := by
  have hspells := @Spells.object (parts.map fun p ↦ ((writeString p.1, some p.1), p.2)) ?_ ?_ ?_
  · simpa [writeObject, fieldText, Function.comp_def] using hspells
  · rwa [ne_eq, List.map_eq_nil_iff]
  · intro q hq
    obtain ⟨p, -, rfl⟩ := List.mem_map.1 hq
    exact .mk blank_nil (literal_flatMap p.1) blank_nil
  · intro q hq
    obtain ⟨p, hp, rfl⟩ := List.mem_map.1 hq
    exact h p hp

/-! ### Fields in another order, and further fields -/

/-- One change to the fields of an object that leaves the fields called `names` as they are. -/
inductive Rearranges (names : List Text) : List (Option Text × Json) → List (Option Text × Json) → Prop
  | order {fields fields' : List (Option Text × Json)} : fields.Perm fields' → Rearranges names fields fields'
  | unknown {fields : List (Option Text × Json)} (name : Text) (value : Json) : name ∉ names →
      Rearranges names fields ((some name, value) :: fields)

variable {names : List Text} {fields fields' before after : List (Option Text × Json)} {key : Text} {x y : Json}

/-- The value of the field in a list of at most one. -/
def onlyValue? : List (Option Text × Json) → Option (Option Json)
  | [] => some none
  | [(_, value)] => some (some value)
  | _ => none

theorem field?_eq : field? fields key = onlyValue? (fields.filter fun f ↦ f.1 = some key) :=
  rfl

theorem onlyValue?_perm (h : fields.Perm fields') : onlyValue? fields = onlyValue? fields' := by
  rcases fields with - | ⟨f, - | ⟨g, fields⟩⟩
  · rw [h.nil_eq]
  · rw [List.singleton_perm.1 h]
  · -- two fields of one name are a failure in any order
    have hlen := h.length_eq
    rcases fields' with - | ⟨f', - | ⟨g', fields'⟩⟩
    · exact absurd hlen (by simp)
    · exact absurd hlen (by simp)
    · rfl

theorem Rearranges.field? (h : Rearranges names fields fields') (key : Text) (hkey : key ∈ names) :
    field? fields key = field? fields' key := by
  rw [field?_eq, field?_eq]
  cases h with
  | order hperm => exact onlyValue?_perm (hperm.filter _)
  | unknown name _ hname =>
    have hne : name ≠ key := fun h ↦ hname (h ▸ hkey)
    rw [List.filter_cons_of_neg (by simpa using hne)]

theorem Rearranges.all (h : Rearranges names fields fields') :
    fields.all (·.1.isSome) = fields'.all (·.1.isSome) := by
  cases h with
  | order hperm => exact hperm.all_eq
  | unknown _ _ _ => rfl

/-- The names of the fields of a signature. -/
def signatureNames : List Text :=
  ["arg_types".toList, "return_type".toList]

/-- The names of the fields of a record. -/
def recordNames : List Text :=
  ["func_name".toList, "line".toList, "path".toList, "samples".toList, "signature".toList]

/-- One change to a record: its fields, or those of the signature in it, come in another order or get a further
field. -/
inductive RecordEdit : Json → Json → Prop
  | fields {fields fields' : List (Option Text × Json)} : Rearranges recordNames fields fields' →
      RecordEdit (object fields) (object fields')
  | signature (before after : List (Option Text × Json)) {fields fields' : List (Option Text × Json)} :
      Rearranges signatureNames fields fields' →
      RecordEdit (object (before ++ (some "signature".toList, object fields) :: after))
        (object (before ++ (some "signature".toList, object fields') :: after))
  /-- A record that is written as the array of its fields. -/
  | listed {funcName line path samples : Json} {fields fields' : List (Option Text × Json)} :
      Rearranges signatureNames fields fields' →
      RecordEdit (array [funcName, line, path, samples, object fields])
        (array [funcName, line, path, samples, object fields'])

/-- Two records differ by any number of such changes. -/
def SameRecord : Json → Json → Prop :=
  Relation.EqvGen RecordEdit

theorem toSignature?_rearranges (h : Rearranges signatureNames fields fields') :
    toSignature? (object fields) = toSignature? (object fields') := by
  have hargs := h.field? "arg_types".toList (by decide)
  have hresult := h.field? "return_type".toList (by decide)
  simp only [toSignature?, field, h.all, hargs, hresult]

/-- What a record is read as depends on its fields by their names. -/
theorem toSuggestion?_congr (hall : fields.all (·.1.isSome) = fields'.all (·.1.isSome))
    (hfields : ∀ key ∈ recordNames, key ≠ "signature".toList → field? fields key = field? fields' key)
    (hsignature : (field fields "signature".toList).bind toSignature? =
      (field fields' "signature".toList).bind toSignature?) :
    toSuggestion? (object fields) = toSuggestion? (object fields') := by
  have hname := hfields "func_name".toList (by decide) (by decide)
  have hline := hfields "line".toList (by decide) (by decide)
  have hpath := hfields "path".toList (by decide) (by decide)
  have hsamples := hfields "samples".toList (by decide) (by decide)
  have hbind : ∀ {β : Type} (fs : List (Option Text × Json)) (f : Signature → Option β),
      (field fs "signature".toList).bind (fun sig ↦ (toSignature? sig).bind f) =
        ((field fs "signature".toList).bind toSignature?).bind f := fun _ _ ↦ (Option.bind_assoc _ _ _).symm
  have hline' : field fields "line".toList = field fields' "line".toList := by rw [field, field, hline]
  simp only [toSuggestion?, hall, hname, hline', hpath, hsamples, Option.bind_eq_bind, hbind, hsignature]

/-- The field `key` does not depend on the value of another field. -/
theorem field?_of_ne {name : Text} (hne : name ≠ key) :
    field? (before ++ (some name, x) :: after) key = field? (before ++ (some name, y) :: after) key := by
  rw [field?_eq, field?_eq, List.filter_append, List.filter_append, List.filter_cons_of_neg (by simpa using hne),
    List.filter_cons_of_neg (by simpa using hne)]

theorem field_bind_congr {α : Type} {f : Json → Option α} (h : f x = f y) :
    (field (before ++ (some key, x) :: after) key).bind f =
      (field (before ++ (some key, y) :: after) key).bind f := by
  rw [field, field, field?_eq, field?_eq, List.filter_append, List.filter_append, List.filter_cons_of_pos (by simp),
    List.filter_cons_of_pos (by simp)]
  -- the value counts only where no other field has this name
  rcases before.filter _ with - | ⟨f₁, - | ⟨f₂, l⟩⟩
  · rcases after.filter _ with - | ⟨f₁, l⟩
    · exact h
    · rfl
  · rfl
  · rfl

/-- **One change to a record** makes no difference to the suggestion. -/
theorem toSuggestion?_edit (h : RecordEdit x y) : toSuggestion? x = toSuggestion? y := by
  cases h with
  | fields h =>
    refine toSuggestion?_congr h.all (fun key hkey _ ↦ h.field? key hkey) ?_
    rw [field, field, h.field? _ (by decide)]
  | signature before after h =>
    refine toSuggestion?_congr ?_ (fun key _ hne ↦ field?_of_ne hne.symm)
      (field_bind_congr (toSignature?_rearranges h))
    rw [List.all_append, List.all_append, List.all_cons, List.all_cons]
  | listed h => simp only [toSuggestion?, toSignature?_rearranges h]

theorem toSuggestion?_of_same (h : SameRecord x y) : toSuggestion? x = toSuggestion? y := by
  induction h with
  | rel x y h => exact toSuggestion?_edit h
  | refl x => rfl
  | symm x y _ ih => exact ih.symm
  | trans x y z _ _ ih ih' => exact ih.trans ih'

theorem mapM_of_same {items items' : List Json} (h : List.Forall₂ SameRecord items items') :
    items.mapM toSuggestion? = items'.mapM toSuggestion? := by
  induction h with
  | nil => rfl
  | cons h _ ih => rw [List.mapM_cons, List.mapM_cons, toSuggestion?_of_same h, ih]

end Json

namespace Suggestion

open Json

variable {s : Suggestion} {l : List Suggestion}

/-! ### Records of suggestions -/

/-- The record of a signature. -/
def signatureJson (signature : Signature) : Json :=
  object [(some "arg_types".toList, array (signature.argTypes.map fun t ↦ string (some t))),
    (some "return_type".toList, string (some signature.returnType))]

/-- The record of a suggestion. Names that are not known are left out. -/
def toJson (s : Suggestion) : Json :=
  object <|
    (s.funcName.map fun name ↦ (some "func_name".toList, string (some name))).toList ++
      [(some "line".toList, number (some s.line))] ++
      (s.path.map fun path ↦ (some "path".toList, string (some path))).toList ++
      [(some "samples".toList, number (some s.samples)), (some "signature".toList, signatureJson s.signature)]

theorem toTexts?_map (ts : List Text) : toTexts? (array (ts.map fun t ↦ string (some t))) = some ts := by
  show (ts.map fun t ↦ string (some t)).mapM toText? = some ts
  induction ts with
  | nil => rfl
  | cons t ts ih =>
    rw [List.map_cons, List.mapM_cons, ih]
    rfl

theorem toSignature?_json (signature : Signature) : toSignature? (signatureJson signature) = some signature := by
  show (toTexts? (array (signature.argTypes.map fun t ↦ string (some t)))).bind
    (fun args ↦ some (Signature.mk args signature.returnType)) = _
  rw [toTexts?_map]
  rfl

/-- A record is read as its suggestion. -/
theorem toSuggestion?_toJson (s : Suggestion) : toSuggestion? s.toJson = some s := by
  have hread : toSuggestion? s.toJson = (toSignature? (signatureJson s.signature)).bind fun signature ↦
      some { s with signature := signature } := by
    obtain ⟨funcName, line, path, samples, signature⟩ := s
    cases funcName <;> cases path <;> rfl
  rw [hread, toSignature?_json]
  rfl

theorem mapM_toJson (l : List Suggestion) : (l.map toJson).mapM toSuggestion? = some l := by
  induction l with
  | nil => rfl
  | cons s l ih =>
    rw [List.map_cons, List.mapM_cons, toSuggestion?_toJson, ih]
    rfl

/-! ### Encoding and decoding -/

theorem spells_signature (signature : Signature) :
    Spells (writeObject [("arg_types".toList, writeArray (signature.argTypes.map writeString)),
      ("return_type".toList, writeString signature.returnType)]) (signatureJson signature) := by
  have hargs := spells_writeArray (signature.argTypes.map fun t ↦ (writeString t, string (some t))) (by
    intro p hp
    obtain ⟨t, -, rfl⟩ := List.mem_map.1 hp
    exact spells_writeString t)
  rw [List.map_map, List.map_map] at hargs
  refine spells_writeObject [(_, _, _), (_, _, _)] (List.cons_ne_nil _ _) fun p hp ↦ ?_
  rcases List.mem_cons.1 hp with rfl | hp
  · exact hargs
  · obtain rfl := List.mem_singleton.1 hp
    exact spells_writeString _

/-- The fields of a record as they are written, each with its name and its value. -/
def written (s : Suggestion) : List (Text × Text × Json) :=
  (s.funcName.map fun name ↦ ("func_name".toList, writeString name, string (some name))).toList ++
    [("line".toList, Decimal.write s.line, number (some s.line))] ++
    (s.path.map fun path ↦ ("path".toList, writeString path, string (some path))).toList ++
    [("samples".toList, Decimal.write s.samples, number (some s.samples)),
      ("signature".toList, writeObject
        [("arg_types".toList, writeArray (s.signature.argTypes.map writeString)),
          ("return_type".toList, writeString s.signature.returnType)], signatureJson s.signature)]

theorem encodeOne_eq (s : Suggestion) : s.encodeOne = writeObject (s.written.map fun p ↦ (p.1, p.2.1)) := by
  obtain ⟨funcName, line, path, samples, signature⟩ := s
  cases funcName <;> cases path <;> rfl

theorem toJson_eq (s : Suggestion) : s.toJson = object (s.written.map fun p ↦ (some p.1, p.2.2)) := by
  obtain ⟨funcName, line, path, samples, signature⟩ := s
  cases funcName <;> cases path <;> rfl

theorem spells_written (hline : s.line < Decimal.wordSize) (hsamples : s.samples < Decimal.wordSize) :
    ∀ p ∈ s.written, Spells p.2.1 p.2.2 := by
  have hname : ∀ (key : Text) (name? : Option Text),
      ∀ p ∈ (name?.map fun name ↦ (key, writeString name, string (some name))).toList, Spells p.2.1 p.2.2 := by
    intro key name? p hp
    obtain ⟨name, -, rfl⟩ := Option.map_eq_some_iff.1 (Option.mem_toList.1 hp)
    exact spells_writeString name
  refine List.forall_mem_append.2 ⟨List.forall_mem_append.2 ⟨List.forall_mem_append.2 ⟨hname _ _, ?_⟩,
    hname _ _⟩, ?_⟩
  · exact List.forall_mem_singleton.2 (spells_write hline)
  · exact List.forall_mem_cons.2 ⟨spells_write hsamples, List.forall_mem_singleton.2 (spells_signature s.signature)⟩

theorem spells_encodeOne (hline : s.line < Decimal.wordSize) (hsamples : s.samples < Decimal.wordSize) :
    Spells s.encodeOne s.toJson := by
  rw [encodeOne_eq, toJson_eq]
  exact spells_writeObject s.written (by simp [written]) (spells_written hline hsamples)

theorem spells_encode (h : ∀ s ∈ l, s.line < Decimal.wordSize ∧ s.samples < Decimal.wordSize) :
    Spells (encode l) (array (l.map toJson)) := by
  have hspells := spells_writeArray (l.map fun s ↦ (s.encodeOne, s.toJson)) (by
    intro p hp
    obtain ⟨s, hs, rfl⟩ := List.mem_map.1 hp
    exact spells_encodeOne (h s hs).1 (h s hs).2)
  rwa [List.map_map, List.map_map] at hspells

theorem decode_of_read {t : Text} {items : List Json} (h : Json.read t = some (array items)) :
    decode t = items.mapM toSuggestion? := by
  rw [decode, h]

/-- **Suggestions come back from their text**, also from a text with the fields in another order and with further
fields, and such changes make no difference to any text of records. -/
theorem decode_encode (h : ∀ s ∈ l, s.line < Decimal.wordSize ∧ s.samples < Decimal.wordSize) :
    Spells (encode l) (array (l.map toJson)) ∧ decode (encode l) = some l ∧
    (∀ t items, List.Forall₂ SameRecord (l.map toJson) items → Spells t (array items) → decode t = some l) ∧
    ∀ t t' items items', List.Forall₂ SameRecord items items' → Json.read t = some (array items) →
      Json.read t' = some (array items') → decode t = decode t' := by
  have hspells := spells_encode h
  have hdecode : ∀ t items, List.Forall₂ SameRecord (l.map toJson) items → Spells t (array items) →
      decode t = some l := fun t items hsame ht ↦ by
    rw [decode_of_read (read_of_spells ht), ← mapM_of_same hsame, mapM_toJson]
  refine ⟨hspells, ?_, hdecode, fun t t' items items' hsame ht ht' ↦ ?_⟩
  · rw [decode_of_read (read_of_spells hspells), mapM_toJson]
  · rw [decode_of_read ht, decode_of_read ht', mapM_of_same hsame]

/-- A control character in the name of the function, and a record with its fields in another order, one of them
unknown. -/
theorem decode_encode_edited :
    let s : Suggestion := ⟨some ['\x01'], 3, none, 2, ⟨[['a']], ['b']⟩⟩
    let edited := object [(some "note".toList, array [number none]), (some "samples".toList, number (some 2)),
      (some "signature".toList, object [(some "return_type".toList, string (some ['b'])),
        (some "arg_types".toList, array [string (some ['a'])])]),
      (some "func_name".toList, string (some ['\x01'])), (some "line".toList, number (some 3))]
    encode [s] = ("[\x7b\"func_name\":\"\\u0001\",\"line\":3,\"samples\":2," ++
        "\"signature\":\x7b\"arg_types\":[\"a\"],\"return_type\":\"b\"\x7d\x7d]").toList ∧
      decode (encode [s]) = some [s] ∧ (∀ t, Spells t (array [edited]) → decode t = some [s]) ∧
      decode ("[\x7b\"note\": [-1.5e3], \"samples\": 2, \"signature\": " ++
        "\x7b\"return_type\": \"b\", \"arg_types\": [\"a\"]\x7d, " ++
        "\"func_name\": \"\\u0001\", \"line\": 3\x7d]").toList = some [s] := by
  intro s edited
  have h : ∀ s' ∈ [s], s'.line < Decimal.wordSize ∧ s'.samples < Decimal.wordSize := by
    intro s' hs'
    obtain rfl := List.mem_singleton.1 hs'
    decide
  have hrecord : SameRecord s.toJson edited := by
    refine .trans _ _ _ (.rel _ _ (.signature [_, _, _] [] (.order (.swap _ _ [])))) ?_
    refine .trans _ _ _ (.rel _ _ (.fields (.unknown "note".toList (array [number none]) (by decide)))) ?_
    exact .rel _ _ (.fields (.order (.cons _ (@List.perm_append_comm _ [_, _] _))))
  obtain ⟨-, hdecode, hedited, -⟩ := decode_encode h
  exact ⟨by decide +kernel, hdecode, fun t ↦ hedited t _ (.cons hrecord .nil), by decide +kernel⟩

end Suggestion

end HeaderHints
