import MessageCatalog.Proofs.Fallible
import MessageCatalog.Proofs.Settings.Named
import MessageCatalog.Proofs.Settings.Written
import MessageCatalog.Settings.Source

/-! # Settings written in JSON

An object that lists named values is read as the settings that these tell, and refused where they tell
none. -/

namespace MessageCatalog.Settings.Json

open Text Text.Scan

/-! ## Strings -/

theorem stringUnit_quotedChar (c : Char) (rest : List Char) :
    stringUnit (quotedChar c ++ rest) = some (c.toNat, rest) := by
  unfold quotedChar stringUnit
  split
  · next h =>
      obtain ⟨hspace, hquote, hescape, -⟩ := h
      have hhead : ([c] ++ rest).head? ≠ some '\\' := fun he => hescape (Option.some.inj he)
      rw [orElse_of_none (bind_of_none (char_eq_none hhead))]
      exact map_of_some (f := Char.toNat)
        (satisfy_cons (p := fun c => c != '"' && c != '\\' && ' ' ≤ c)
          (by simp [hspace, hquote, hescape]) rest)
  · next h =>
      have hread := hexNumber_byte (Nat.lt_trans (toNat_lt_of_not_isLiteral h) (by decide)) rest
      refine orElse_of_some ?_
      simp only [List.cons_append, List.nil_append]
      rw [bind_of_some (char_cons _ _), bind_of_some (satisfy_cons rfl _), if_pos rfl, hread]

/-- No character is half of a surrogate pair. -/
theorem textOfUnits?_map_toNat (cs : List Char) : textOfUnits? (cs.map Char.toNat) = some cs := by
  induction cs with
  | nil => rfl
  | cons c cs ih =>
      cases cs with
      | nil => simp [textOfUnits?, scalar?_toNat]
      | cons d cs =>
          have hvalid : c.toNat < 0xD800 ∨ 0xDFFF < c.toNat ∧ c.toNat < 0x110000 := c.valid
          have hhalf : ¬ (0xD800 ≤ c.toNat ∧ c.toNat < 0xDC00) := by omega
          rw [List.map_cons] at ih
          rw [List.map_cons, List.map_cons, textOfUnits?, if_neg hhalf, scalar?_toNat, ih]
          rfl

theorem string_eq_none {cs : List Char} (h : cs.head? ≠ some '"') : string cs = none :=
  bind_of_none (char_eq_none h)

theorem string_quoted (text : String) (rest : List Char) :
    string (quoted text ++ rest) = some (some text, rest) := by
  have hmany := many_quoted stringUnit_quotedChar (fun _ => rfl) text.toList rest
  rw [quoted_append, string, bind_of_some (char_cons _ _), bind_of_some hmany,
    bind_of_some (char_cons _ _), textOfUnits?_map_toNat, Option.map_some, String.ofList_toList]
  rfl

/-! ## Values -/

/-- What follows a value in an object. -/
def Follows (rest : List Char) : Prop :=
  rest.head? = some ',' ∨ rest.head? = some '\x7d'

theorem orNothing_of_none {a : Scan (List Char)} {cs : List Char} (h : a cs = none) :
    orNothing a cs = some ([], cs) :=
  orElse_of_none h

theorem number_append {digits rest : List Char} (h : Numeral digits) (hrest : Follows rest) :
    number (digits ++ rest) = some (digits, rest) := by
  have hsign : (digits ++ rest).head? ≠ some '-' := h.head?_append_ne rfl rest
  have hdigits : ∀ c ∈ rest.head?, c.isDigit = false := by
    intro c hc
    rcases hrest with hr | hr <;> rw [hr] at hc <;> cases hc <;> rfl
  have hwhole : ((char '0' *> pure ['0']) <|> Json.digits) (digits ++ rest) =
      some (digits, rest) := by
    by_cases hzero : digits.head? = some '0'
    · rw [h.head hzero]
      exact orElse_of_some (seqRight_of_some (char_cons _ _))
    · have hhead : (digits ++ rest).head? = digits.head? :=
        List.head?_append_of_ne_nil digits h.ne_nil
      rw [← hhead] at hzero
      rw [orElse_of_none (seqRight_of_none (char_eq_none hzero))]
      exact run1_append h.ne_nil h.isDigit hdigits
  have hpoint : rest.head? ≠ some '.' := by
    rcases hrest with hr | hr <;> rw [hr] <;> decide
  have hexponent : ∀ c ∈ rest.head?, (c == 'e' || c == 'E') = false := by
    intro c hc
    rcases hrest with hr | hr <;> rw [hr] at hc <;> cases hc <;> rfl
  rw [number, bind_of_some (orNothing_of_none (seqRight_of_none (char_eq_none hsign))),
    bind_of_some hwhole, bind_of_some (orNothing_of_none (bind_of_none (char_eq_none hpoint))),
    bind_of_some (orNothing_of_none (bind_of_none (satisfy_eq_none hexponent))), List.nil_append,
    List.append_nil, List.append_nil]
  rfl

theorem listed_eq_none {α : Type} {left right : Char} {item : Scan α} {cs : List Char}
    (h : cs.head? ≠ some left) : listed left right item cs = none :=
  bind_of_none (char_eq_none h)

/-- A closing bracket starts no value. -/
theorem value_bracket (depth : Nat) (rest : List Char) : value depth (']' :: rest) = none := by
  cases depth <;> rfl

theorem emptyArray (depth : Nat) (rest : List Char) :
    listed '[' ']' (value depth) ('[' :: ']' :: rest) = some ([], rest) := by
  have hblanks : blanks (']' :: rest) = some ((), ']' :: rest) := rfl
  have hitems : sepBy (value depth <* blanks) (char ',' <* blanks) (']' :: rest) =
      some ([], ']' :: rest) :=
    orElse_of_none (bind_of_none (seqLeft_of_none (value_bracket depth rest)))
  rw [listed, bind_of_some (char_cons _ _), bind_of_some hblanks, bind_of_some hitems,
    bind_of_some (char_cons _ _)]
  rfl

/-- What a written value is read as. -/
def Value.ofScalar : Scalar → Value
  | .text t => text (some t)
  | .flag b => flag b
  | .size k => number (Nat.toDigits 10 k.toNat)
  | .other => array []

theorem Value.scalar_ofScalar (v : Scalar) : (ofScalar v).scalar = v := by
  cases v with
  | size k => simp [ofScalar, scalar, unsigned?_toDigits]
  | _ => rfl

theorem value_written (v : Scalar) (depth : Nat) {rest : List Char} (hrest : Follows rest) :
    value (depth + 1) (v.written ++ rest) = some (.ofScalar v, rest) := by
  rw [value]
  -- The alternatives in front of the one that reads `v` expect another character.
  cases v with
  | text t =>
      have hread := map_of_some (f := Value.text) (string_quoted t rest)
      rw [Scalar.written]
      rw [quoted_append] at hread ⊢
      rw [orElse_of_none rfl, orElse_of_none rfl, orElse_of_none rfl]
      exact orElse_of_some hread
  | flag b =>
      cases b with
      | true =>
          rw [orElse_of_none rfl]
          exact orElse_of_some (seqRight_of_some (word_append _ _))
      | false =>
          rw [orElse_of_none rfl, orElse_of_none rfl]
          exact orElse_of_some (seqRight_of_some (word_append _ _))
  | size k =>
      have hdigits := numeral_toDigits k.toNat
      have hhead {c : Char} (hc : c.isDigit = false) := hdigits.head?_append_ne hc rest
      rw [Scalar.written, orElse_of_none (seqRight_of_none (word_eq_none rfl (hhead rfl))),
        orElse_of_none (seqRight_of_none (word_eq_none rfl (hhead rfl))),
        orElse_of_none (seqRight_of_none (word_eq_none rfl (hhead rfl))),
        orElse_of_none (map_of_none (string_eq_none (hhead rfl))),
        orElse_of_none (map_of_none (listed_eq_none (hhead rfl))),
        orElse_of_none (map_of_none (listed_eq_none (hhead rfl)))]
      exact map_of_some (number_append hdigits hrest)
  | other =>
      rw [orElse_of_none rfl, orElse_of_none rfl, orElse_of_none rfl, orElse_of_none rfl]
      exact orElse_of_some (map_of_some (emptyArray depth rest))

/-! ## Objects -/

/-- A name with its value. -/
def fieldText (field : String × Scalar) : List Char :=
  quoted field.1 ++ ':' :: field.2.written

def written (values : List (String × Scalar)) : String :=
  .ofList ('\x7b' :: (joined ',' fieldText values ++ ['\x7d']))

/-- How an object reads a name with its value. -/
def field (depth : Nat) : Scan (Option String × Value) := do
  let key ← string
  blanks
  char ':'
  blanks
  return (key, ← value depth)

theorem le_space_of_isBlank {c : Char} (h : isBlank c = true) : c ≤ ' ' := by
  simp only [isBlank, Bool.or_eq_true, beq_iff_eq] at h
  rcases h with ((rfl | rfl) | rfl) | rfl <;> decide

theorem blanks_cons {c : Char} (h : ' ' < c) (cs : List Char) :
    blanks (c :: cs) = some ((), c :: cs) := by
  have hnone : ∀ d ∈ (c :: cs).head?, isBlank d = false := by
    rintro d ⟨⟩
    exact Bool.eq_false_iff.mpr fun hc => Char.not_le.mpr h (le_space_of_isBlank hc)
  exact discard_run hnone

theorem field_append (f : String × Scalar) (depth : Nat) {rest : List Char} (hrest : Follows rest) :
    field (depth + 1) (fieldText f ++ rest) = some ((some f.1, .ofScalar f.2), rest) := by
  obtain ⟨c, cs, hcs, hc⟩ := f.2.exists_written
  have hvalue := value_written f.2 depth hrest
  rw [hcs] at hvalue
  rw [fieldText, hcs, field, List.append_assoc, bind_of_some (string_quoted _ _), List.cons_append,
    bind_of_some (blanks_cons (by decide) _), bind_of_some (char_cons _ _), List.cons_append,
    bind_of_some (blanks_cons hc _)]
  exact map_of_some hvalue

theorem Follows.blanks_eq {rest : List Char} (h : Follows rest) :
    blanks rest = some ((), rest) := by
  rcases h with h | h <;>
  · obtain ⟨cs, rfl⟩ := List.head?_eq_some_iff.mp h
    exact blanks_cons (by decide) cs

theorem fields_joined (values : List (String × Scalar)) (depth : Nat) :
    sepBy (field (depth + 1) <* blanks) (char ',' <* blanks)
        (joined ',' fieldText values ++ ['\x7d']) =
      some (values.map fun f => (some f.1, .ofScalar f.2), ['\x7d']) := by
  cases values with
  | nil => exact orElse_of_none (bind_of_none (seqLeft_of_none (bind_of_none rfl)))
  | cons f values =>
      refine orElse_of_some (sepBy1_joined (y := ()) Follows ?_ ?_ (fun _ => .inl rfl) (.inr rfl) rfl)
      · intro g _ rest hrest
        exact seqLeft_of_some (field_append g depth hrest) hrest.blanks_eq
      · intro g _ rest
        rw [fieldText, List.append_assoc, quoted_append]
        exact seqLeft_of_some (char_cons _ _) (blanks_cons (by decide) _)

theorem value_object (values : List (String × Scalar)) (depth : Nat) :
    value (depth + 2) ('\x7b' :: (joined ',' fieldText values ++ ['\x7d'])) =
      some (.object (values.map fun f => (some f.1, .ofScalar f.2)), []) := by
  have hblanks : blanks (joined ',' fieldText values ++ ['\x7d']) =
      some ((), joined ',' fieldText values ++ ['\x7d']) := by
    cases values with
    | nil => exact blanks_cons (by decide) []
    | cons f values => exact blanks_cons (by decide) _
  have hlisted : listed '\x7b' '\x7d' (field (depth + 1))
      ('\x7b' :: (joined ',' fieldText values ++ ['\x7d'])) =
        some (values.map fun f => (some f.1, .ofScalar f.2), []) := by
    rw [listed, bind_of_some (char_cons _ _), bind_of_some hblanks,
      bind_of_some (fields_joined values depth), bind_of_some (char_cons _ _)]
    rfl
  rw [value, orElse_of_none rfl, orElse_of_none rfl, orElse_of_none rfl, orElse_of_none rfl,
    orElse_of_none rfl]
  exact orElse_of_some (map_of_some hlisted)

theorem parse?_written (values : List (String × Scalar)) :
    parse? (written values).toList =
      some (.object (values.map fun f => (some f.1, .ofScalar f.2))) := by
  rw [written, String.toList_ofList, parse?, List.length_cons, List.length_append]
  exact all_of_some (seqLeft_of_some
    ((seqRight_of_some (blanks_cons (by decide) _)).trans (value_object values _)) (y := ()) rfl)

theorem settings?_object (values : List (String × Scalar)) :
    (Value.object (values.map fun f => (some f.1, .ofScalar f.2))).settings? = ofNamed? values := by
  change Option.bind ((values.map _).mapM _) ofNamed? = _
  rw [List.mapM_map, Fallible.mapM_eq_some_map (g := id), List.map_id, Option.bind_some]
  intro f
  exact congrArg (fun v => some (f.1, v)) (Value.scalar_ofScalar f.2)

/-- The settings that a written object is read as. -/
theorem ofText_written {values : List (String × Scalar)} {s : Settings} :
    ofText .json (written values) = .ok s ↔ Told values s := by
  have hparse : Settings.parse? (written values) .json = ofNamed? values := by
    change (parse? (written values).toList).bind Value.settings? = _
    rw [parse?_written, Option.bind_some, settings?_object]
  rw [← ofNamed?_eq_some_iff, ofText, hparse]
  cases ofNamed? values <;> simp

end MessageCatalog.Settings.Json
