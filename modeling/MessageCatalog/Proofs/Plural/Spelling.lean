import MessageCatalog.Proofs.Plural.Tokens

/-! # How tokens are spelled

A text is a row of spellings with gaps around them, and each spelling tells its token. The rules for
this do not mention how a text is read, and reading finds the only such row.
-/

namespace MessageCatalog.Plural

open Text (utf8Length)

/-! ## Runs of digits -/

/-- What stands behind a number for its digits to end there. -/
def NoDigit (rest : List Char) : Prop :=
  ∀ c ∈ rest.head?, c.isDigit = false

theorem noDigit_nil : NoDigit [] := by
  intro c hc
  cases hc

theorem noDigit_cons {c : Char} (h : c.isDigit = false) (rest : List Char) :
    NoDigit (c :: rest) := by
  intro d hd
  obtain rfl := Option.some.inj hd
  exact h

theorem ofChars?_of_isDigit {c : Char} (h : c.isDigit = true) (d : Char) :
    Pair.ofChars? c d = none := by
  unfold Pair.ofChars?
  split <;> first | cases h | rfl

theorem takeWhile_digits {digits rest : List Char} (hd : ∀ c ∈ digits, c.isDigit = true)
    (hr : NoDigit rest) : (digits ++ rest).takeWhile Char.isDigit = digits := by
  rw [List.takeWhile_append_of_pos hd]
  cases rest with
  | nil => simp
  | cons c rest => simp [hr c rfl]

theorem first_digits {c : Char} {digits rest : List Char}
    (hd : ∀ d ∈ c :: digits, d.isDigit = true) (hr : NoDigit rest) :
    Lexeme.first (c :: (digits ++ rest)) =
      (Lexeme.ofDigits? (c :: digits)).elim (.error (c :: digits)) .ok := by
  have hc := hd c List.mem_cons_self
  have hp : (digits ++ rest).head?.bind (Pair.ofChars? c) = none := by
    cases digits ++ rest with
    | nil => rfl
    | cons d s => exact ofChars?_of_isDigit hc d
  have ht := takeWhile_digits hd hr
  rw [List.cons_append] at ht
  simp only [Lexeme.first, hp, hc, ht, if_true]

/-! ## Spellings -/

/-- All of a run of digits. -/
structure DigitRun (digits rest : List Char) : Prop where
  ne_nil : digits ≠ []
  isDigit : ∀ c ∈ digits, c.isDigit = true
  ends : NoDigit rest

/-- What a token is written as in front of `rest`: a pair wherever one stands, else all of a run of
digits, else one character that is no gap. -/
inductive Spells : List Char → Token → List Char → Prop where
  | pair (p : Pair) (rest) : Spells p.text.toList (.pair p) rest
  | number {digits rest} {value : Int32} (h : DigitRun digits rest)
      (hvalue : value.toInt = Text.decimalValue digits) : Spells digits (.number value) rest
  | count (rest) : Spells ['n'] .count rest
  | char {c rest} (hgap : isGap c = false) (hpair : ∀ p : Pair, ¬ p.text.toList <+: c :: rest)
      (hdigit : c.isDigit = false) (hcount : c ≠ 'n') : Spells [c] (.char c) rest

/-- A run of digits whose value no token has. -/
structure Oversize (digits rest : List Char) : Prop extends DigitRun digits rest where
  large : 2147483647 < Text.decimalValue digits

theorem Pair.ofChars?_eq_some_iff {c d : Char} {p : Pair} :
    ofChars? c d = some p ↔ p.text.toList = [c, d] := by
  constructor
  · intro h
    unfold ofChars? at h
    split at h <;> cases h <;> rfl
  · intro h
    cases p <;> cases h <;> rfl

theorem Pair.head?_bind_eq_none_iff {c : Char} {cs : List Char} :
    cs.head?.bind (ofChars? c) = none ↔ ∀ p : Pair, ¬ p.text.toList <+: c :: cs := by
  rw [Option.eq_none_iff_forall_ne_some]
  refine forall_congr' fun p => not_congr ?_
  cases cs with
  | nil =>
      have htext := p.length_text
      refine iff_of_false (by simp) fun h => ?_
      have hlength := h.length_le
      simp only [List.length_cons, List.length_nil] at hlength
      omega
  | cons d cs =>
      rw [List.head?_cons, Option.bind_some, ofChars?_eq_some_iff]
      constructor
      · intro h
        rw [h]
        exact ⟨cs, rfl⟩
      · intro h
        have htake := List.prefix_iff_eq_take.mp h
        rwa [p.length_text] at htake

theorem DigitRun.exists_cons {digits rest : List Char} (h : DigitRun digits rest) :
    ∃ c ds, digits = c :: ds ∧ c.isDigit = true := by
  obtain ⟨c, ds, rfl⟩ := List.exists_cons_of_ne_nil h.ne_nil
  exact ⟨c, ds, rfl, h.isDigit c List.mem_cons_self⟩

/-- A run of digits is read as a whole. -/
theorem DigitRun.first_eq {digits rest : List Char} (h : DigitRun digits rest) :
    Lexeme.first (digits ++ rest) = (Lexeme.ofDigits? digits).elim (.error digits) .ok := by
  obtain ⟨c, ds, rfl, -⟩ := h.exists_cons
  exact first_digits h.isDigit h.ends

theorem digitRun_takeWhile {c : Char} (hc : c.isDigit = true) (cs : List Char) :
    DigitRun ((c :: cs).takeWhile Char.isDigit) ((c :: cs).dropWhile Char.isDigit) := by
  refine ⟨by simp [hc], List.all_eq_true.mp List.all_takeWhile, ?_⟩
  intro d hd
  have hnot := List.head?_dropWhile_not Char.isDigit (c :: cs)
  rw [Option.mem_def.mp hd] at hnot
  simpa using hnot

theorem Lexeme.ofDigits?_eq_some_iff {digits : List Char} {l : Lexeme} :
    ofDigits? digits = some l ↔
      ∃ value : Int32, l = ⟨.number value, digits⟩ ∧ value.toInt = Text.decimalValue digits := by
  simp only [ofDigits?]
  constructor
  · intro h
    split at h
    · next hle =>
        obtain rfl := Option.some.inj h
        exact ⟨_, rfl, Int32.toInt_ofNat_of_lt (Nat.lt_succ_of_le hle)⟩
    · cases h
  · rintro ⟨value, rfl, hvalue⟩
    have hlt := value.toInt_lt
    have hle : Text.decimalValue digits ≤ maxNumber := by
      change Text.decimalValue digits ≤ 2147483647
      omega
    have hnat : (Int32.ofNat (Text.decimalValue digits)).toInt = Text.decimalValue digits :=
      Int32.toInt_ofNat_of_lt (Nat.lt_succ_of_le hle)
    rw [if_pos hle, Int32.toInt_inj.mp (hnat.trans hvalue.symm)]

theorem Lexeme.ofDigits?_eq_none_iff {digits : List Char} :
    ofDigits? digits = none ↔ 2147483647 < Text.decimalValue digits := by
  rw [← Nat.not_le]
  change _ ↔ ¬ Text.decimalValue digits ≤ maxNumber
  simp [ofDigits?]

/-- A spelling is read as its token. -/
theorem Spells.first_eq {spelling rest : List Char} {t : Token} (h : Spells spelling t rest) :
    Lexeme.first (spelling ++ rest) = .ok ⟨t, spelling⟩ := by
  cases h with
  | pair p => cases p <;> rfl
  | number hrun hvalue =>
      rw [hrun.first_eq, Lexeme.ofDigits?_eq_some_iff.mpr ⟨_, rfl, hvalue⟩]
      rfl
  | count => cases rest <;> rfl
  | char _ hpair hdigit hcount =>
      simp [Lexeme.first, Pair.head?_bind_eq_none_iff.mpr hpair, hdigit, hcount]

theorem Oversize.first_eq {digits rest : List Char} (h : Oversize digits rest) :
    Lexeme.first (digits ++ rest) = .error digits := by
  rw [h.toDigitRun.first_eq, Lexeme.ofDigits?_eq_none_iff.mpr h.large]
  rfl

/-- What is read where no gap is stands there as a spelling. -/
theorem Lexeme.spells_of_first {c : Char} {cs : List Char} {l : Lexeme} (hc : isGap c = false)
    (h : Lexeme.first (c :: cs) = .ok l) :
    Spells l.spelling l.token ((c :: cs).drop l.spelling.length) := by
  simp only [first] at h
  split at h
  · obtain rfl := Except.ok.inj h
    exact .pair _ _
  · next hpair =>
      split at h
      · next hdigit =>
          cases ho : ofDigits? ((c :: cs).takeWhile Char.isDigit) with
          | none =>
              rw [ho] at h
              cases h
          | some l' =>
              rw [ho] at h
              obtain rfl := Except.ok.inj h
              obtain ⟨value, rfl, hvalue⟩ := ofDigits?_eq_some_iff.mp ho
              rw [drop_length_takeWhile]
              exact .number (digitRun_takeWhile hdigit cs) hvalue
      · next hdigit =>
          split at h
          · next hcount =>
              obtain rfl := Except.ok.inj h
              rw [hcount]
              exact .count _
          · next hcount =>
              obtain rfl := Except.ok.inj h
              exact .char hc (Pair.head?_bind_eq_none_iff.mp hpair) (by simpa using hdigit) hcount

theorem Lexeme.oversize_of_first {c : Char} {cs digits : List Char}
    (h : Lexeme.first (c :: cs) = .error digits) :
    ∃ rest, c :: cs = digits ++ rest ∧ Oversize digits rest := by
  simp only [first] at h
  split at h
  · cases h
  · split at h
    · next hdigit =>
        cases ho : ofDigits? ((c :: cs).takeWhile Char.isDigit) with
        | none =>
            rw [ho] at h
            obtain rfl := Except.error.inj h
            exact ⟨_, List.takeWhile_append_dropWhile.symm, digitRun_takeWhile hdigit cs,
              ofDigits?_eq_none_iff.mp ho⟩
        | some l =>
            rw [ho] at h
            cases h
    · split at h <;> cases h

theorem Spells.exists_cons {spelling rest : List Char} {t : Token} (h : Spells spelling t rest) :
    ∃ c cs, spelling = c :: cs ∧ isGap c = false := by
  cases h with
  | pair p => cases p <;> exact ⟨_, _, rfl, rfl⟩
  | number hrun =>
      obtain ⟨c, ds, hds, hc⟩ := hrun.exists_cons
      exact ⟨c, ds, hds, isGap_of_isDigit hc⟩
  | count => exact ⟨_, _, rfl, rfl⟩
  | char hgap => exact ⟨_, _, rfl, hgap⟩

theorem Spells.ne_finish {spelling rest : List Char} {t : Token} (h : Spells spelling t rest) :
    t ≠ .finish := by
  cases h <;> exact nofun

/-! ## Texts -/

def IsGapText (gap : List Char) : Prop :=
  ∀ c ∈ gap, isGap c = true

instance (gap : List Char) : Decidable (IsGapText gap) :=
  decidable_of_iff (gap.all isGap = true) List.all_eq_true

/-- The text, in front of which stand `position` bytes, is a row of spellings with gaps around them.
Behind the last one there is a gap only, or a run of digits that is too large and then anything. -/
inductive Spelled : Nat → List Char → Reading → Prop where
  | finish (position) {gap} (hgap : IsGapText gap) : Spelled position gap ⟨[], none⟩
  | fault (position) {gap digits rest} (hgap : IsGapText gap) (h : Oversize digits rest) :
      Spelled position (gap ++ (digits ++ rest)) ⟨[], some ⟨digits, position + utf8Length gap⟩⟩
  | lexeme {position gap spelling rest t r} (hgap : IsGapText gap) (h : Spells spelling t rest)
      (hrest : Spelled (position + utf8Length gap + utf8Length spelling) rest r) :
      Spelled position (gap ++ (spelling ++ rest)) (r.cons ⟨position + utf8Length gap, t, spelling⟩)

theorem isGapText_nil : IsGapText [] :=
  nofun

theorem isGapText_cons {c : Char} {gap : List Char} (hc : isGap c = true) (hgap : IsGapText gap) :
    IsGapText (c :: gap) := by
  intro d hd
  rcases List.mem_cons.mp hd with rfl | hd
  · exact hc
  · exact hgap d hd

theorem isGapText_append_iff {gap gap' : List Char} :
    IsGapText (gap ++ gap') ↔ IsGapText gap ∧ IsGapText gap' :=
  List.forall_mem_append

theorem reading_gap_append {gap : List Char} (hgap : IsGapText gap) (position : Nat)
    (cs : List Char) : reading position (gap ++ cs) = reading (position + utf8Length gap) cs := by
  induction gap generalizing position with
  | nil => rfl
  | cons c gap ih =>
      rw [List.cons_append, reading_of_gap (hgap c List.mem_cons_self),
        ih fun d hd => hgap d (List.mem_cons_of_mem c hd), utf8Length, Nat.add_assoc]

theorem Spelled.cons_gap {position : Nat} {c : Char} {cs : List Char} {r : Reading}
    (hc : isGap c = true) (h : Spelled (position + c.utf8Size) cs r) :
    Spelled position (c :: cs) r := by
  cases h with
  | finish _ hgap => exact .finish position (isGapText_cons hc hgap)
  | fault _ hgap hover =>
      have hcons := Spelled.fault position (isGapText_cons hc hgap) hover
      rwa [utf8Length, ← Nat.add_assoc] at hcons
  | lexeme hgap hspells hrest =>
      rw [Nat.add_assoc position] at hrest ⊢
      exact .lexeme (isGapText_cons hc hgap) hspells hrest

theorem spelled_reading (position : Nat) (cs : List Char) :
    Spelled position cs (reading position cs) := by
  fun_induction reading position cs with
  | case1 position => exact .finish position isGapText_nil
  | case2 position c cs hc ih => exact ih.cons_gap hc
  | case3 position c cs hc l hfirst ih =>
      have hc : isGap c = false := by simpa using hc
      have hsplit := List.prefix_iff_eq_append.mp (Lexeme.spelling_isPrefix hfirst)
      have hcons := Spelled.lexeme isGapText_nil (Lexeme.spells_of_first hc hfirst) ih
      rwa [List.nil_append, hsplit] at hcons
  | case4 position c cs hc digits hfirst =>
      obtain ⟨rest, hsplit, hover⟩ := Lexeme.oversize_of_first hfirst
      rw [hsplit]
      exact .fault position isGapText_nil hover

theorem Spelled.reading_eq {position : Nat} {cs : List Char} {r : Reading}
    (h : Spelled position cs r) : reading position cs = r := by
  induction h with
  | finish position hgap =>
      have hall := reading_gap_append hgap position []
      rwa [List.append_nil, reading_nil] at hall
  | fault position hgap hover =>
      obtain ⟨c, ds, hds, hc⟩ := hover.exists_cons
      have hfirst := hover.first_eq
      rw [reading_gap_append hgap]
      rw [hds, List.cons_append] at hfirst ⊢
      rw [reading_of_fault (isGap_of_isDigit hc) hfirst]
  | @lexeme position gap spelling rest t r hgap hspells _ ih =>
      obtain ⟨c, cs, hcs, hc⟩ := hspells.exists_cons
      have hfirst := hspells.first_eq
      have hdrop : (spelling ++ rest).drop spelling.length = rest := List.drop_left
      rw [reading_gap_append hgap]
      rw [hcs, List.cons_append] at hfirst hdrop ⊢
      rw [reading_of_first hc hfirst, hdrop, ← ih, hcs]

/-- A text is spelled in one way, which is how it is read. -/
theorem spelled_iff {position : Nat} {cs : List Char} {r : Reading} :
    Spelled position cs r ↔ reading position cs = r :=
  ⟨Spelled.reading_eq, fun h => h ▸ spelled_reading position cs⟩

end MessageCatalog.Plural
