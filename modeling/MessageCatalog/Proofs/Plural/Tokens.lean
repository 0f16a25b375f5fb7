import MessageCatalog.Plural.Token.Cursor

/-! # The tokens of a text

A text is read as its lexemes in order, each with the offset where it starts, up to the end or to
the first number that is too large. A cursor shows what is left of the reading of its source,
whether or not it has looked at the next token: looking leaves the reading as it is, and taking
drops its first lexeme.
-/

namespace MessageCatalog.Plural

/-! ## Lexemes -/

theorem Pair.length_text (p : Pair) : p.text.toList.length = 2 := by
  cases p <;> rfl

theorem isGap_of_isDigit {c : Char} (h : c.isDigit = true) : isGap c = false := by
  cases hg : isGap c with
  | false => rfl
  | true =>
      simp only [isGap, Bool.or_eq_true, beq_iff_eq] at hg
      rcases hg with (((rfl | rfl) | rfl) | rfl) | rfl <;> cases h

theorem drop_length_takeWhile (p : Char → Bool) (cs : List Char) :
    cs.drop (cs.takeWhile p).length = cs.dropWhile p :=
  calc cs.drop (cs.takeWhile p).length
      = (cs.takeWhile p ++ cs.dropWhile p).drop (cs.takeWhile p).length := by
        rw [List.takeWhile_append_dropWhile]
    _ = cs.dropWhile p := List.drop_left

theorem Lexeme.ofDigits?_eq_some {digits : List Char} {l : Lexeme}
    (h : Lexeme.ofDigits? digits = some l) :
    l = ⟨.number (Int32.ofNat (Text.decimalValue digits)), digits⟩ := by
  simp only [ofDigits?] at h
  split at h
  · exact (Option.some.inj h).symm
  · cases h

/-- What a text that is not empty starts with is a token with a spelling. -/
theorem Lexeme.of_first_cons {c : Char} {cs : List Char} {l : Lexeme}
    (h : Lexeme.first (c :: cs) = .ok l) : l.token ≠ .finish ∧ 0 < l.spelling.length := by
  simp only [first] at h
  split at h
  · next p _ =>
      obtain rfl := Except.ok.inj h
      refine ⟨by simp, ?_⟩
      rw [Pair.length_text]
      decide
  · split at h
    · next hc =>
        cases ho : ofDigits? ((c :: cs).takeWhile Char.isDigit) with
        | none => simp [ho] at h
        | some l' =>
            rw [ho] at h
            obtain rfl := Except.ok.inj h
            rw [ofDigits?_eq_some ho]
            exact ⟨by simp, by simp [hc]⟩
    · split at h <;>
      · obtain rfl := Except.ok.inj h
        exact ⟨by simp, Nat.one_pos⟩

/-! ## Readings -/

/-- A lexeme with the offset where it starts. -/
structure Placed where
  start : Nat
  lexeme : Lexeme
deriving DecidableEq, Repr

structure Reading where
  lexemes : List Placed
  /-- The number that the reading stops at, if it does not come to the end. -/
  fault : Option NumberTooLarge
deriving DecidableEq, Repr

namespace Reading

def cons (l : Placed) (r : Reading) : Reading :=
  ⟨l :: r.lexemes, r.fault⟩

def tokens (r : Reading) : List Token :=
  r.lexemes.map (·.lexeme.token)

/-- What is left after the first lexeme. -/
def tail (r : Reading) : Reading :=
  ⟨r.lexemes.tail, r.fault⟩

end Reading

/-- The reading of `cs`, in front of which stand `position` bytes. -/
def reading (position : Nat) (cs : List Char) : Reading :=
  match cs with
  | [] => ⟨[], none⟩
  | c :: cs =>
      if isGap c then reading (position + c.utf8Size) cs
      else
        match _ : Lexeme.first (c :: cs) with
        | .ok l =>
            (reading (position + Text.utf8Length l.spelling)
              ((c :: cs).drop l.spelling.length)).cons ⟨position, l⟩
        | .error digits => ⟨[], some ⟨digits, position⟩⟩
termination_by cs.length
decreasing_by
  · exact Nat.lt_succ_self _
  · have := (Lexeme.of_first_cons ‹_›).2
    simp only [List.length_drop, List.length_cons]
    omega

@[simp] theorem reading_nil (position : Nat) : reading position [] = ⟨[], none⟩ := by
  rw [reading]

theorem reading_of_gap {c : Char} (hc : isGap c = true) (position : Nat) (cs : List Char) :
    reading position (c :: cs) = reading (position + c.utf8Size) cs := by
  rw [reading, if_pos hc]

theorem reading_of_first {position : Nat} {c : Char} {cs : List Char} {l : Lexeme}
    (hc : isGap c = false) (h : Lexeme.first (c :: cs) = .ok l) :
    reading position (c :: cs) =
      (reading (position + Text.utf8Length l.spelling)
        ((c :: cs).drop l.spelling.length)).cons ⟨position, l⟩ := by
  rw [reading, if_neg (by simp [hc])]
  split
  · next l' h' =>
      obtain rfl := Except.ok.inj (h.symm.trans h')
      rfl
  · next h' => cases h.symm.trans h'

theorem reading_of_fault {position : Nat} {c : Char} {cs digits : List Char}
    (hc : isGap c = false) (h : Lexeme.first (c :: cs) = .error digits) :
    reading position (c :: cs) = ⟨[], some ⟨digits, position⟩⟩ := by
  rw [reading, if_neg (by simp [hc])]
  split
  · next h' => cases h.symm.trans h'
  · next digits' h' =>
      obtain rfl := Except.error.inj (h.symm.trans h')
      rfl

/-- The gap in front of a text is no part of what is read. -/
theorem reading_dropWhile (position : Nat) (cs : List Char) :
    reading (position + Text.utf8Length (cs.takeWhile isGap)) (cs.dropWhile isGap) =
      reading position cs := by
  induction cs generalizing position with
  | nil => rfl
  | cons c cs ih =>
      cases hc : isGap c with
      | false => simp [hc, Text.utf8Length]
      | true => simp [hc, Text.utf8Length, reading_of_gap hc, ← ih, Nat.add_assoc]

theorem finish_notMem_reading (position : Nat) (cs : List Char) :
    .finish ∉ (reading position cs).tokens := by
  fun_induction reading position cs with
  | case1 => exact List.not_mem_nil
  | case2 position c cs hc ih => exact ih
  | case3 position c cs hc l h ih =>
      intro hm
      rcases List.mem_cons.mp hm with hm | hm
      · exact (Lexeme.of_first_cons h).1 hm.symm
      · exact ih hm
  | case4 => exact List.not_mem_nil

/-- Every lexeme spells at least one character. -/
theorem length_reading_le (position : Nat) (cs : List Char) :
    (reading position cs).tokens.length ≤ cs.length := by
  fun_induction reading position cs with
  | case1 => exact Nat.zero_le _
  | case2 position c cs hc ih => exact Nat.le_succ_of_le ih
  | case3 position c cs hc l h ih =>
      have hl := (Lexeme.of_first_cons h).2
      simp only [List.length_drop, List.length_cons] at ih
      simp only [Reading.tokens, Reading.cons, List.map_cons, List.length_cons] at ih ⊢
      omega
  | case4 => exact Nat.zero_le _

/-! ## Cursors -/

/-- The token that comes next, or the fault that stands in its place. -/
def next : List Token → Option NumberTooLarge → Except NumberTooLarge Token
  | t :: _, _ => .ok t
  | [], none => .ok .finish
  | [], some fault => .error fault

/-- The outcome of a run that answers `answer` and leaves off at `s`. -/
def outcome {ε σ α : Type} (answer : Except ε α) (s : σ) : EStateM.Result ε σ α :=
  match answer with
  | .ok a => .ok a s
  | .error e => .error e s

namespace Cursor

/-- What the cursor has in front of it, with the token that it has looked at. -/
inductive Shows : Cursor → Reading → Prop where
  | unseen (position : Nat) (rest : List Char) :
      Shows ⟨position, rest, none⟩ (reading position rest)
  | seen (position : Nat) (rest : List Char) (l : Placed) (hl : l.lexeme.token ≠ .finish) :
      Shows ⟨position, rest, some (l.start, l.lexeme.token)⟩ ((reading position rest).cons l)
  | finished (position start : Nat) :
      Shows ⟨position, [], some (start, .finish)⟩ ⟨[], none⟩

theorem shows_ofSource (source : List Char) : (ofSource source).Shows (reading 0 source) :=
  .unseen 0 source

theorem shows_nil (position : Nat) : Shows ⟨position, [], none⟩ ⟨[], none⟩ := by
  simpa using Shows.unseen position []

/-- A scan reads the first lexeme of what is left. Where it fails, and at the end, it passes over
the gap only. -/
theorem scan_eq (position : Nat) (rest : List Char) (lookahead : Option (Nat × Token)) :
    (∃ l position' rest', scan ⟨position, rest, lookahead⟩ =
        .ok (l.start, l.lexeme.token) ⟨position', rest', lookahead⟩ ∧
      l.lexeme.token ≠ .finish ∧ reading position rest = (reading position' rest').cons l) ∨
    (∃ position', scan ⟨position, rest, lookahead⟩ =
        .ok (position', .finish) ⟨position', [], lookahead⟩ ∧
      reading position rest = ⟨[], none⟩) ∨
    ∃ fault position' rest', scan ⟨position, rest, lookahead⟩ =
        .error fault ⟨position', rest', lookahead⟩ ∧
      reading position' rest' = reading position rest ∧
      reading position rest = ⟨[], some fault⟩ := by
  have hr := reading_dropWhile position rest
  have hd := List.head?_dropWhile_not isGap rest
  simp only [scan, skipGap, skip]
  generalize rest.dropWhile isGap = cs at hr hd ⊢
  generalize position + Text.utf8Length (rest.takeWhile isGap) = start at hr ⊢
  cases cs with
  | nil => exact .inr (.inl ⟨start, rfl, hr.symm.trans (reading_nil start)⟩)
  | cons c cs =>
      have hc : isGap c = false := by simpa using hd
      cases hf : Lexeme.first (c :: cs) with
      | ok l =>
          refine .inl ⟨⟨start, l⟩, _, _, rfl, (Lexeme.of_first_cons hf).1, ?_⟩
          rw [← hr, reading_of_first hc hf]
      | error digits =>
          refine .inr (.inr ⟨⟨digits, start⟩, _, _, rfl, hr, ?_⟩)
          rw [← hr, reading_of_fault hc hf]

/-- Looking gives the token that comes next and changes nothing that is shown. -/
theorem Shows.peek {c : Cursor} {r : Reading} (h : c.Shows r) :
    ∃ d, c.peek = outcome (next r.tokens r.fault) d ∧ d.Shows r := by
  cases h with
  | unseen position rest =>
      rcases scan_eq position rest none with
        ⟨l, position', rest', hs, hl, hr⟩ | ⟨position', hs, hr⟩ |
          ⟨fault, position', rest', hs, hr, hf⟩
      · refine ⟨⟨position', rest', some (l.start, l.lexeme.token)⟩, ?_, ?_⟩
        · simp [Cursor.peek, hs, hr, next, outcome, Reading.tokens, Reading.cons]
        · rw [hr]
          exact .seen position' rest' l hl
      · refine ⟨⟨position', [], some (position', .finish)⟩, ?_, ?_⟩
        · simp [Cursor.peek, hs, hr, next, outcome, Reading.tokens]
        · rw [hr]
          exact .finished position' position'
      · refine ⟨⟨position', rest', none⟩, ?_, ?_⟩
        · simp [Cursor.peek, hs, hf, next, outcome, Reading.tokens]
        · rw [← hr]
          exact .unseen position' rest'
  | seen position rest l hl => exact ⟨_, rfl, .seen position rest l hl⟩
  | finished position start => exact ⟨_, rfl, .finished position start⟩

/-- Taking gives the token that comes next and goes past it. -/
theorem Shows.advance {c : Cursor} {r : Reading} (h : c.Shows r) :
    ∃ d, c.advance = outcome (next r.tokens r.fault) d ∧ d.Shows r.tail := by
  cases h with
  | unseen position rest =>
      rcases scan_eq position rest none with
        ⟨l, position', rest', hs, hl, hr⟩ | ⟨position', hs, hr⟩ |
          ⟨fault, position', rest', hs, hr, hf⟩
      · refine ⟨⟨position', rest', none⟩, ?_, ?_⟩
        · simp [Cursor.advance, hs, hr, next, outcome, Reading.tokens, Reading.cons]
        · rw [hr]
          exact .unseen position' rest'
      · refine ⟨⟨position', [], none⟩, ?_, ?_⟩
        · simp [Cursor.advance, hs, hr, next, outcome, Reading.tokens]
        · rw [hr]
          exact shows_nil position'
      · refine ⟨⟨position', rest', none⟩, ?_, ?_⟩
        · simp [Cursor.advance, hs, hf, next, outcome, Reading.tokens]
        · have ht : (reading position rest).tail = reading position' rest' := by
            rw [hr, hf]
            rfl
          rw [ht]
          exact .unseen position' rest'
  | seen position rest l hl => exact ⟨_, rfl, .unseen position rest⟩
  | finished position start => exact ⟨_, rfl, shows_nil position⟩

end Cursor

end MessageCatalog.Plural
