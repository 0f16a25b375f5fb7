import MessageCatalog.Proofs.Plural.Tokenising

/-! # Calls of a cursor

A cursor is asked for its offset, to look at the next token or to take it, in any order. To look twice
is to look once, and to look and then take is to take. So a cursor is always where it would be if it
had been asked to take only, or there with the next token looked at.
-/

namespace MessageCatalog.Plural

open Text (utf8Length)

inductive Call where
  | peek
  | advance
  | offset
deriving DecidableEq, Repr

inductive Answer where
  | token (t : Token)
  | fault (e : NumberTooLarge)
  | offset (o : Nat)
deriving DecidableEq, Repr

def Answer.ofOutcome : Except NumberTooLarge Token → Answer
  | .ok t => .token t
  | .error e => .fault e

/-! ## Further on in a reading -/

def Reading.drop (r : Reading) (k : Nat) : Reading :=
  ⟨r.lexemes.drop k, r.fault⟩

/-- Where the next token of the source starts. -/
def Reading.start (r : Reading) (source : String) : Nat :=
  match r.lexemes, r.fault with
  | l :: _, _ => l.start
  | [], none => source.utf8ByteSize
  | [], some fault => fault.offset

/-- The next token. Behind the lexemes this is, for good, the end or the number that is too large. -/
def Reading.next (r : Reading) : Except NumberTooLarge Token :=
  Plural.next r.tokens r.fault

theorem Reading.drop_tail (r : Reading) (k : Nat) : r.tail.drop k = r.drop (k + 1) :=
  congrArg (Reading.mk · r.fault) List.drop_tail

theorem Reading.drop_of_nil {r : Reading} (h : r.lexemes = []) (k : Nat) : r.drop k = r := by
  obtain ⟨lexemes, fault⟩ := r
  obtain rfl : lexemes = [] := h
  exact congrArg (Reading.mk · fault) List.drop_nil

/-- No lexeme is the end. -/
theorem Spelled.exists_next {position : Nat} {cs : List Char} {r : Reading}
    (h : Spelled position cs r) (hr : r.lexemes ≠ []) : ∃ t, r.next = .ok t ∧ t ≠ .finish := by
  cases h with
  | finish => exact absurd rfl hr
  | fault => exact absurd rfl hr
  | lexeme _ hspells => exact ⟨_, rfl, hspells.ne_finish⟩

/-- The answers behind which nothing else comes. -/
def Answer.IsLast : Answer → Prop
  | .token t => t = .finish
  | .fault _ => True
  | .offset _ => False

namespace Cursor

def ofResult : EStateM.Result NumberTooLarge Cursor Token → Answer × Cursor
  | .ok t c => (.token t, c)
  | .error e c => (.fault e, c)

/-- The answer to a call and the cursor after it. -/
def perform (c : Cursor) : Call → Answer × Cursor
  | .peek => ofResult c.peek
  | .advance => ofResult c.advance
  | .offset => (.offset c.offset, c)

def answer (c : Cursor) (call : Call) : Answer :=
  (c.perform call).1

/-- The cursor after the calls. -/
def after (c : Cursor) : List Call → Cursor
  | [] => c
  | call :: calls => (c.perform call).2.after calls

/-- The calls with their answers. -/
def answers (c : Cursor) : List Call → List (Call × Answer)
  | [] => []
  | call :: calls => (call, c.answer call) :: (c.perform call).2.answers calls

variable {b c d : Cursor} {calls later : List Call}

/-! ## Looking and taking -/

theorem skipGap_skipGap (c : Cursor) : c.skipGap.skipGap = c.skipGap := by
  have hhead : ∀ a ∈ c.skipGap.rest.head?, isGap a = false := by
    intro a ha
    have hfirst : (c.rest.dropWhile isGap).head? = some a := ha
    have hnot := List.head?_dropWhile_not isGap c.rest
    rw [hfirst] at hnot
    simpa using hnot
  exact skipGap_append isGapText_nil hhead c.skipGap.position c.skipGap.lookahead

/-- A scan that fails would fail again in the same way. -/
theorem scan_of_scan_eq_error {e : NumberTooLarge} (h : c.scan = .error e d) :
    d.scan = .error e d ∧ d.lookahead = c.lookahead := by
  simp only [scan] at h
  split at h
  · cases h
  · next digits hfirst =>
      cases h
      exact ⟨by simp only [scan, skipGap_skipGap, hfirst], rfl⟩

theorem answer_peek_eq_answer_advance (c : Cursor) : c.answer .peek = c.answer .advance := by
  obtain ⟨position, rest, lookahead⟩ := c
  cases lookahead with
  | some seen => rfl
  | none =>
      simp only [answer, perform, peek, advance]
      cases scan ⟨position, rest, none⟩ <;> rfl

/-- To look twice is to look once. -/
theorem perform_peek_peek (c : Cursor) :
    (c.perform .peek).2.perform .peek = c.perform .peek := by
  obtain ⟨position, rest, lookahead⟩ := c
  cases lookahead with
  | some seen => rfl
  | none =>
      simp only [perform, peek]
      cases hscan : scan ⟨position, rest, none⟩ with
      | ok seen d => rfl
      | error e d =>
          obtain ⟨hagain, hlook⟩ := scan_of_scan_eq_error hscan
          simp only [ofResult, hlook, hagain]

/-- To look and then take is to take. -/
theorem perform_peek_advance (c : Cursor) :
    (c.perform .peek).2.perform .advance = c.perform .advance := by
  obtain ⟨position, rest, lookahead⟩ := c
  cases lookahead with
  | some seen => rfl
  | none =>
      simp only [perform, peek, advance]
      cases hscan : scan ⟨position, rest, none⟩ with
      | ok seen d =>
          have hlook := lookahead_of_scan hscan
          obtain ⟨position', rest', lookahead'⟩ := d
          obtain rfl : lookahead' = none := hlook
          rfl
      | error e d =>
          obtain ⟨hagain, hlook⟩ := scan_of_scan_eq_error hscan
          simp only [ofResult, hlook, hagain]

/-- `c` is `b`, which may have looked at the next token. -/
def Looked (b c : Cursor) : Prop :=
  c = b ∨ c = (b.perform .peek).2

theorem Looked.perform_advance (h : Looked b c) : c.perform .advance = b.perform .advance := by
  rcases h with rfl | rfl
  · rfl
  · exact perform_peek_advance b

theorem Looked.peek (h : Looked b c) : Looked b (c.perform .peek).2 := by
  rcases h with rfl | rfl
  · exact .inr rfl
  · exact .inr (by rw [perform_peek_peek])

def takes (calls : List Call) : List Call :=
  calls.filter (· = .advance)

/-- What is taken is the same without the other calls. -/
theorem Looked.filter_answers (h : Looked b c) (calls : List Call) :
    (c.answers calls).filter (·.1 = .advance) = b.answers (takes calls) := by
  induction calls generalizing b c with
  | nil => rfl
  | cons call calls ih =>
      cases call with
      | peek => exact ih h.peek
      | offset => exact ih h
      | advance =>
          have hnext := ih (b := (b.perform .advance).2) (.inl rfl)
          change (Call.advance, c.answer .advance) :: _ = (Call.advance, b.answer .advance) :: _
          rw [answer, answer, h.perform_advance, hnext]
          rfl

/-! ## Along the reading -/

variable {source : String} {r : Reading}

/-- The cursor has looked at nothing, and what the source goes on with reads as `r`. -/
structure Behind (source : String) (r : Reading) (b : Cursor) : Prop where
  lookahead : b.lookahead = none
  spelled : Spelled b.position b.rest r
  split : ∃ before, source.toList = before ++ b.rest ∧ utf8Length before = b.position

theorem behind_ofSource (source : String) :
    Behind source (reading 0 source.toList) (ofSource source.toList) where
  lookahead := rfl
  spelled := spelled_reading 0 source.toList
  split := ⟨[], rfl, rfl⟩

theorem Behind.isValid (h : Behind source r b) : String.Pos.Raw.IsValid source ⟨b.position⟩ := by
  obtain ⟨before, hsource, hposition⟩ := h.split
  rw [← hposition]
  exact isValid_of_split hsource

/-- A scan finds the next token. A cursor that fails stays where the token starts. -/
structure Scanned (source : String) (r : Reading) (b d : Cursor) : Prop where
  scan_eq : b.scan = outcome (r.next.map fun t => (r.start source, t)) d
  behind : Behind source r.tail d
  le_start : b.position ≤ r.start source
  start_le : r.start source ≤ d.position
  start_valid : String.Pos.Raw.IsValid source ⟨r.start source⟩
  of_error : ∀ e, r.next = .error e → d.position = r.start source

theorem Behind.scan (h : Behind source r b) : ∃ d, Scanned source r b d := by
  obtain ⟨position, rest, lookahead⟩ := b
  obtain ⟨hlook, hspelled, before, hsource, hposition⟩ := h
  obtain rfl : lookahead = none := hlook
  change Spelled position rest r at hspelled
  change source.toList = before ++ rest at hsource
  change utf8Length before = position at hposition
  cases hspelled with
  | finish _ hgap =>
      have hend : position + utf8Length rest = source.utf8ByteSize := by
        rw [← utf8Length_toList, hsource, utf8Length_append, hposition]
      have hbehind : Behind source ⟨[], none⟩ ⟨source.utf8ByteSize, [], none⟩ :=
        ⟨rfl, .finish _ isGapText_nil, source.toList, (List.append_nil _).symm, utf8Length_toList source⟩
      refine ⟨_, ?_, hbehind, ?_, Nat.le_refl _, hbehind.isValid, nofun⟩
      · rw [scan_of_gap hgap, hend]
        rfl
      · exact Nat.le.intro hend
  | @fault _ gap digits rest hgap hover =>
      have hbehind : Behind source ⟨[], some ⟨digits, position + utf8Length gap⟩⟩
          ⟨position + utf8Length gap, digits ++ rest, none⟩ :=
        ⟨rfl, .fault _ isGapText_nil hover, before ++ gap, by rw [hsource, List.append_assoc],
          by rw [utf8Length_append, hposition]⟩
      exact ⟨_, scan_of_oversize hgap hover position none, hbehind, Nat.le_add_right _ _,
        Nat.le_refl _, hbehind.isValid, fun _ _ => rfl⟩
  | @lexeme _ gap spelling rest t r hgap hspells hrest =>
      have hsplit : source.toList = (before ++ gap) ++ (spelling ++ rest) := by
        rw [hsource, List.append_assoc]
      have hvalid := isValid_of_split hsplit
      rw [utf8Length_append, hposition] at hvalid
      refine ⟨_, scan_of_spells hgap hspells position none, ⟨rfl, hrest, before ++ gap ++ spelling,
        ?_, ?_⟩, Nat.le_add_right _ _, Nat.le_add_right _ _, hvalid, nofun⟩
      · rw [hsource, List.append_assoc, List.append_assoc]
      · rw [utf8Length_append, utf8Length_append, hposition]

/-! ## Steps -/

theorem Scanned.perform_advance (h : Scanned source r b d) (hlook : b.lookahead = none) :
    b.perform .advance = (.ofOutcome r.next, d) := by
  simp only [perform, advance, hlook, h.scan_eq]
  cases r.next <;> rfl

theorem Scanned.offset_peek (h : Scanned source r b d) (hlook : b.lookahead = none) :
    (b.perform .peek).2.offset = r.start source := by
  simp only [perform, peek, hlook, h.scan_eq]
  cases hnext : r.next with
  | ok t => rfl
  | error e =>
      change d.offset = r.start source
      rw [offset, h.behind.lookahead]
      exact h.of_error e hnext

/-- What the source goes on with for the cursor reads as `r`, and the cursor has or has not looked
at the first token of it. -/
def Ahead (source : String) (r : Reading) (c : Cursor) : Prop :=
  ∃ b, Behind source r b ∧ Looked b c

theorem Ahead.peek (h : Ahead source r c) : Ahead source r (c.perform .peek).2 := by
  obtain ⟨b, hb, hlooked⟩ := h
  exact ⟨b, hb, hlooked.peek⟩

theorem Ahead.advance (h : Ahead source r c) : Ahead source r.tail (c.perform .advance).2 := by
  obtain ⟨b, hb, hlooked⟩ := h
  obtain ⟨d, hd⟩ := hb.scan
  refine ⟨d, hd.behind, .inl ?_⟩
  rw [hlooked.perform_advance, hd.perform_advance hb.lookahead]

/-- To look is answered as to take is: by the next token. -/
theorem Ahead.answer_eq {call : Call} (h : Ahead source r c) (hcall : call ≠ .offset) :
    c.answer call = .ofOutcome r.next := by
  obtain ⟨b, hb, hlooked⟩ := h
  obtain ⟨d, hd⟩ := hb.scan
  have hadvance : c.answer .advance = .ofOutcome r.next := by
    rw [answer, hlooked.perform_advance, hd.perform_advance hb.lookahead]
  cases call with
  | peek => rw [answer_peek_eq_answer_advance, hadvance]
  | advance => exact hadvance
  | offset => exact absurd rfl hcall

/-- A cursor that has looked tells where the next token starts. -/
theorem Ahead.offset_peek (h : Ahead source r c) :
    (c.perform .peek).2.offset = r.start source := by
  obtain ⟨b, hb, rfl | rfl⟩ := h
  · obtain ⟨d, hd⟩ := hb.scan
    exact hd.offset_peek hb.lookahead
  · obtain ⟨d, hd⟩ := hb.scan
    rw [perform_peek_peek]
    exact hd.offset_peek hb.lookahead

theorem Behind.offset_eq (h : Behind source r b) : b.offset = b.position := by
  rw [offset, h.lookahead]

theorem Ahead.offset_le_start (h : Ahead source r c) : c.offset ≤ r.start source := by
  obtain ⟨b, hb, rfl | rfl⟩ := h
  · obtain ⟨d, hd⟩ := hb.scan
    exact hb.offset_eq ▸ hd.le_start
  · exact Nat.le_of_eq (Ahead.offset_peek ⟨b, hb, .inl rfl⟩)

theorem Ahead.offset_valid (h : Ahead source r c) : String.Pos.Raw.IsValid source ⟨c.offset⟩ := by
  obtain ⟨b, hb, rfl | rfl⟩ := h
  · exact hb.offset_eq ▸ hb.isValid
  · obtain ⟨d, hd⟩ := hb.scan
    rw [hd.offset_peek hb.lookahead]
    exact hd.start_valid

theorem Ahead.start_le_advance (h : Ahead source r c) :
    r.start source ≤ (c.perform .advance).2.offset := by
  obtain ⟨b, hb, hlooked⟩ := h
  obtain ⟨d, hd⟩ := hb.scan
  rw [hlooked.perform_advance, hd.perform_advance hb.lookahead, hd.behind.offset_eq]
  exact hd.start_le

/-- No call goes back. -/
theorem Ahead.offset_le_perform (h : Ahead source r c) (call : Call) :
    c.offset ≤ (c.perform call).2.offset := by
  cases call with
  | peek => exact h.offset_peek ▸ h.offset_le_start
  | advance => exact Nat.le_trans h.offset_le_start h.start_le_advance
  | offset => exact Nat.le_refl _

/-! ## Runs -/

theorem Ahead.after (h : Ahead source r c) (calls : List Call) :
    Ahead source (r.drop (calls.count .advance)) (c.after calls) := by
  induction calls generalizing r c with
  | nil => exact h
  | cons call calls ih =>
      cases call with
      | peek => exact ih h.peek
      | offset => exact ih h
      | advance =>
          rw [List.count_cons_self, ← Reading.drop_tail]
          exact ih h.advance

theorem Ahead.offset_le_after (h : Ahead source r c) (calls : List Call) :
    c.offset ≤ (c.after calls).offset := by
  induction calls generalizing r c with
  | nil => exact Nat.le_refl _
  | cons call calls ih =>
      have hstep := h.offset_le_perform call
      cases call with
      | peek => exact Nat.le_trans hstep (ih h.peek)
      | offset => exact ih h
      | advance => exact Nat.le_trans hstep (ih h.advance)

theorem ne_offset_of_isLast {call : Call} (h : (c.answer call).IsLast) : call ≠ .offset := by
  rintro rfl
  exact h

theorem Ahead.lexemes_eq_nil (h : Ahead source r c) {call : Call}
    (hlast : (c.answer call).IsLast) : r.lexemes = [] := by
  rw [h.answer_eq (ne_offset_of_isLast hlast)] at hlast
  obtain ⟨b, hb, -⟩ := h
  by_contra hne
  obtain ⟨t, hnext, ht⟩ := hb.spelled.exists_next hne
  rw [hnext] at hlast
  exact ht hlast

/-- Behind the end, and where a scan fails, nothing else is ever answered. -/
theorem Ahead.answer_after_last (h : Ahead source r c) {call call' : Call}
    (hlast : (c.answer call).IsLast) (hcall' : call' ≠ .offset) (later : List Call) :
    (c.after (call :: later)).answer call' = c.answer call := by
  have hafter := h.after (call :: later)
  rw [Reading.drop_of_nil (h.lexemes_eq_nil hlast)] at hafter
  rw [hafter.answer_eq hcall', h.answer_eq (ne_offset_of_isLast hlast)]

/-- Looking again, or taking, after calls that take nothing. -/
theorem Ahead.answer_after_peek (h : Ahead source r c) (hlater : .advance ∉ later) {call : Call}
    (hcall : call ≠ .offset) :
    (c.after (.peek :: later)).answer call = c.answer .peek := by
  have hafter := h.after (.peek :: later)
  rw [List.count_cons_of_ne (by decide), List.count_eq_zero.mpr hlater] at hafter
  rw [hafter.answer_eq hcall, h.answer_eq (by decide)]
  rfl

end Cursor

/-! ## Sources -/

/-- What holds of a cursor `c` behind any calls, where the source reads as `r`. -/
structure Steady (source : String) (r : Reading) (calls : List Call) (c : Cursor) : Prop where
  /-- What was taken is what is taken when nothing else is asked. -/
  taken : ((Cursor.ofSource source.toList).answers calls).filter (·.1 = .advance) =
    (Cursor.ofSource source.toList).answers (Cursor.takes calls)
  /-- The next token is the next one of the reading, whether it is looked at or taken. -/
  answer_eq : ∀ call, call ≠ .offset →
    c.answer call = .ofOutcome (r.drop (calls.count .advance)).next
  /-- What was looked at stays the next token until a token is taken. -/
  looked : ∀ later call, .advance ∉ later → call ≠ .offset →
    (c.after (.peek :: later)).answer call = c.answer .peek
  peek_again : (c.perform .peek).2.perform .peek = c.perform .peek
  /-- Behind the end and behind a failure nothing else is answered. -/
  last : ∀ call later call', (c.answer call).IsLast → call' ≠ .offset →
    (c.after (call :: later)).answer call' = c.answer call
  offset_le : ∀ later, c.offset ≤ (c.after later).offset
  offset_valid : String.Pos.Raw.IsValid source ⟨c.offset⟩
  offset_peek : ∀ t, c.answer .peek = .token t →
    (c.perform .peek).2.offset = (r.drop (calls.count .advance)).start source

/-- Looking and asking for the offset never change what is read. -/
theorem reading_steady (source : String) : ∃ r, Spelled 0 source.toList r ∧
    ∀ calls, Steady source r calls ((Cursor.ofSource source.toList).after calls) := by
  refine ⟨reading 0 source.toList, spelled_reading 0 source.toList, fun calls => ?_⟩
  have hstart : Cursor.Ahead source (reading 0 source.toList) (.ofSource source.toList) :=
    ⟨_, Cursor.behind_ofSource source, .inl rfl⟩
  have h := hstart.after calls
  exact {
    taken := Cursor.Looked.filter_answers (.inl rfl) calls
    answer_eq := fun call hcall => h.answer_eq hcall
    looked := fun later call hlater hcall => h.answer_after_peek hlater hcall
    peek_again := Cursor.perform_peek_peek _
    last := fun call later call' hlast hcall' => h.answer_after_last hlast hcall' later
    offset_le := h.offset_le_after
    offset_valid := h.offset_valid
    offset_peek := fun _ _ => h.offset_peek }

/-- A number that is too large stays in front of the cursor. -/
theorem reading_steady_tooLarge :
    let c := (Cursor.ofSource "n <3000000000".toList).after [.peek, .advance, .offset, .advance]
    let fault := Answer.fault ⟨"3000000000".toList, 3⟩
    c.answer .peek = fault ∧
      ∀ later call, call ≠ .offset → (c.after (.peek :: later)).answer call = fault := by
  intro c fault
  have hpeek : c.answer .peek = fault := by decide +kernel
  obtain ⟨r, -, h⟩ := reading_steady "n <3000000000"
  refine ⟨hpeek, fun later call hcall => ?_⟩
  have hlast : (c.answer .peek).IsLast := by
    rw [hpeek]
    trivial
  rw [← hpeek]
  exact (h _).last .peek later call hlast hcall

end MessageCatalog.Plural
