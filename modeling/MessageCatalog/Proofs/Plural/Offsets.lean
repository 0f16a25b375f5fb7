import MessageCatalog.Proofs.Plural.Steps

/-! # Offsets of tokens

Every token of a source starts at the offset that the reading gives for it, and the end of the source
is a token as well where the reading comes to it. A cursor that has taken `k` tokens and has looked at
the next one tells the offset of the token with the number `k`.
-/

namespace MessageCatalog.Plural

open Text (utf8Length)

theorem utf8Length_append (cs ds : List Char) :
    utf8Length (cs ++ ds) = utf8Length cs + utf8Length ds := by
  induction cs with
  | nil => exact (Nat.zero_add _).symm
  | cons c cs ih => rw [List.cons_append, utf8Length, ih, utf8Length, Nat.add_assoc]

/-! ## Places in the source -/

/-- No digit in front of `cs` belongs to a run of digits that `cs` goes on with. -/
def Separated (before cs : List Char) : Prop :=
  ∀ c ∈ before.getLast?, ∀ d ∈ cs.head?, c.isDigit → ¬ d.isDigit

theorem separated_of_last {c : Char} (hc : c.isDigit = false) (before cs : List Char) :
    Separated (before ++ [c]) cs := by
  intro d hd e _ hdigit
  obtain rfl : c = d := by simpa using hd
  rw [hc] at hdigit
  cases hdigit

theorem separated_dropWhile (before cs : List Char) :
    Separated before (cs.dropWhile Char.isDigit) := by
  intro c _ d hd _
  have h := List.head?_dropWhile_not Char.isDigit cs
  rw [Option.mem_def.mp hd] at h
  simpa using h

/-- A lexeme takes all of a run of digits. -/
theorem Lexeme.separated_of_first {c : Char} {cs : List Char} {l : Lexeme}
    (h : Lexeme.first (c :: cs) = .ok l) (before : List Char) :
    Separated (before ++ l.spelling) ((c :: cs).drop l.spelling.length) := by
  simp only [first] at h
  split at h
  · next p _ =>
      obtain rfl := Except.ok.inj h
      have htext : ∃ a b, p.text.toList = [a] ++ [b] ∧ b.isDigit = false := by
        cases p <;> exact ⟨_, _, rfl, rfl⟩
      obtain ⟨a, b, htext, hb⟩ := htext
      rw [htext, ← List.append_assoc]
      exact separated_of_last hb _ _
  · split at h
    · cases ho : ofDigits? ((c :: cs).takeWhile Char.isDigit) with
      | none => simp [ho] at h
      | some l' =>
          rw [ho] at h
          obtain rfl := Except.ok.inj h
          rw [ofDigits?_eq_some ho]
          rw [drop_length_takeWhile]
          exact separated_dropWhile _ _
    · next hc =>
        have hc : c.isDigit = false := by simpa using hc
        split at h <;>
        · obtain rfl := Except.ok.inj h
          exact separated_of_last hc before _

/-- The characters of the source from the byte offset `o` on are `cs`. -/
def RestAt (source : List Char) (o : Nat) (cs : List Char) : Prop :=
  ∃ before, source = before ++ cs ∧ utf8Length before = o ∧ Separated before cs

/-- What is read at an offset stands there. -/
theorem restAt_of_reading {position : Nat} {cs : List Char} (before : List Char)
    (hp : utf8Length before = position) (hs : Separated before cs) :
    (∀ l ∈ (reading position cs).lexemes, ∃ rest,
      RestAt (before ++ cs) l.start rest ∧ Lexeme.first rest = .ok l.lexeme) ∧
    ∀ fault, (reading position cs).fault = some fault → ∃ rest,
      RestAt (before ++ cs) fault.offset rest ∧ Lexeme.first rest = .error fault.digits := by
  fun_induction reading position cs generalizing before with
  | case1 => simp
  | case2 position c cs hc ih =>
      have hdigit : c.isDigit = false := by
        cases hd : c.isDigit with
        | false => rfl
        | true => cases hc.symm.trans (isGap_of_isDigit hd)
      have hnext := ih (before ++ [c]) (by simp [utf8Length_append, utf8Length, hp])
        (separated_of_last hdigit before cs)
      rwa [List.append_assoc, List.singleton_append] at hnext
  | case3 position c cs hc l h ih =>
      have hnext := ih (before ++ l.spelling) (by rw [utf8Length_append, hp])
        (Lexeme.separated_of_first h before)
      rw [List.append_assoc, List.prefix_iff_eq_append.mp (Lexeme.spelling_isPrefix h)] at hnext
      refine ⟨?_, hnext.2⟩
      intro l' hl'
      rcases List.mem_cons.mp hl' with rfl | hl'
      · exact ⟨c :: cs, ⟨before, rfl, hp, hs⟩, h⟩
      · exact hnext.1 l' hl'
  | case4 position c cs hc digits h =>
      refine ⟨by simp, ?_⟩
      rintro fault ⟨⟩
      exact ⟨c :: cs, ⟨before, rfl, hp, hs⟩, h⟩

/-- The tokens of a source with the offsets where they start. The end is the last of them, unless a
number is too large. -/
def placedTokens (source : List Char) : List (Nat × Token) :=
  (reading 0 source).lexemes.map (fun l => (l.start, l.lexeme.token)) ++
    match (reading 0 source).fault with
    | none => [(utf8Length source, .finish)]
    | some _ => []

theorem map_snd_placedTokens (source : List Char) :
    (placedTokens source).map Prod.snd = (reading 0 source).tokens ++
      match (reading 0 source).fault with
      | none => [.finish]
      | some _ => [] := by
  rw [placedTokens, List.map_append, List.map_map]
  cases (reading 0 source).fault <;> rfl

/-- The token starts at its offset. -/
theorem restAt_of_placed {source : List Char} {o : Nat} {t : Token}
    (h : (o, t) ∈ placedTokens source) :
    ∃ rest l, RestAt source o rest ∧ Lexeme.first rest = .ok l ∧ l.token = t := by
  rcases List.mem_append.mp h with h | h
  · obtain ⟨l, hl, heq⟩ := List.mem_map.mp h
    obtain ⟨rfl, rfl⟩ := Prod.mk.inj heq
    obtain ⟨rest, hrest, hf⟩ := (restAt_of_reading [] rfl nofun).1 l hl
    exact ⟨rest, l.lexeme, hrest, hf, rfl⟩
  · cases hf : (reading 0 source).fault with
    | none =>
        rw [hf] at h
        obtain ⟨rfl, rfl⟩ := Prod.mk.inj (List.mem_singleton.mp h)
        exact ⟨[], ⟨.finish, []⟩, ⟨source, (List.append_nil _).symm, rfl, nofun⟩, rfl, rfl⟩
    | some _ =>
        rw [hf] at h
        cases h

/-! ## Cursors -/

namespace Cursor

variable {source : List Char} {size start : Nat} {c d : Cursor} {t : Token} {u w : List Token}

/-- The source has `size` bytes, and the cursor knows where they end. -/
structure Within (size : Nat) (c : Cursor) : Prop where
  size_eq : c.position + utf8Length c.rest = size
  start_eq : ∀ start, c.lookahead = some (start, .finish) → start = size

theorem size_eq_skipGap (h : c.position + utf8Length c.rest = size) :
    c.skipGap.position + utf8Length c.skipGap.rest = size := by
  have hrest := utf8Length_append (c.rest.takeWhile isGap) (c.rest.dropWhile isGap)
  rw [List.takeWhile_append_dropWhile] at hrest
  simp only [skipGap]
  omega

theorem size_eq_skip {spelling : List Char} (hs : spelling <+: c.rest)
    (h : c.position + utf8Length c.rest = size) :
    (c.skip spelling).position + utf8Length (c.skip spelling).rest = size := by
  have hrest := utf8Length_append spelling (c.rest.drop spelling.length)
  rw [List.prefix_iff_eq_append.mp hs] at hrest
  simp only [skip]
  omega

theorem size_eq_scan (h : c.position + utf8Length c.rest = size)
    (hs : c.scan = .ok (start, t) d) :
    d.position + utf8Length d.rest = size ∧ (t = .finish → start = size) := by
  have hgap := size_eq_skipGap h
  simp only [scan] at hs
  split at hs
  · next l hl =>
      cases hs
      refine ⟨size_eq_skip (Lexeme.spelling_isPrefix hl) hgap, ?_⟩
      intro hfinish
      cases hrest : c.skipGap.rest with
      | nil => simpa [hrest, utf8Length] using hgap
      | cons a cs =>
          rw [hrest] at hl
          exact absurd hfinish (Lexeme.of_first_cons hl).1
  · cases hs

theorem Within.peek (h : c.Within size) (hp : c.peek = .ok t d) :
    d.Within size ∧ ∃ start, d.lookahead = some (start, t) := by
  simp only [Cursor.peek] at hp
  split at hp
  · next start t' hl =>
      cases hp
      exact ⟨h, start, hl⟩
  · split at hp
    · next start t' e hs =>
        cases hp
        obtain ⟨hsize, hfinish⟩ := size_eq_scan h.size_eq hs
        refine ⟨⟨hsize, ?_⟩, start, rfl⟩
        rintro start' ⟨⟩
        exact hfinish rfl
    · cases hp

theorem Within.advance (h : c.Within size) (hp : c.advance = .ok t d) : d.Within size := by
  simp only [Cursor.advance] at hp
  split at hp
  · cases hp
    exact ⟨h.size_eq, by simp⟩
  · next hl =>
      split at hp
      · next hs =>
          cases hp
          refine ⟨(size_eq_scan h.size_eq hs).1, ?_⟩
          simp [lookahead_of_scan hs, hl]
      · cases hp

/-- The cursor has taken the tokens `u` of the source and has `w` in front of it. -/
structure Stands (source : List Char) (c : Cursor) (u w : List Token) : Prop where
  tokens : (reading 0 source).tokens = u ++ w
  shows : c.Shows ⟨(reading 0 source).lexemes.drop u.length, (reading 0 source).fault⟩
  within : c.Within (utf8Length source)

theorem stands_ofSource (source : List Char) :
    Stands source (ofSource source) [] (reading 0 source).tokens where
  tokens := rfl
  shows := shows_ofSource source
  within := ⟨Nat.zero_add _, nofun⟩

theorem Stands.tokens_drop (h : Stands source c u w) :
    ((reading 0 source).lexemes.drop u.length).map (·.lexeme.token) = w := by
  have ht := congrArg (List.drop u.length) h.tokens
  rwa [List.drop_left, Reading.tokens, ← List.map_drop] at ht

theorem next_eq_headD_or (w : List Token) (fault : Option NumberTooLarge) :
    next w fault = .ok (w.headD .finish) ∨
      w = [] ∧ ∃ e, fault = some e ∧ next w fault = .error e := by
  cases w with
  | cons t w => exact .inl rfl
  | nil =>
      cases fault with
      | none => exact .inl rfl
      | some e => exact .inr ⟨rfl, e, rfl, rfl⟩

/-- The cursor stands and has looked at the next token. -/
structure Faces (source : List Char) (c : Cursor) (u w : List Token) : Prop extends
    Stands source c u w where
  looked : c.lookahead = some (c.offset, w.headD .finish)

/-- Looking fails only where nothing is left but a number that is too large. -/
theorem Stands.peek (h : Stands source c u w) :
    (∃ d, c.peek = .ok (w.headD .finish) d ∧ Faces source d u w) ∨
    ∃ fault d, c.peek = .error fault d ∧ w = [] ∧ (reading 0 source).fault = some fault := by
  obtain ⟨d, hd, hshows⟩ := h.shows.peek
  rw [Reading.tokens, h.tokens_drop] at hd
  rcases next_eq_headD_or w (reading 0 source).fault with hn | ⟨hw, e, hf, hn⟩
  · rw [hn] at hd
    obtain ⟨hwithin, start, hl⟩ := h.within.peek hd
    refine .inl ⟨d, hd, ⟨h.tokens, hshows, hwithin⟩, ?_⟩
    rw [offset, hl]
  · rw [hn] at hd
    exact .inr ⟨e, d, hd, hw, hf⟩

/-- Taking goes past the token that was looked at. -/
theorem Faces.advance (h : Faces source c u w) :
    ∃ d, c.advance = .ok (w.headD .finish) d ∧
      ∀ t v, w = t :: v → Stands source d (u ++ [t]) v := by
  obtain ⟨d, hd, hshows⟩ := h.shows.advance
  have hadvance : c.advance = .ok (w.headD .finish) { c with lookahead := none } := by
    rw [Cursor.advance, h.looked]
  rw [Reading.tokens, h.tokens_drop] at hd
  refine ⟨_, hadvance, ?_⟩
  rintro t v rfl
  cases hadvance.symm.trans hd
  refine ⟨?_, ?_, h.within.advance hadvance⟩
  · rw [h.tokens, List.append_assoc, List.singleton_append]
  · rwa [List.length_append, List.length_singleton, ← List.tail_drop]

/-- The token that was looked at starts at its offset. -/
theorem Faces.placed (h : Faces source c u w) :
    (placedTokens source)[u.length]? = some (c.offset, w.headD .finish) := by
  have hlength := congrArg List.length h.tokens
  rw [Reading.tokens, List.length_map, List.length_append] at hlength
  rw [← List.head?_drop, placedTokens, List.drop_append_of_le_length (by simp; omega),
    ← List.map_drop]
  obtain ⟨-, hshows, hwithin⟩ := h.toStands
  have hl := h.looked
  generalize c.offset = start at hl ⊢
  generalize w.headD .finish = t at hl ⊢
  generalize hr : Reading.mk _ _ = r at hshows
  cases hshows with
  | unseen position rest => cases hl
  | seen position rest l _ =>
      cases hl
      rw [(Reading.mk.inj hr).1]
      rfl
  | finished position start' =>
      obtain ⟨rfl, rfl⟩ := Prod.mk.inj (Option.some.inj hl)
      rw [(Reading.mk.inj hr).1, (Reading.mk.inj hr).2, hwithin.start_eq _ rfl]
      rfl

end Cursor

end MessageCatalog.Plural
