import Mathlib.Logic.Relation
import MessageCatalog.Proofs.Plural.Parsing
import MessageCatalog.Proofs.Plural.Tokenising

/-! # Gaps between tokens

Where a gap stands, and how long it is, tells nothing. A gap that is put between two tokens, or taken
away where nothing joins that was apart, leaves the tokens as they are, and with them what a source
is parsed as.
-/

namespace MessageCatalog.Plural

open Text (utf8Length)

/-! ## Readings with the same tokens -/

namespace Reading

/-- The readings differ in offsets at most. -/
structure SameTokens (r r' : Reading) : Prop where
  tokens : r.tokens = r'.tokens
  digits : r.fault.map NumberTooLarge.digits = r'.fault.map NumberTooLarge.digits

theorem SameTokens.cons {r r' : Reading} (h : SameTokens r r') (start start' : Nat)
    (l : Lexeme) : SameTokens (r.cons ⟨start, l⟩) (r'.cons ⟨start', l⟩) :=
  ⟨congrArg (l.token :: ·) h.tokens, h.digits⟩

/-- Neither a lexeme nor a number that is too large has the offset `o` inside it. -/
structure Clear (r : Reading) (o : Nat) : Prop where
  lexemes : ∀ l ∈ r.lexemes, ¬ (l.start < o ∧ o < l.stop)
  fault : ∀ fault, r.fault = some fault →
    ¬ (fault.offset < o ∧ o < fault.offset + utf8Length fault.digits)

end Reading

open Reading

/-- Where a text stands does not matter to its tokens. -/
theorem Spelled.shift {position : Nat} {cs : List Char} {r : Reading} (h : Spelled position cs r)
    (position' : Nat) : ∃ r', Spelled position' cs r' ∧ SameTokens r' r := by
  induction h generalizing position' with
  | finish _ hgap => exact ⟨_, .finish position' hgap, rfl, rfl⟩
  | fault _ hgap hover => exact ⟨_, .fault position' hgap hover, rfl, rfl⟩
  | lexeme hgap hspells _ ih =>
      obtain ⟨r', hr', hsame⟩ := ih _
      exact ⟨_, .lexeme hgap hspells hr', hsame.cons _ _ _⟩

/-! ## A gap more -/

section

variable {gap : List Char} (hgap : IsGapText gap)

include hgap

theorem isGapText_insert {front back : List Char} (h : IsGapText (front ++ back)) :
    IsGapText (front ++ (gap ++ back)) := by
  rw [isGapText_append_iff] at h ⊢
  exact ⟨h.1, isGapText_append_iff.mpr ⟨hgap, h.2⟩⟩

/-- The text behind a spelling may be moved away. -/
theorem noDigit_insert {front back : List Char} (h : NoDigit (front ++ back)) :
    NoDigit (front ++ (gap ++ back)) := by
  cases front with
  | cons c front => exact h
  | nil =>
      cases gap with
      | nil => exact h
      | cons c gap =>
          refine noDigit_cons ?_ _
          cases hc : c.isDigit with
          | false => rfl
          | true => exact absurd (hgap c List.mem_cons_self) (by simp [isGap_of_isDigit hc])

theorem Spells.insert {spelling front back : List Char} {t : Token}
    (h : Spells spelling t (front ++ back)) : Spells spelling t (front ++ (gap ++ back)) := by
  cases h with
  | pair p => exact .pair p _
  | number hrun hvalue =>
      exact .number ⟨hrun.ne_nil, hrun.isDigit, noDigit_insert hgap hrun.ends⟩ hvalue
  | count => exact .count _
  | @char c _ hc hpair hdigit hcount =>
      refine .char hc ?_ hdigit hcount
      intro p hp
      have htake := List.prefix_iff_eq_take.mp hp
      rw [p.length_text] at htake
      cases front with
      | cons d front =>
          refine hpair p ?_
          rw [htake]
          exact ⟨front ++ back, rfl⟩
      | nil =>
          cases gap with
          | nil => exact hpair p hp
          | cons d gap =>
              -- No pair has a gap for its second character.
              have hd := hgap d List.mem_cons_self
              have htext : p.text.toList = [c, d] := htake
              cases p <;> cases htext <;> cases hd

theorem Oversize.insert {digits front back : List Char} (h : Oversize digits (front ++ back)) :
    Oversize digits (front ++ (gap ++ back)) :=
  ⟨⟨h.ne_nil, h.isDigit, noDigit_insert hgap h.ends⟩, h.large⟩

end

/-- A place that is not inside a word is in front of it or behind it. -/
theorem split_word {before word rest front back : List Char}
    (h : before ++ (word ++ rest) = front ++ back)
    (hout : ¬ (utf8Length before < utf8Length front ∧
      utf8Length front < utf8Length before + utf8Length word)) :
    (∃ between, before = front ++ between ∧ back = between ++ (word ++ rest)) ∨
      ∃ between, front = before ++ (word ++ between) ∧ rest = between ++ back := by
  rcases List.append_eq_append_iff.mp h with ⟨into, rfl, hback⟩ | ⟨between, rfl, rfl⟩
  · rcases List.append_eq_append_iff.mp hback with ⟨between, rfl, rfl⟩ | ⟨left, rfl, rfl⟩
    · exact .inr ⟨between, rfl, rfl⟩
    · -- The place cuts the word, which it may do at one of its ends only.
      rw [utf8Length_append, utf8Length_append] at hout
      cases into with
      | nil => exact .inl ⟨[], by simp, by simp⟩
      | cons c into =>
          cases left with
          | nil => exact .inr ⟨[], by simp, by simp⟩
          | cons d left =>
              have hinto := utf8Length_pos_of_ne_nil (List.cons_ne_nil c into)
              have hleft := utf8Length_pos_of_ne_nil (List.cons_ne_nil d left)
              exact absurd ⟨by omega, by omega⟩ hout
  · exact .inl ⟨between, rfl, rfl⟩

theorem Spelled.insert {position : Nat} {front gap back : List Char} {r : Reading}
    (h : Spelled position (front ++ back) r) (hgap : IsGapText gap)
    (hclear : r.Clear (position + utf8Length front)) :
    ∃ r', Spelled position (front ++ (gap ++ back)) r' ∧ SameTokens r' r := by
  generalize htext : front ++ back = cs at h
  induction h generalizing front with
  | finish position hgap' =>
      rw [← htext] at hgap'
      exact ⟨_, .finish position (isGapText_insert hgap hgap'), rfl, rfl⟩
  | @fault position before digits rest hbefore hover =>
      have hout := hclear.fault _ rfl
      simp only [Nat.add_assoc, Nat.add_lt_add_iff_left] at hout
      rcases split_word htext.symm hout with ⟨between, rfl, rfl⟩ | ⟨between, rfl, rfl⟩
      · have hfault := Spelled.fault position (isGapText_insert hgap hbefore) hover
        simp only [List.append_assoc] at hfault
        exact ⟨_, hfault, rfl, rfl⟩
      · have hfault := Spelled.fault position hbefore (hover.insert hgap)
        simp only [List.append_assoc]
        exact ⟨_, hfault, rfl, rfl⟩
  | @lexeme position before spelling rest t r hbefore hspells hrest ih =>
      have hout := hclear.lexemes _ List.mem_cons_self
      simp only [Placed.stop, Nat.add_assoc, Nat.add_lt_add_iff_left] at hout
      rcases split_word htext.symm hout with ⟨between, rfl, rfl⟩ | ⟨between, rfl, rfl⟩
      · obtain ⟨r', hr', hsame⟩ := hrest.shift _
        have hlexeme := @Spelled.lexeme position _ _ _ _ _ (isGapText_insert hgap hbefore) hspells hr'
        simp only [List.append_assoc] at hlexeme
        exact ⟨_, hlexeme, hsame.cons _ _ _⟩
      · have hlater : r.Clear
            (position + utf8Length before + utf8Length spelling + utf8Length between) := by
          refine ⟨fun l hl => ?_, fun fault hfault => ?_⟩
          · simpa only [utf8Length_append, Nat.add_assoc] using
              hclear.lexemes l (List.mem_cons_of_mem _ hl)
          · simpa only [utf8Length_append, Nat.add_assoc] using hclear.fault fault hfault
        obtain ⟨r', hr', hsame⟩ := ih hlater rfl
        have hlexeme := Spelled.lexeme hbefore (hspells.insert hgap) hr'
        simp only [List.append_assoc]
        exact ⟨_, hlexeme, hsame.cons _ _ _⟩

/-! ## Sources -/

/-- One source is the other with a gap put in at a place where, without the gap, no token and no
number that is too large would be cut. -/
inductive Respaced : String → String → Prop where
  | insert (front gap back : String) (hgap : IsGapText gap.toList)
      (hclear : (reading 0 (front ++ back).toList).Clear front.utf8ByteSize) :
      Respaced (front ++ back) (front ++ gap ++ back)
  | remove (front gap back : String) (hgap : IsGapText gap.toList)
      (hclear : (reading 0 (front ++ back).toList).Clear front.utf8ByteSize) :
      Respaced (front ++ gap ++ back) (front ++ back)

theorem sameTokens_insert {front gap back : String} (hgap : IsGapText gap.toList)
    (hclear : (reading 0 (front ++ back).toList).Clear front.utf8ByteSize) :
    SameTokens (reading 0 (front ++ gap ++ back).toList) (reading 0 (front ++ back).toList) := by
  have hsize : 0 + utf8Length front.toList = front.utf8ByteSize :=
    (Nat.zero_add _).trans (utf8Length_toList front)
  have h := spelled_reading 0 (front ++ back).toList
  rw [← hsize] at hclear
  generalize reading 0 (front ++ back).toList = r at h hclear ⊢
  rw [String.toList_append] at h
  obtain ⟨r', hr', hsame⟩ := h.insert hgap hclear
  rw [String.append_assoc, String.toList_append, String.toList_append, hr'.reading_eq]
  exact hsame

theorem Respaced.sameTokens {source source' : String} (h : Respaced source source') :
    SameTokens (reading 0 source.toList) (reading 0 source'.toList) := by
  cases h with
  | insert front gap back hgap hclear =>
      have hsame := sameTokens_insert hgap hclear
      exact ⟨hsame.tokens.symm, hsame.digits.symm⟩
  | remove front gap back hgap hclear => exact sameTokens_insert hgap hclear

/-- Gaps are put in and taken away one after the other. -/
theorem sameTokens_of_respaced {source source' : String}
    (h : Relation.ReflTransGen Respaced source source') :
    SameTokens (reading 0 source.toList) (reading 0 source'.toList) := by
  induction h with
  | refl => exact ⟨rfl, rfl⟩
  | tail _ hstep ih =>
      exact ⟨ih.tokens.trans hstep.sameTokens.tokens, ih.digits.trans hstep.sameTokens.digits⟩

theorem map_fst_takeAll (source : String) :
    (Cursor.ofSource source.toList).takeAll.1.map Prod.fst = (reading 0 source.toList).tokens := by
  rw [(tokenised_reading source).takeAll_eq, List.map_map]
  rfl

theorem parseWithin_eq_ok_iff_of_sameTokens {source source' : String}
    (h : SameTokens (reading 0 source.toList) (reading 0 source'.toList)) (limit : Nat) (e : Expr) :
    Expr.parseWithin limit source = .ok e ↔ Expr.parseWithin limit source' = .ok e := by
  have hfault : (reading 0 source.toList).fault = none ↔ (reading 0 source'.toList).fault = none := by
    rw [← Option.map_eq_none_iff (f := NumberTooLarge.digits), h.digits, Option.map_eq_none_iff]
  rw [Expr.parseWithin_eq_ok_iff_derivation, Expr.parseWithin_eq_ok_iff_derivation, h.tokens, hfault]

/-- Reading loses and invents nothing. A source is made up of the spellings of its tokens, one behind
the other, and of gaps; it ends with a gap, or with a number that is too large and whatever follows
that. Gaps that are put in between tokens or taken away there, without cutting or joining any, change
neither the tokens nor the tree that the source is parsed as, nor whether it is parsed at all. -/
theorem tokenising_lossless (source : String) :
    Tokenised source (reading 0 source.toList) ∧
    ∀ source', Relation.ReflTransGen Respaced source source' →
      (Cursor.ofSource source.toList).takeAll.1.map Prod.fst =
        (Cursor.ofSource source'.toList).takeAll.1.map Prod.fst ∧
      (Cursor.ofSource source.toList).takeAll.2.map NumberTooLarge.digits =
        (Cursor.ofSource source'.toList).takeAll.2.map NumberTooLarge.digits ∧
      ∀ limit e, Expr.parseWithin limit source = .ok e ↔ Expr.parseWithin limit source' = .ok e := by
  refine ⟨tokenised_reading source, ?_⟩
  intro source' h
  have hsame := sameTokens_of_respaced h
  refine ⟨?_, ?_, parseWithin_eq_ok_iff_of_sameTokens hsame⟩
  · rw [map_fst_takeAll, map_fst_takeAll, hsame.tokens]
  · rw [(tokenised_reading source).takeAll_eq, (tokenised_reading source').takeAll_eq]
    exact hsame.digits

theorem respaced_lessEqual :
    Respaced "n<=1" "n\t<=1" ∧ Respaced "n\t<=1" "n\t<= 1" := by
  have hclose : reading 0 ("n" ++ "<=1").toList =
      ⟨[⟨0, .count, ['n']⟩, ⟨1, .pair .lessEqual, ['<', '=']⟩, ⟨3, .number 1, ['1']⟩], none⟩ := by
    decide +kernel
  have htab : reading 0 ("n\t<=" ++ "1").toList =
      ⟨[⟨0, .count, ['n']⟩, ⟨2, .pair .lessEqual, ['<', '=']⟩, ⟨4, .number 1, ['1']⟩], none⟩ := by
    decide +kernel
  constructor
  · refine .insert "n" "\t" "<=1" (by decide) ⟨?_, ?_⟩
    all_goals rw [hclose]
    · decide
    · nofun
  · refine .insert "n\t<=" " " "1" (by decide) ⟨?_, ?_⟩
    all_goals rw [htab]
    · decide
    · nofun

theorem tokenising_lossless_lessEqual :
    Relation.ReflTransGen Respaced "n<=1" "n\t<= 1" ∧
      ∀ limit e, Expr.parseWithin limit "n<=1" = .ok e ↔
        Expr.parseWithin limit "n\t<= 1" = .ok e := by
  have h : Relation.ReflTransGen Respaced "n<=1" "n\t<= 1" :=
    .tail (.single respaced_lessEqual.1) respaced_lessEqual.2
  exact ⟨h, ((tokenising_lossless "n<=1").2 _ h).2.2⟩

end MessageCatalog.Plural
