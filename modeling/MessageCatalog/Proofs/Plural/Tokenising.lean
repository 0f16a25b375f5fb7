import MessageCatalog.Proofs.Plural.Offsets
import MessageCatalog.Proofs.Plural.Spelling
import MessageCatalog.Proofs.Text.Utf8

/-! # Taking all tokens

Taking tokens one after the other goes along the spellings of a source. These stand one behind the
other in it, and each begins and ends where a character does.
-/

namespace MessageCatalog.Plural

open Text (utf8Length)

/-! ## Spans -/

/-- Where the lexeme ends. -/
def Placed.stop (l : Placed) : Nat :=
  l.start + utf8Length l.lexeme.spelling

/-- The bytes of the source from `start` up to `stop` are those of `cs`, and both are offsets where a
character starts or the source ends. -/
structure Slice (source : String) (start stop : Nat) (cs : List Char) : Prop where
  start_valid : String.Pos.Raw.IsValid source ⟨start⟩
  stop_valid : String.Pos.Raw.IsValid source ⟨stop⟩
  bytes_eq : ((Text.encode source).take stop).drop start = Text.encode (.ofList cs)

theorem length_encode_ofList (cs : List Char) :
    (Text.encode (.ofList cs)).length = utf8Length cs := by
  rw [Text.encode_eq, String.toList_ofList]
  induction cs with
  | nil => rfl
  | cons c cs ih =>
      rw [List.flatMap_cons, List.length_append, String.length_utf8EncodeChar, ih, utf8Length]

theorem utf8Length_toList (source : String) : utf8Length source.toList = source.utf8ByteSize := by
  rw [← length_encode_ofList, String.ofList_toList]
  rfl

theorem isValid_of_split {source : String} {before after : List Char}
    (h : source.toList = before ++ after) :
    String.Pos.Raw.IsValid source ⟨utf8Length before⟩ := by
  rw [String.Pos.Raw.isValid_iff_exists_append]
  refine ⟨.ofList before, .ofList after, ?_, ?_⟩
  · rw [← String.ofList_append, ← h, String.ofList_toList]
  · rw [← length_encode_ofList]
    rfl

theorem slice_of_split {source : String} {before cs after : List Char}
    (h : source.toList = before ++ (cs ++ after)) :
    Slice source (utf8Length before) (utf8Length before + utf8Length cs) cs where
  start_valid := isValid_of_split h
  stop_valid := by
    rw [← List.append_assoc] at h
    rw [← utf8Length_append]
    exact isValid_of_split h
  bytes_eq := by
    have hsource : source = .ofList before ++ (.ofList cs ++ .ofList after) := by
      rw [← String.ofList_append, ← String.ofList_append, ← h, String.ofList_toList]
    have hlength : (Text.encode (.ofList before) ++ Text.encode (.ofList cs)).length =
        utf8Length before + utf8Length cs := by
      rw [List.length_append, length_encode_ofList, length_encode_ofList]
    rw [hsource, Text.encode_append, Text.encode_append, ← List.append_assoc,
      List.take_left' hlength, List.drop_left' (length_encode_ofList before)]

/-- A spelling stands where its lexeme is placed. -/
theorem Spelled.slices {source : String} {before cs : List Char} {r : Reading}
    (h : Spelled (utf8Length before) cs r) (hsource : source.toList = before ++ cs) :
    (∀ l ∈ r.lexemes, Slice source l.start l.stop l.lexeme.spelling) ∧
    ∀ fault, r.fault = some fault →
      Slice source fault.offset (fault.offset + utf8Length fault.digits) fault.digits := by
  generalize hposition : utf8Length before = position at h
  induction h generalizing before with
  | finish => simp
  | @fault position gap digits rest =>
      refine ⟨by simp, ?_⟩
      rintro fault ⟨⟩
      rw [← List.append_assoc] at hsource
      rw [← hposition, ← utf8Length_append]
      exact slice_of_split hsource
  | @lexeme position gap spelling rest t r _ _ _ ih =>
      rw [← hposition, ← utf8Length_append] at ih ⊢
      have hrest : source.toList = before ++ gap ++ spelling ++ rest := by
        simp only [hsource, List.append_assoc]
      obtain ⟨hlexemes, hfault⟩ := ih hrest (utf8Length_append _ _)
      refine ⟨?_, hfault⟩
      intro l hl
      rcases List.mem_cons.mp hl with rfl | hl
      · rw [List.append_assoc] at hrest
        exact slice_of_split hrest
      · exact hlexemes l hl

theorem utf8Length_pos_of_ne_nil {cs : List Char} (h : cs ≠ []) : 0 < utf8Length cs := by
  obtain ⟨c, ds, rfl⟩ := List.exists_cons_of_ne_nil h
  exact Nat.add_pos_left c.utf8Size_pos _

/-- Lexemes stand one behind the other and none of them is empty. -/
theorem Spelled.ordered {position : Nat} {cs : List Char} {r : Reading}
    (h : Spelled position cs r) :
    (∀ l ∈ r.lexemes, position ≤ l.start ∧ l.start < l.stop) ∧
      r.lexemes.Pairwise fun a b => a.stop ≤ b.start := by
  induction h with
  | finish => exact ⟨by simp, .nil⟩
  | fault => exact ⟨by simp, .nil⟩
  | @lexeme position gap spelling rest t r _ hspells _ ih =>
      obtain ⟨c, cs, hcs, -⟩ := hspells.exists_cons
      have hpos := utf8Length_pos_of_ne_nil (hcs ▸ List.cons_ne_nil c cs)
      refine ⟨?_, .cons (fun l hl => (ih.1 l hl).1) ih.2⟩
      intro l hl
      rcases List.mem_cons.mp hl with rfl | hl
      · exact ⟨Nat.le_add_right _ _, Nat.lt_add_of_pos_right hpos⟩
      · have hle := ih.1 l hl
        exact ⟨by omega, hle.2⟩

/-! ## Taking all tokens -/

namespace Cursor

/-- The characters in front of the cursor, and its lookahead for one more. -/
def remaining (c : Cursor) : Nat :=
  c.rest.length + c.lookahead.isSome.toNat

theorem length_lt_of_scan {c d : Cursor} {start : Nat} {t : Token} (h : c.scan = .ok (start, t) d)
    (ht : t ≠ .finish) : d.rest.length < c.rest.length := by
  have hgap := (List.dropWhile_suffix (l := c.rest) isGap).length_le
  simp only [scan] at h
  split at h
  · next l hfirst =>
      cases h
      simp only [skip, skipGap, List.length_drop] at hfirst ⊢
      cases hrest : c.rest.dropWhile isGap with
      | nil =>
          rw [hrest] at hfirst
          cases hfirst
          exact absurd rfl ht
      | cons a cs =>
          rw [hrest] at hfirst hgap
          have hl := (Lexeme.of_first_cons hfirst).2
          simp only [List.length_cons] at hgap ⊢
          omega
  · cases h

theorem remaining_lt_of_advance {c d : Cursor} {t : Token} (h : c.advance = .ok t d)
    (ht : t ≠ .finish) : d.remaining < c.remaining := by
  obtain ⟨position, rest, lookahead⟩ := c
  cases lookahead with
  | some seen =>
      cases h
      exact Nat.lt_succ_self _
  | none =>
      simp only [advance] at h
      split at h
      · next hs =>
          cases h
          have hlook := lookahead_of_scan hs
          have hlength := length_lt_of_scan hs ht
          simpa [remaining, hlook] using hlength
      · cases h

/-- The tokens that come when one after the other is taken, each with the offset that the cursor
tells behind it, up to the end or to the first failure. -/
def takeAll (c : Cursor) : List (Token × Nat) × Option NumberTooLarge :=
  match _ : c.advance with
  | .ok t d =>
      if _ : t = .finish then ([], none)
      else
        let (taken, fault) := d.takeAll
        ((t, d.offset) :: taken, fault)
  | .error fault _ => ([], some fault)
termination_by c.remaining
decreasing_by exact remaining_lt_of_advance ‹_› ‹_›

theorem takeAll_of_token {c d : Cursor} {t : Token} (h : c.advance = .ok t d) (ht : t ≠ .finish) :
    c.takeAll = ((t, d.offset) :: d.takeAll.1, d.takeAll.2) := by
  rw [takeAll]
  split
  · next t' d' h' =>
      cases h.symm.trans h'
      rw [dif_neg ht]
  · next h' => cases h.symm.trans h'

theorem takeAll_of_finish {c d : Cursor} (h : c.advance = .ok .finish d) :
    c.takeAll = ([], none) := by
  rw [takeAll]
  split
  · next t' d' h' =>
      cases h.symm.trans h'
      rw [dif_pos rfl]
  · next h' => cases h.symm.trans h'

theorem takeAll_of_fault {c d : Cursor} {fault : NumberTooLarge}
    (h : c.advance = .error fault d) : c.takeAll = ([], some fault) := by
  rw [takeAll]
  split
  · next h' => cases h.symm.trans h'
  · next fault' d' h' =>
      cases h.symm.trans h'
      rfl

theorem skipGap_append {gap cs : List Char} (hgap : IsGapText gap)
    (hcs : ∀ c ∈ cs.head?, isGap c = false) (position : Nat) (lookahead : Option (Nat × Token)) :
    skipGap ⟨position, gap ++ cs, lookahead⟩ = ⟨position + utf8Length gap, cs, lookahead⟩ := by
  have hstop : cs.takeWhile isGap = [] ∧ cs.dropWhile isGap = cs := by
    cases cs with
    | nil => exact ⟨rfl, rfl⟩
    | cons c cs => simp [hcs c rfl]
  simp only [skipGap]
  rw [List.takeWhile_append_of_pos hgap, List.dropWhile_append_of_pos hgap, hstop.1, hstop.2,
    List.append_nil]

theorem scan_of_spells {gap spelling rest : List Char} {t : Token} (hgap : IsGapText gap)
    (h : Spells spelling t rest) (position : Nat) (lookahead : Option (Nat × Token)) :
    scan ⟨position, gap ++ (spelling ++ rest), lookahead⟩ =
      .ok (position + utf8Length gap, t)
        ⟨position + utf8Length gap + utf8Length spelling, rest, lookahead⟩ := by
  have hhead : ∀ c ∈ (spelling ++ rest).head?, isGap c = false := by
    obtain ⟨c, cs, rfl, hc⟩ := h.exists_cons
    rintro _ ⟨⟩
    exact hc
  simp only [scan, skipGap_append hgap hhead, h.first_eq, skip, List.drop_left]

theorem scan_of_oversize {gap digits rest : List Char} (hgap : IsGapText gap)
    (h : Oversize digits rest) (position : Nat) (lookahead : Option (Nat × Token)) :
    scan ⟨position, gap ++ (digits ++ rest), lookahead⟩ =
      .error ⟨digits, position + utf8Length gap⟩
        ⟨position + utf8Length gap, digits ++ rest, lookahead⟩ := by
  have hhead : ∀ c ∈ (digits ++ rest).head?, isGap c = false := by
    obtain ⟨c, cs, rfl, hc⟩ := h.exists_cons
    rintro _ ⟨⟩
    exact isGap_of_isDigit hc
  simp only [scan, skipGap_append hgap hhead, h.first_eq]

theorem scan_of_gap {gap : List Char} (hgap : IsGapText gap) (position : Nat)
    (lookahead : Option (Nat × Token)) :
    scan ⟨position, gap, lookahead⟩ =
      .ok (position + utf8Length gap, .finish) ⟨position + utf8Length gap, [], lookahead⟩ := by
  have hskip := @skipGap_append gap [] hgap nofun position lookahead
  rw [List.append_nil] at hskip
  simp only [scan, hskip]
  rfl

/-- What is taken is what the text spells. -/
theorem takeAll_of_spelled {position : Nat} {cs : List Char} {r : Reading}
    (h : Spelled position cs r) :
    takeAll ⟨position, cs, none⟩ = (r.lexemes.map fun l => (l.lexeme.token, l.stop), r.fault) := by
  induction h with
  | finish position hgap =>
      apply takeAll_of_finish
      rw [advance, scan_of_gap hgap]
  | fault position hgap hover =>
      apply takeAll_of_fault
      rw [advance, scan_of_oversize hgap hover]
  | @lexeme position gap spelling rest t r hgap hspells _ ih =>
      have hadvance : advance ⟨position, gap ++ (spelling ++ rest), none⟩ =
          .ok t ⟨position + utf8Length gap + utf8Length spelling, rest, none⟩ := by
        rw [advance, scan_of_spells hgap hspells]
      rw [takeAll_of_token hadvance hspells.ne_finish, ih]
      rfl

end Cursor

/-! ## Sources -/

/-- What the tokens of a source are taken from. -/
structure Tokenised (source : String) (r : Reading) : Prop where
  /-- Spellings and gaps make up the source. -/
  spelled : Spelled 0 source.toList r
  unique : ∀ r', Spelled 0 source.toList r' → r' = r
  /-- The tokens that are taken are the ones that are spelled, and the cursor then stands behind
  their spellings. -/
  takeAll_eq : (Cursor.ofSource source.toList).takeAll =
    (r.lexemes.map fun l => (l.lexeme.token, l.stop), r.fault)
  nonempty : ∀ l ∈ r.lexemes, l.start < l.stop
  disjoint : r.lexemes.Pairwise fun a b => a.stop ≤ b.start
  slices : ∀ l ∈ r.lexemes, Slice source l.start l.stop l.lexeme.spelling
  fault_slice : ∀ fault, r.fault = some fault →
    Slice source fault.offset (fault.offset + utf8Length fault.digits) fault.digits

theorem tokenised_reading (source : String) :
    Tokenised source (reading 0 source.toList) := by
  have h := spelled_reading 0 source.toList
  obtain ⟨hlexemes, hdisjoint⟩ := h.ordered
  have hwhole : Spelled (utf8Length []) source.toList (reading 0 source.toList) := h
  obtain ⟨hslices, hfault⟩ := hwhole.slices rfl
  exact ⟨h, fun r' h' => (spelled_iff.mp h').symm, Cursor.takeAll_of_spelled h,
    fun l hl => (hlexemes l hl).2, hdisjoint, hslices, hfault⟩

end MessageCatalog.Plural
