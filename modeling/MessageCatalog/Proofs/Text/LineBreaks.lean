import MessageCatalog.Text.Utf8

/-! # Lines of bytes that are decoded

A line feed is one byte, and no well-formed sequence of several bytes holds it or spells it. So a
sequence that is broken off at the end of a line takes nothing of the next line with it, and decoding
has the lines that the bytes have.
-/

namespace MessageCatalog.Text

/-! ## Sequences -/

/-- What a sequence keeps to while it is read: an ASCII byte does not continue it, and it does not come
to an ASCII character. -/
structure Opened.Valid (o : Opened) : Prop where
  low_le : 0x80 ≤ o.low
  spells : 2 ≤ o.bits ∨ 0 < o.more ∧ 2 ≤ o.bits * 64 + (o.low.toNat - 0x80)

theorem Opened.valid_of_ofLead? {b : UInt8} {o : Opened} (h : ofLead? b = some o) : o.Valid := by
  simp only [ofLead?, UInt8.le_iff_toNat_le, UInt8.reduceToNat] at h
  repeat' split at h
  all_goals cases h
  all_goals
    refine ⟨UInt8.le_iff_toNat_le.mpr (by simp), ?_⟩
    simp only [UInt8.reduceToNat]
    omega

theorem valid_of_mem_none : ∀ o ∈ (none : Option Opened), o.Valid := by
  intro o ho
  cases ho

theorem valid_of_mem_some {o : Opened} (ho : o.Valid) : ∀ o' ∈ some o, o'.Valid := by
  intro o' ho'
  rwa [← Option.mem_some.mp ho']

theorem eq_of_ofNat_eq_newline {k : Nat} (h : Char.ofNat k = '\n') : k = 10 := by
  by_cases hvalid : k.isValidChar
  · have hk : Char.ofNat k = Char.ofNatAux k hvalid := dif_pos hvalid
    exact congrArg Char.toNat (hk.symm.trans h)
  · have hk : Char.ofNat k = '\x00' := dif_neg hvalid
    exact absurd (hk.symm.trans h) (by decide)

/-- What reading the byte `b` keeps to. -/
structure Kept (b : UInt8) (read : List Char × Option Opened) : Prop where
  valid : ∀ o ∈ read.2, o.Valid
  newline : '\n' ∈ read.1 → b = 0x0A

theorem Kept.of_opened {b : UInt8} {o : Opened} (ho : o.Valid) : Kept b ([], some o) where
  valid := valid_of_mem_some ho
  newline := fun h => absurd h List.not_mem_nil

theorem kept_readFirst (b : UInt8) : Kept b (readFirst b) := by
  rw [readFirst]
  split
  · refine ⟨valid_of_mem_none, fun h => ?_⟩
    have hb := eq_of_ofNat_eq_newline (List.mem_singleton.mp h).symm
    exact UInt8.toNat_inj.mp hb
  · split
    · next o ho => exact .of_opened (Opened.valid_of_ofLead? ho)
    · exact ⟨valid_of_mem_none, fun h => absurd h (by decide)⟩

theorem kept_readNext {o : Opened} (ho : o.Valid) (b : UInt8) : Kept b (readNext o b) := by
  obtain ⟨more, low, high, bits⟩ := o
  have hlow : 0x80 ≤ low.toNat := UInt8.le_iff_toNat_le.mp ho.low_le
  have hspells : 2 ≤ bits ∨ 0 < more ∧ 2 ≤ bits * 64 + (low.toNat - 0x80) := ho.spells
  rw [readNext]
  split
  · next hb =>
      have hb : low.toNat ≤ b.toNat := UInt8.le_iff_toNat_le.mp hb.1
      cases more with
      | zero =>
          refine ⟨valid_of_mem_none, fun h => ?_⟩
          have hbits : bits * 64 + (b.toNat - 0x80) = 10 :=
            eq_of_ofNat_eq_newline (List.mem_singleton.mp h).symm
          omega
      | succ more =>
          have hbits : 2 ≤ bits * 64 + (b.toNat - 0x80) := by omega
          exact .of_opened ⟨UInt8.le_refl _, .inl hbits⟩
  · have hfirst := kept_readFirst b
    refine ⟨hfirst.valid, fun h => hfirst.newline ?_⟩
    exact (List.mem_cons.mp h).resolve_left (by decide)

theorem kept_readByte {state : Option Opened} (hs : ∀ o ∈ state, o.Valid) (b : UInt8) :
    Kept b (readByte state b) := by
  cases state with
  | none => exact kept_readFirst b
  | some o => exact kept_readNext (hs o rfl) b

/-! ## Lines -/

theorem notMem_of_mem_splitOn {α : Type} [BEq α] [LawfulBEq α] {a : α} {xs l : List α}
    (h : l ∈ xs.splitOn a) : a ∉ l := by
  induction xs generalizing l with
  | nil =>
      rw [List.splitOn_nil, List.mem_singleton] at h
      rw [h]
      exact List.not_mem_nil
  | cons x xs ih =>
      rw [List.splitOn_cons_eq_if_modifyHead] at h
      split at h
      · rcases List.mem_cons.mp h with rfl | h
        · exact List.not_mem_nil
        · exact ih h
      · next hx =>
          cases hs : xs.splitOn a with
          | nil => exact absurd hs (List.splitOn_ne_nil a xs)
          | cons first rest =>
              rw [hs] at h ih
              rcases List.mem_cons.mp h with rfl | h
              · rw [List.mem_cons, not_or]
                exact ⟨fun hax => hx (by simp [hax]), ih List.mem_cons_self⟩
              · exact ih (List.mem_cons_of_mem first h)

theorem decodeFrom_cons (state : Option Opened) (b : UInt8) (bs : List UInt8) :
    decodeFrom state (b :: bs) =
      (readByte state b).1 ++ decodeFrom (readByte state b).2 bs := by
  cases state <;> rfl

theorem mem_of_newline_mem_decodeFrom {state : Option Opened} (hs : ∀ o ∈ state, o.Valid)
    {bs : List UInt8} (h : '\n' ∈ decodeFrom state bs) : 0x0A ∈ bs := by
  induction bs generalizing state with
  | nil =>
      cases state with
      | none => cases h
      | some o => exact absurd (List.mem_singleton.mp h) (by decide)
  | cons b bs ih =>
      have hkept := kept_readByte hs b
      rw [decodeFrom_cons] at h
      rcases List.mem_append.mp h with h | h
      · exact hkept.newline h ▸ List.mem_cons_self
      · exact List.mem_cons_of_mem b (ih hkept.valid h)

/-- Whatever is open at the end of a line is broken off there. -/
theorem decodeFrom_append_newline {state : Option Opened} (hs : ∀ o ∈ state, o.Valid)
    (bs rest : List UInt8) :
    decodeFrom state (bs ++ 0x0A :: rest) = decodeFrom state bs ++ '\n' :: decodeFrom none rest := by
  induction bs generalizing state with
  | nil =>
      rw [List.nil_append, decodeFrom_ascii (by decide) fun o ho => (hs o ho).low_le]
      cases state <;> rfl
  | cons b bs ih =>
      rw [List.cons_append, decodeFrom_cons, decodeFrom_cons, ih (kept_readByte hs b).valid,
        List.append_assoc]

theorem decodeLossy_intercalate (lines : List (List UInt8)) :
    decodeLossy ([0x0A].intercalate lines) = ['\n'].intercalate (lines.map decodeLossy) := by
  induction lines with
  | nil => rfl
  | cons line lines ih =>
      cases lines with
      | nil => rw [List.map_singleton, List.intercalate_singleton, List.intercalate_singleton]
      | cons next lines =>
          have hline := decodeFrom_append_newline valid_of_mem_none line
            ([0x0A].intercalate (next :: lines))
          rw [← decodeLossy, ← decodeLossy, ← decodeLossy, ih] at hline
          rw [List.intercalate_cons_cons, List.append_assoc, List.singleton_append, hline]
          simp only [List.map_cons, List.intercalate_cons_cons, List.append_assoc,
            List.singleton_append]

/-- A text that is decoded has the lines of its bytes. -/
theorem splitOn_decodeLossy (bytes : List UInt8) :
    (decodeLossy bytes).splitOn '\n' = (bytes.splitOn 0x0A).map decodeLossy := by
  have hlines : ∀ line ∈ (bytes.splitOn 0x0A).map decodeLossy, '\n' ∉ line := by
    intro line hline hbreak
    obtain ⟨bs, hbs, rfl⟩ := List.mem_map.mp hline
    exact notMem_of_mem_splitOn hbs (mem_of_newline_mem_decodeFrom valid_of_mem_none hbreak)
  have hne : (bytes.splitOn 0x0A).map decodeLossy ≠ [] := by simp
  calc (decodeLossy bytes).splitOn '\n'
      = (decodeLossy ([0x0A].intercalate (bytes.splitOn 0x0A))).splitOn '\n' := by
        rw [List.intercalate_splitOn]
    _ = (['\n'].intercalate ((bytes.splitOn 0x0A).map decodeLossy)).splitOn '\n' := by
        rw [decodeLossy_intercalate]
    _ = (bytes.splitOn 0x0A).map decodeLossy := List.splitOn_intercalate _ hlines hne

end MessageCatalog.Text
