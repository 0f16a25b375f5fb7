import MessageCatalog.Text.Utf8

/-! # Lenient decoding of well-formed text

A lead byte opens a sequence that holds the upper bits of the character, and every further byte adds
six. On the bytes of a text nothing is ever broken off, so that the text comes back.
-/

namespace MessageCatalog.Text

/-! ## Steps of a sequence -/

theorem decodeFrom_of_ofLead? {b : UInt8} {o : Opened} (hb : ¬ b < 0x80)
    (ho : Opened.ofLead? b = some o) (bs : List UInt8) :
    decodeFrom none (b :: bs) = decodeFrom (some o) bs := by
  simp [decodeFrom, readByte, readFirst, hb, ho]

theorem decodeFrom_of_more {more : Nat} {low high b : UInt8} {bits : Nat} (hlow : low ≤ b)
    (hhigh : b ≤ high) (bs : List UInt8) :
    decodeFrom (some ⟨more + 1, low, high, bits⟩) (b :: bs) =
      decodeFrom (some ⟨more, 0x80, 0xBF, bits * 64 + (b.toNat - 0x80)⟩) bs := by
  simp [decodeFrom, readByte, readNext, hlow, hhigh]

theorem decodeFrom_of_last {low high b : UInt8} {bits : Nat} (hlow : low ≤ b) (hhigh : b ≤ high)
    (bs : List UInt8) :
    decodeFrom (some ⟨0, low, high, bits⟩) (b :: bs) =
      Char.ofNat (bits * 64 + (b.toNat - 0x80)) :: decodeFrom none bs := by
  simp [decodeFrom, readByte, readNext, hlow, hhigh]

/-- The byte that adds the six bits `k` to a sequence. -/
def continuation (k : Nat) : UInt8 :=
  .ofNat (k % 64 + 128)

theorem toNat_continuation (k : Nat) : (continuation k).toNat = k % 64 + 128 := by
  rw [continuation, UInt8.toNat_ofNat']
  omega

theorem le_continuation (k : Nat) : 0x80 ≤ continuation k := by
  rw [UInt8.le_iff_toNat_le, toNat_continuation]
  exact Nat.le_add_left _ _

theorem continuation_le (k : Nat) : continuation k ≤ 0xBF := by
  rw [UInt8.le_iff_toNat_le, toNat_continuation]
  change k % 64 + 128 ≤ 191
  omega

/-! ## Lead bytes -/

theorem ofLead?_two {v : Nat} (h : 0x80 ≤ v) (hv : v < 0x800) :
    Opened.ofLead? (.ofNat (v / 64 % 32 + 192)) = some ⟨0, 0x80, 0xBF, v / 64⟩ := by
  unfold Opened.ofLead?
  simp only [UInt8.le_iff_toNat_le, ← UInt8.toNat_inj, UInt8.toNat_ofNat', UInt8.reduceToNat]
  rw [if_pos (by omega)]
  simp only [Option.some.injEq, Opened.mk.injEq, true_and]
  omega

/-- The second byte of three has a narrower range after two of the lead bytes, which leaves out what
fewer bytes write and the surrogates. -/
theorem exists_ofLead?_three {v : Nat} (h : 0x800 ≤ v) (hv : v < 0x10000)
    (hs : v < 0xD800 ∨ 0xDFFF < v) :
    ∃ low high, Opened.ofLead? (.ofNat (v / 4096 % 16 + 224)) = some ⟨1, low, high, v / 4096⟩ ∧
      low ≤ continuation (v / 64) ∧ continuation (v / 64) ≤ high := by
  unfold Opened.ofLead?
  simp only [UInt8.le_iff_toNat_le, ← UInt8.toNat_inj, UInt8.toNat_ofNat', UInt8.reduceToNat,
    toNat_continuation]
  rw [if_neg (by omega)]
  split
  · refine ⟨0xA0, 0xBF, ?_, ?_, ?_⟩
    · rw [show v / 4096 = 0 by omega]
    · change 160 ≤ v / 64 % 64 + 128
      omega
    · change v / 64 % 64 + 128 ≤ 191
      omega
  · split
    · refine ⟨0x80, 0x9F, ?_, ?_, ?_⟩
      · rw [show v / 4096 = 0xD by omega]
      · change 128 ≤ v / 64 % 64 + 128
        omega
      · change v / 64 % 64 + 128 ≤ 159
        omega
    · rw [if_pos (by omega)]
      refine ⟨0x80, 0xBF, ?_, ?_, ?_⟩
      · rw [show (v / 4096 % 16 + 224) % 2 ^ 8 - 224 = v / 4096 by omega]
      · change 128 ≤ v / 64 % 64 + 128
        omega
      · change v / 64 % 64 + 128 ≤ 191
        omega

/-- The second byte of four has a narrower range after the first and the last lead byte, which leaves
out what fewer bytes write and what no character has for its number. -/
theorem exists_ofLead?_four {v : Nat} (h : 0x10000 ≤ v) (hv : v < 0x110000) :
    ∃ low high, Opened.ofLead? (.ofNat (v / 262144 % 8 + 240)) = some ⟨2, low, high, v / 262144⟩ ∧
      low ≤ continuation (v / 4096) ∧ continuation (v / 4096) ≤ high := by
  unfold Opened.ofLead?
  simp only [UInt8.le_iff_toNat_le, ← UInt8.toNat_inj, UInt8.toNat_ofNat', UInt8.reduceToNat,
    toNat_continuation]
  rw [if_neg (by omega), if_neg (by omega), if_neg (by omega), if_neg (by omega)]
  split
  · refine ⟨0x90, 0xBF, ?_, ?_, ?_⟩
    · rw [show v / 262144 = 0 by omega]
    · change 144 ≤ v / 4096 % 64 + 128
      omega
    · change v / 4096 % 64 + 128 ≤ 191
      omega
  · split
    · refine ⟨0x80, 0xBF, ?_, ?_, ?_⟩
      · rw [show (v / 262144 % 8 + 240) % 2 ^ 8 - 240 = v / 262144 by omega]
      · change 128 ≤ v / 4096 % 64 + 128
        omega
      · change v / 4096 % 64 + 128 ≤ 191
        omega
    · rw [if_pos (by omega)]
      refine ⟨0x80, 0x8F, ?_, ?_, ?_⟩
      · rw [show v / 262144 = 4 by omega]
      · change 128 ≤ v / 4096 % 64 + 128
        omega
      · change v / 4096 % 64 + 128 ≤ 143
        omega

theorem not_lt_lead {k : Nat} (h : 192 ≤ k) (hk : k < 256) : ¬ UInt8.ofNat k < 0x80 := by
  rw [UInt8.lt_iff_toNat_lt, UInt8.toNat_ofNat']
  change ¬ k % 2 ^ 8 < 128
  omega

/-! ## Characters of each width -/

section

variable {v : Nat} (bs : List UInt8)

theorem decodeFrom_one (hv : v < 0x80) :
    decodeFrom none (.ofNat v :: bs) = Char.ofNat v :: decodeFrom none bs := by
  have hn : (UInt8.ofNat v).toNat = v := by
    rw [UInt8.toNat_ofNat']
    omega
  have hb : UInt8.ofNat v < 0x80 := by
    rw [UInt8.lt_iff_toNat_lt, hn]
    exact hv
  rw [decodeFrom_ascii hb (by simp), hn]
  rfl

theorem decodeFrom_two (h : 0x80 ≤ v) (hv : v < 0x800) :
    decodeFrom none (.ofNat (v / 64 % 32 + 192) :: continuation v :: bs) =
      Char.ofNat v :: decodeFrom none bs := by
  have hbits : v / 64 * 64 + ((continuation v).toNat - 0x80) = v := by
    rw [toNat_continuation]
    omega
  rw [decodeFrom_of_ofLead? (not_lt_lead (by omega) (by omega)) (ofLead?_two h hv),
    decodeFrom_of_last (le_continuation v) (continuation_le v), hbits]

theorem decodeFrom_three (h : 0x800 ≤ v) (hv : v < 0x10000) (hs : v < 0xD800 ∨ 0xDFFF < v) :
    decodeFrom none (.ofNat (v / 4096 % 16 + 224) :: continuation (v / 64) :: continuation v :: bs) =
      Char.ofNat v :: decodeFrom none bs := by
  obtain ⟨low, high, hlead, hlow, hhigh⟩ := exists_ofLead?_three h hv hs
  have hbits : (v / 4096 * 64 + ((continuation (v / 64)).toNat - 0x80)) * 64 +
      ((continuation v).toNat - 0x80) = v := by
    rw [toNat_continuation, toNat_continuation]
    omega
  rw [decodeFrom_of_ofLead? (not_lt_lead (by omega) (by omega)) hlead,
    decodeFrom_of_more hlow hhigh, decodeFrom_of_last (le_continuation v) (continuation_le v), hbits]

theorem decodeFrom_four (h : 0x10000 ≤ v) (hv : v < 0x110000) :
    decodeFrom none (.ofNat (v / 262144 % 8 + 240) :: continuation (v / 4096) ::
        continuation (v / 64) :: continuation v :: bs) =
      Char.ofNat v :: decodeFrom none bs := by
  obtain ⟨low, high, hlead, hlow, hhigh⟩ := exists_ofLead?_four h hv
  have hbits : ((v / 262144 * 64 + ((continuation (v / 4096)).toNat - 0x80)) * 64 +
      ((continuation (v / 64)).toNat - 0x80)) * 64 + ((continuation v).toNat - 0x80) = v := by
    rw [toNat_continuation, toNat_continuation, toNat_continuation]
    omega
  rw [decodeFrom_of_ofLead? (not_lt_lead (by omega) (by omega)) hlead,
    decodeFrom_of_more hlow hhigh, decodeFrom_of_more (le_continuation _) (continuation_le _),
    decodeFrom_of_last (le_continuation v) (continuation_le v), hbits]

end

/-! ## Texts -/

theorem decodeFrom_utf8EncodeChar (c : Char) (bs : List UInt8) :
    decodeFrom none (String.utf8EncodeChar c ++ bs) = c :: decodeFrom none bs := by
  have hc : Char.ofNat c.val.toNat = c := Char.ofNat_toNat c
  have hvalid : c.val.toNat < 0xD800 ∨ 0xDFFF < c.val.toNat ∧ c.val.toNat < 0x110000 := c.valid
  rw [String.utf8EncodeChar]
  generalize c.val.toNat = v at hc hvalid ⊢
  subst hc
  split
  · next h => exact decodeFrom_one bs (by omega)
  · split
    · next h₁ h₂ => exact decodeFrom_two bs (by omega) (by omega)
    · split
      · next h₁ h₂ h₃ => exact decodeFrom_three bs (by omega) (by omega) (by omega)
      · next h₁ h₂ h₃ => exact decodeFrom_four bs (by omega) (by omega)

theorem encode_eq (text : String) : encode text = text.toList.flatMap String.utf8EncodeChar := by
  calc
    encode text = (String.ofList text.toList).toByteArray.data.toList := by
      rw [String.ofList_toList, encode]
    _ = text.toList.flatMap String.utf8EncodeChar := by
      rw [String.toByteArray_ofList]
      exact List.toList_data_toByteArray

theorem encode_append (a b : String) : encode (a ++ b) = encode a ++ encode b := by
  rw [encode_eq, encode_eq, encode_eq, String.toList_append, List.flatMap_append]

theorem decodeLossy_encode (text : String) : decodeLossy (encode text) = text.toList := by
  rw [decodeLossy, encode_eq]
  induction text.toList with
  | nil => rfl
  | cons c cs ih => rw [List.flatMap_cons, decodeFrom_utf8EncodeChar, ih]

/-! ## ASCII -/

theorem eq_ofNat_iff_of_ascii {k : Nat} (hk : k < 0x80) (c : Char) :
    c = Char.ofNat k ↔ c.val.toNat = k := by
  constructor
  · rintro rfl
    have hvalid : k.isValidChar := .inl (by omega)
    rw [Char.ofNat, dif_pos hvalid]
    rfl
  · rintro rfl
    exact (Char.ofNat_toNat c).symm

/-- A byte of ASCII never stands inside a longer sequence, but for its own character. -/
theorem mem_utf8EncodeChar_iff_of_ascii {k : Nat} (hk : k < 0x80) (c : Char) :
    UInt8.ofNat k ∈ String.utf8EncodeChar c ↔ c = Char.ofNat k := by
  rw [eq_ofNat_iff_of_ascii hk, String.utf8EncodeChar]
  generalize c.val.toNat = v
  repeat' split
  all_goals
    simp only [List.mem_cons, List.not_mem_nil, or_false, ← UInt8.toNat_inj, UInt8.toNat_ofNat']
    omega

theorem mem_encode_iff_of_ascii {k : Nat} (hk : k < 0x80) (text : String) :
    UInt8.ofNat k ∈ encode text ↔ Char.ofNat k ∈ text.toList := by
  simp only [encode_eq, List.mem_flatMap, mem_utf8EncodeChar_iff_of_ascii hk, exists_eq_right]

end MessageCatalog.Text
