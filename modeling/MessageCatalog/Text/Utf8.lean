/-! UTF-8: the bytes of a text, strict decoding, and decoding that never fails.

Lenient decoding reads each well-formed sequence as its character and each longest start of a
well-formed sequence that goes no further as one U+FFFD. The byte that breaks such a start is
read again from the beginning, so damage never reaches past the next well-formed character. -/

namespace MessageCatalog.Text

def encode (text : String) : List UInt8 :=
  text.toByteArray.data.toList

/-- The text that `bytes` spell, if they are well-formed UTF-8. -/
def decode? (bytes : List UInt8) : Option String :=
  String.fromUTF8? ⟨bytes.toArray⟩

/-- Bytes that `cs` takes. -/
def utf8Length : List Char → Nat
  | [] => 0
  | c :: cs => c.utf8Size + utf8Length cs

def replacement : Char := '\uFFFD'

/-- A sequence that has begun and is well-formed so far. -/
structure Opened where
  /-- How many bytes follow the next one. -/
  more : Nat
  /-- The range in which the next byte continues the sequence. -/
  low : UInt8
  high : UInt8
  /-- The bits of the code point read so far. -/
  bits : Nat

/-- What a byte that starts a sequence of several bytes opens. -/
def Opened.ofLead? (b : UInt8) : Option Opened :=
  if 0xC2 ≤ b ∧ b ≤ 0xDF then some ⟨0, 0x80, 0xBF, b.toNat - 0xC0⟩
  else if b = 0xE0 then some ⟨1, 0xA0, 0xBF, 0⟩
  else if b = 0xED then some ⟨1, 0x80, 0x9F, 0xD⟩
  else if 0xE1 ≤ b ∧ b ≤ 0xEF then some ⟨1, 0x80, 0xBF, b.toNat - 0xE0⟩
  else if b = 0xF0 then some ⟨2, 0x90, 0xBF, 0⟩
  else if 0xF1 ≤ b ∧ b ≤ 0xF3 then some ⟨2, 0x80, 0xBF, b.toNat - 0xF0⟩
  else if b = 0xF4 then some ⟨2, 0x80, 0x8F, 4⟩
  else none

/-- Reads `b` where no sequence is open. -/
def readFirst (b : UInt8) : List Char × Option Opened :=
  if b < 0x80 then ([Char.ofNat b.toNat], none)
  else
    match Opened.ofLead? b with
    | some opened => ([], some opened)
    | none => ([replacement], none)

/-- Reads `b` after the sequence `opened`. -/
def readNext (opened : Opened) (b : UInt8) : List Char × Option Opened :=
  if opened.low ≤ b ∧ b ≤ opened.high then
    let bits := opened.bits * 64 + (b.toNat - 0x80)
    match opened.more with
    | 0 => ([Char.ofNat bits], none)
    | more + 1 => ([], some ⟨more, 0x80, 0xBF, bits⟩)
  else
    let (cs, next) := readFirst b
    (replacement :: cs, next)

def readByte : Option Opened → UInt8 → List Char × Option Opened
  | none, b => readFirst b
  | some opened, b => readNext opened b

/-- Reads the rest of the input; a sequence still open at its end is broken there. -/
def decodeFrom : Option Opened → List UInt8 → List Char
  | none, [] => []
  | some _, [] => [replacement]
  | state, b :: bs =>
      let (cs, next) := readByte state b
      cs ++ decodeFrom next bs

def decodeLossy (bytes : List UInt8) : List Char :=
  decodeFrom none bytes

theorem decode?_encode (text : String) : decode? (encode text) = some text := by
  simp only [decode?, encode, Array.toArray_toList]
  have h : (⟨text.toByteArray.data⟩ : ByteArray) = text.toByteArray := rfl
  rw [h, String.fromUTF8?, dif_pos text.isValidUTF8]
  rfl

/-- What is decoded is the bytes of a text. -/
theorem decode?_eq_some_iff {bytes : List UInt8} {text : String} :
    decode? bytes = some text ↔ encode text = bytes := by
  constructor
  · intro h
    unfold decode? String.fromUTF8? at h
    split at h
    · cases h
      rfl
    · cases h
  · rintro rfl
    exact decode?_encode text

/-- What a sequence that is still open leaves when it is broken off. -/
def brokenOff : Option Opened → List Char
  | none => []
  | some _ => [replacement]

/-- An ASCII byte ends any open sequence and is read as itself. -/
theorem decodeFrom_ascii {state : Option Opened} {b : UInt8} (hb : b < 0x80)
    (hs : ∀ o ∈ state, 0x80 ≤ o.low) (bs : List UInt8) :
    decodeFrom state (b :: bs) = brokenOff state ++ Char.ofNat b.toNat :: decodeFrom none bs := by
  cases state with
  | none => simp [decodeFrom, readByte, readFirst, hb, brokenOff]
  | some o =>
      have ho : ¬ (o.low ≤ b ∧ b ≤ o.high) := by
        intro h
        have := hs o rfl
        simp only [UInt8.le_iff_toNat_le, UInt8.lt_iff_toNat_lt] at *
        omega
      simp [decodeFrom, readByte, readNext, ho, readFirst, hb, brokenOff]

end MessageCatalog.Text
