import MessageCatalog.Text.Numeral

/-! Tokens of plural rules, and the token that a text starts with. -/

namespace MessageCatalog.Plural

/-- Operators of two characters. -/
inductive Pair where
  | shiftLeft
  | shiftRight
  | logicalAnd
  | logicalOr
  | lessEqual
  | greaterEqual
  | equal
  | notEqual
deriving DecidableEq, Repr

namespace Pair

def text : Pair → String
  | shiftLeft => "<<"
  | shiftRight => ">>"
  | logicalAnd => "&&"
  | logicalOr => "||"
  | lessEqual => "<="
  | greaterEqual => ">="
  | equal => "=="
  | notEqual => "!="

def ofChars? : Char → Char → Option Pair
  | '<', '<' => some shiftLeft
  | '>', '>' => some shiftRight
  | '&', '&' => some logicalAnd
  | '|', '|' => some logicalOr
  | '<', '=' => some lessEqual
  | '>', '=' => some greaterEqual
  | '=', '=' => some equal
  | '!', '=' => some notEqual
  | _, _ => none

end Pair

inductive Token where
  | number (value : Int32)
  | count
  | pair (pair : Pair)
  /-- Any other character, whether or not a rule has a use for it. -/
  | char (c : Char)
  /-- Nothing is left. -/
  | finish
deriving DecidableEq, Repr

def Token.describe : Token → String
  | number value => s!"number {value.toInt}"
  | count => "'n'"
  | pair p => s!"'{p.text}'"
  | char c => s!"'{c}'"
  | finish => "end of expression"

/-- Characters that may stand between tokens. -/
def isGap (c : Char) : Bool :=
  c == ' ' || c == '\t' || c == '\n' || c == '\x0c' || c == '\r'

structure Lexeme where
  token : Token
  spelling : List Char
deriving DecidableEq, Repr

/-- The largest number that a rule can spell. -/
def maxNumber : Nat := 2147483647

/-- The lexeme of a run of digits, if its value is in range. -/
def Lexeme.ofDigits? (digits : List Char) : Option Lexeme :=
  let value := Text.decimalValue digits
  if value ≤ maxNumber then some ⟨.number (Int32.ofNat value), digits⟩ else none

/-- The lexeme that `cs` starts with: a pair wherever one stands, else all of a run of digits, else
one character. The digits are given back if they write too large a number. -/
def Lexeme.first : List Char → Except (List Char) Lexeme
  | [] => .ok ⟨.finish, []⟩
  | c :: cs =>
      match cs.head?.bind (Pair.ofChars? c) with
      | some p => .ok ⟨.pair p, p.text.toList⟩
      | none =>
          if c.isDigit then
            let digits := (c :: cs).takeWhile Char.isDigit
            (Lexeme.ofDigits? digits).elim (.error digits) .ok
          else if c = 'n' then .ok ⟨.count, [c]⟩
          else .ok ⟨.char c, [c]⟩

/-- A lexeme is spelled by the text in front of it. -/
theorem Lexeme.spelling_isPrefix {cs : List Char} {l : Lexeme} (h : Lexeme.first cs = .ok l) :
    l.spelling <+: cs := by
  cases cs with
  | nil =>
      obtain rfl := Except.ok.inj h
      exact List.nil_prefix
  | cons c cs =>
      simp only [Lexeme.first] at h
      split at h
      · next p hp =>
          obtain rfl := Except.ok.inj h
          cases cs with
          | nil => simp at hp
          | cons d cs =>
              simp only [List.head?_cons, Option.bind_some, Pair.ofChars?] at hp
              split at hp <;> first | (obtain rfl := Option.some.inj hp; exact ⟨cs, rfl⟩) | cases hp
      · split at h
        · simp only [Lexeme.ofDigits?] at h
          split at h
          · obtain rfl := Except.ok.inj h
            exact List.takeWhile_prefix _
          · cases h
        · split at h <;>
          · obtain rfl := Except.ok.inj h
            exact ⟨cs, rfl⟩

end MessageCatalog.Plural
