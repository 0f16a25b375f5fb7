import MessageCatalog.Bytes.Cluster
import MessageCatalog.Bytes.Reader
import MessageCatalog.Catalog.Layout

/-! Writing catalogs.

Seven words come first, then the table of msgids, the table of msgstrs, and the strings in the
order of the tables, each with a NUL after it. The last two words describe a hash table of no
size. -/

namespace MessageCatalog

open Bytes

structure Message where
  msgid : List UInt8
  msgstr : List UInt8
deriving DecidableEq, Repr

namespace Writer

/-- Messages in the order that lookups need. Messages with one leading string stay as they are. -/
def sorted (messages : List Message) : List Message :=
  messages.mergeSort fun a b => (compareLeading a.msgid b.msgid).isLE

/-- Bytes that the words before the tables take. -/
def preambleSize : Nat := 28

/-- The length and the offset of each string, the first of which stands at `start`. -/
def entries (start : Nat) : List (List UInt8) → List (Nat × Nat)
  | [] => []
  | s :: strings => (s.length, start) :: entries (start + s.length + 1) strings

/-- The words of a catalog whose strings are `msgids` and then `msgstrs`, as many of either. -/
def words (msgids msgstrs : List (List UInt8)) : List Nat :=
  let tableSize := 8 * msgids.length
  let stringsAt := preambleSize + 2 * tableSize
  [magic.toNat, 0, msgids.length, preambleSize, preambleSize + tableSize, 0, stringsAt]
    ++ (entries stringsAt (msgids ++ msgstrs)).flatMap fun (length, offset) =>
      [length, offset]

/-- The catalog with the given header and the messages as they come. -/
def write (order : ByteOrder) (header : List UInt8) (messages : List Message) : List UInt8 :=
  let all := ⟨[], header⟩ :: messages
  let msgids := all.map Message.msgid
  let msgstrs := all.map Message.msgstr
  (words msgids msgstrs).flatMap (fun w => order.bytes (UInt32.ofNat w))
    ++ (msgids ++ msgstrs).flatMap (· ++ [0])

end Writer

end MessageCatalog
