import MessageCatalog.Catalog.Basic
import MessageCatalog.Catalog.Search
import MessageCatalog.Plural.Expr.Eval

/-! Finding the msgstr of a message. -/

namespace MessageCatalog.Catalog

open Bytes

/-- The entry whose own msgid leads with the same string as `msgid`. An empty one asks for the
header, and nothing else finds it. -/
def find? (c : Catalog) (msgid : List UInt8) : Option Nat :=
  let key := leading msgid
  if key = [] then
    if c.layout.msgstrs.isEmpty then none else some 0
  else search (fun i => compareLeading (c.msgid i) key) 1 c.layout.msgids.size

/-- The whole msgstr of a message that is found. One whose leading string is empty counts as
none: the message is untranslated. -/
def cluster? (c : Catalog) (msgid : List UInt8) : Option (List UInt8) := do
  let cluster := c.msgstr (← c.find? msgid)
  if leading cluster = [] then none else some cluster

def singular? (c : Catalog) (msgid : List UInt8) : Option (List UInt8) :=
  (c.cluster? msgid).map leading

/-- The string of a cluster at a plural index. -/
def variantAt? (cluster : List UInt8) (index : Int32) : Option (List UInt8) :=
  if index < 0 then none else (segments cluster)[index.toNatClampNeg]?

/-- The variant for the count `n`. The plural rule is asked only about a translated message. -/
def variant? (c : Catalog) (msgid : List UInt8) (n : Int32) :
    Except Plural.EvalError (Option (List UInt8)) :=
  match c.cluster? msgid, c.rule with
  | some cluster, some rule => (rule.eval n).map (variantAt? cluster)
  | _, _ => .ok none

end MessageCatalog.Catalog
