import MessageCatalog.Settings.Field

/-! TOML tables, and what may be added to them.

A name has one meaning for good, as `MessageCatalog.Proofs.Settings.Table` says. A table may be opened
by one header only; dotted keys extend tables made by dotted keys alone; headers reach through
everything but values. -/

namespace MessageCatalog.Settings.Toml

/-- How a table came about. -/
inductive Origin where
  /-- By a header of its own, or as the root. -/
  | header
  /-- On the way to the table of a header. -/
  | implied
  /-- On the way of a dotted key. -/
  | dotted
deriving DecidableEq, Repr

inductive Node where
  | value (value : Scalar)
  | table (origin : Origin) (entries : List (String × Node))
  /-- An array of tables. Nothing but its last table can be reached. -/
  | tables (last : List (String × Node))

abbrev Entries := List (String × Node)

/-- Puts `node` in the place of what has the key, or at the end. -/
def Entries.put (key : String) (node : Node) : Entries → Entries
  | [] => [(key, node)]
  | e :: es => if e.1 = key then (key, node) :: es else e :: Entries.put key node es

/-- Changes the table that `path` leads to from a table with the given origin and entries. Missing
tables are made with the origin `made`. -/
def change (made : Origin) (f : Origin → Entries → Option Entries) :
    (path : List String) → Origin → Entries → Option Entries
  | [], origin, entries => f origin entries
  | key :: path, _, entries =>
      match entries.lookup key with
      | none => do
          let inner ← change made f path made []
          return Entries.put key (.table made inner) entries
      | some (.value _) => none
      | some (.table origin inner) =>
          if made = .dotted ∧ origin = .header then none
          else do
            let inner ← change made f path origin inner
            return Entries.put key (.table origin inner) entries
      | some (.tables last) => do
          let last ← change made f path .header last
          return Entries.put key (.tables last) entries

/-- Gives the last key of a dotted key its value, in the table that the keys before it lead to. -/
def assign (keys : List String) (value : Scalar) (origin : Origin) (entries : Entries) :
    Option Entries := do
  let key ← keys.getLast?
  let path := keys.dropLast
  change .dotted (fun origin entries =>
      if (origin = .dotted ↔ path = []) ∨ (entries.lookup key).isSome then none
      else some (entries ++ [(key, .value value)]))
    path origin entries

/-- Changes what a header names, in the table that holds it. -/
def declare (f : Option Node → Option Node) (keys : List String) (root : Entries) :
    Option Entries := do
  let key ← keys.getLast?
  change .implied (fun _ entries => do return Entries.put key (← f (entries.lookup key)) entries)
    keys.dropLast .header root

/-- A header opens a table that is new or was only passed through. -/
def openTable : Option Node → Option Node
  | none => some (.table .header [])
  | some (.table .implied entries) => some (.table .header entries)
  | some _ => none

/-- A header in double brackets opens one more table of an array. -/
def openNextTable : Option Node → Option Node
  | none => some (.tables [])
  | some (.tables _) => some (.tables [])
  | some _ => none

/-- What a field may hold of a node. -/
def Node.scalar : Node → Scalar
  | value v => v
  | _ => .other

theorem lookup_put (key key' : String) (node : Node) (entries : Entries) :
    (Entries.put key node entries).lookup key' =
      if key' = key then some node else entries.lookup key' := by
  induction entries with
  | nil =>
      by_cases h : key' = key
      · simp [Entries.put, h]
      · have hb : (key' == key) = false := beq_eq_false_iff_ne.2 h
        simp [Entries.put, List.lookup_cons, hb, h]
  | cons e es ih =>
      obtain ⟨name, old⟩ := e
      by_cases he : name = key
      · subst he
        by_cases h : key' = name
        · simp [Entries.put, h]
        · have hb : (key' == name) = false := beq_eq_false_iff_ne.2 h
          simp [Entries.put, List.lookup_cons, hb, h]
      · by_cases h : key' = name
        · simp [Entries.put, he, h]
        · have hb : (key' == name) = false := beq_eq_false_iff_ne.2 h
          simp [Entries.put, he, List.lookup_cons, hb, ih]

end MessageCatalog.Settings.Toml
