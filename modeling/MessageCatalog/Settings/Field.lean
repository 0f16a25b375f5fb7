import MessageCatalog.Settings.Basic

/-! The fields of the settings by name, and setting them from values that a file gives. -/

namespace MessageCatalog.Settings

inductive Field where
  | logLevel
  | debug
  | verifySortOrder
  | acceptBigEndian
  | maxExpressionDepth
deriving DecidableEq, Repr

namespace Field

/-- In the order in which a list gives them. -/
def all : List Field :=
  [logLevel, debug, verifySortOrder, acceptBigEndian, maxExpressionDepth]

def name : Field → String
  | logLevel => "log_level"
  | debug => "debug"
  | verifySortOrder => "verify_sort_order"
  | acceptBigEndian => "accept_big_endian"
  | maxExpressionDepth => "max_expression_depth"

def ofName? (name : String) : Option Field :=
  all.find? fun f => f.name == name

theorem ofName?_name (f : Field) : ofName? f.name = some f := by
  cases f <;> decide

end Field

/-- A value in a file, as far as a field may hold it. -/
inductive Scalar where
  | text (text : String)
  | flag (flag : Bool)
  | size (size : UInt64)
  /-- A value that no field holds. -/
  | other
deriving DecidableEq, Repr

/-- Values are never converted: each field takes one kind of them. -/
def set? (s : Settings) : Field → Scalar → Option Settings
  | .logLevel, .text t => some { s with logLevel := t }
  | .debug, .flag b => some { s with debug := b }
  | .verifySortOrder, .flag b => some { s with verifySortOrder := b }
  | .acceptBigEndian, .flag b => some { s with acceptBigEndian := b }
  | .maxExpressionDepth, .size k => some { s with maxExpressionDepth := k }
  | _, _ => none

/-- Settings with the given fields, each of which may be given once. The others keep their
defaults. -/
def ofFields? (fields : List (Field × Scalar)) : Option Settings :=
  if (fields.map Prod.fst).Nodup then fields.foldlM (fun s (f, v) => s.set? f v) {} else none

/-- Settings from named values; names that are no field's are passed over. -/
def ofNamed? (values : List (String × Scalar)) : Option Settings :=
  ofFields? (values.filterMap fun (name, v) => (Field.ofName? name).map (·, v))

end MessageCatalog.Settings
