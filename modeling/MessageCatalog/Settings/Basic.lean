/-! Settings for loading catalogs and for logging. -/

namespace MessageCatalog

/-- How deep a plural rule may nest unless its reader says otherwise. -/
def defaultMaxExpressionDepth : UInt64 := 64

structure Settings where
  /-- A level, or a list of filter directives. -/
  logLevel : String := "info"
  /-- Whether logs are laid out for reading. -/
  debug : Bool := false
  /-- Whether a catalog with empty or unsorted messages is refused. -/
  verifySortOrder : Bool := true
  acceptBigEndian : Bool := true
  /-- How deep a plural rule may nest. -/
  maxExpressionDepth : UInt64 := defaultMaxExpressionDepth
deriving DecidableEq, Repr, Inhabited

end MessageCatalog
