import MessageCatalog.Settings.Basic
import MessageCatalog.Text.Blank
import MessageCatalog.Text.Numeral
import MessageCatalog.Text.Utf8

/-! Overriding settings by environment variables.

The check of the sort order is not among them: no environment turns it off. -/

namespace MessageCatalog.Settings

/-- The bytes that each variable holds, for those that are set. -/
abbrev Environment := String → Option (List UInt8)

/-- A variable counts as unset where its value is not UTF-8. -/
def Environment.text? (env : Environment) (name : String) : Option String :=
  env name >>= Text.decode?

/-- Whether `text` says yes. Only ASCII letters are folded: no other character has a small letter of
these words for its lower case. -/
def flag (text : String) : Bool :=
  let word := String.ofList ((Text.trim text.toList).map Char.toLower)
  word == "true" || word == "1" || word == "yes"

/-- The nesting depth that `text` writes. -/
def depth? (text : String) : Option UInt64 :=
  Text.unsigned? (Text.trim text.toList)

/-- The settings with every override that `env` holds. A depth that is no number changes nothing. -/
def override (s : Settings) (env : Environment) : Settings :=
  { s with
    logLevel := (env.text? "MOTEXT_LOG_LEVEL").getD s.logLevel
    debug := ((env.text? "MOTEXT_DEBUG").map flag).getD s.debug
    acceptBigEndian := ((env.text? "MOTEXT_ACCEPT_BIG_ENDIAN").map flag).getD s.acceptBigEndian
    maxExpressionDepth :=
      (env.text? "MOTEXT_MAX_EXPRESSION_DEPTH" >>= depth?).getD s.maxExpressionDepth }

def ofEnvironment (env : Environment) : Settings :=
  override {} env

theorem verifySortOrder_override (s : Settings) (env : Environment) :
    (s.override env).verifySortOrder = s.verifySortOrder := rfl

end MessageCatalog.Settings
