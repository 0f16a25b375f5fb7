import MessageCatalog.Text.Blank

/-! Filter directives for logging. -/

namespace MessageCatalog.Settings

/-- The log targets of the library. -/
def logTargets : List String :=
  ["motext", "motext_core", "motext_plural", "motext_catalog"]

/-- A bare level is applied to the library's own targets. Text with an equals sign or a comma holds
directives already. -/
def filterDirectives (logLevel : String) : String :=
  let level := Text.trim logLevel.toList
  if level.any fun c => c == '=' || c == ',' then .ofList level
  else
    let level := if level = [] then "info" else .ofList level
    ",".intercalate (logTargets.map fun target => s!"{target}={level}")

end MessageCatalog.Settings
