import DesignTokens.Token.Value

/-!
# Writing resolved values

* `css selector values` : custom properties under a selector;
* `jsonText values`, `script values` : an object of the values, alone and as a module.
-/

namespace DesignTokens.Emit

/-- The custom property of a token. -/
def propertyName (id : String) : String :=
  "--" ++ Text.replaceChar '.' "-" id

def propertyLine (id : String) (v : TokenValue) : String :=
  "  " ++ propertyName id ++ ": " ++ v.asText ++ ";\n"

/-- The values as custom properties under a selector. -/
def css (selector : String) (values : Values) : String :=
  selector ++ " \x7b\n" ++
    String.join (values.entries.map fun e => propertyLine e.1 e.2) ++ "\x7d\n"

def jsonText (values : Values) : String := values.toJson.pretty

def script (values : Values) : String :=
  "export const tokens = " ++ jsonText values ++ ";\nexport default tokens;\n"

end DesignTokens.Emit
