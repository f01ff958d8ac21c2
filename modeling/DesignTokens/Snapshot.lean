import DesignTokens.Digest
import DesignTokens.Json.Printer
import DesignTokens.Token.Value

/-!
# Snapshots

* `canonicalText j` : the text of the normal form of a document, without blanks;
* `snapshotHash values` : the digest of the text of some values.
-/

namespace DesignTokens

/-- The text of the normal form of a document. -/
def canonicalText (j : Json) : String := j.normal.compress

/-- The digest of the text of some values. -/
def snapshotHash (values : Values) : String := (Digest.ofText (canonicalText values.toJson)).hex

end DesignTokens
