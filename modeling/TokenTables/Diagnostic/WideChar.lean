import TokenTables.Diagnostic.Log

/-!
The one-time warning about characters that only a tokenizer with unicode input can read.
-/

namespace TokenTables

/-- The first code point that a byte cannot hold. -/
def wideStart : Nat := 0x100

def wideCharReport (message remark : String) (loc : Location) : Report :=
  .once <| ((Diagnostic.warning .wideChar message).pointingAt loc remark).noting
    "enable unicode input so the tokenizer reads characters, not bytes"

/-- A wide character in a regular expression. -/
def wideCharInRegex (loc : Location) : Report :=
  wideCharReport "non-ASCII characters used in regular expression" "character above U+00FF" loc

end TokenTables
