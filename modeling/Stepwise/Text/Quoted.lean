/-!
# Quoted text

Descriptions of frames, values and instructions show names between double quotes.  Inside the
quotes a double quote, a backslash, a line feed and a tab are written as two characters, so that
a description stays on one line and its quotes pair up.
-/

namespace Stepwise.Text

/-- The characters that stand for one character between quotes. -/
def escape (c : Char) : List Char :=
  if c = '\x22' then ['\\', '\x22']
  else if c = '\\' then ['\\', '\\']
  else if c = '\n' then ['\\', 'n']
  else if c = '\t' then ['\\', 't']
  else [c]

/-- Text as it stands between quotes. -/
def encode (cs : List Char) : List Char :=
  cs.flatMap escape

/-- Text between double quotes. -/
def quoted (s : String) : String :=
  "\"" ++ String.ofList (encode s.toList) ++ "\""

end Stepwise.Text
