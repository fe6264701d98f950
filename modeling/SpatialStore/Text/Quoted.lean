import SpatialStore.Text.Invisible

/-!
# Quoted text

A string in double quotes. Quote and backslash are escaped, line feed, carriage return, tab and
the null character have letters of their own, and every other character without a visible form
is written by its number in hexadecimal.
-/

namespace SpatialStore.Text

/-- A character as it stands between quotes. -/
def quotedChar (c : Char) : String :=
  if c = '"' then "\\\""
  else if c = '\\' then "\\\\"
  else if c = '\n' then "\\n"
  else if c = '\r' then "\\r"
  else if c = '\t' then "\\t"
  else if c = '\x00' then "\\0"
  else if isInvisible c then
    "\\u\x7b" ++ String.ofList (Nat.toDigits 16 c.toNat) ++ "\x7d"
  else String.singleton c

/-- A string in double quotes. -/
def quoted (s : String) : String :=
  "\"" ++ String.join (s.toList.map quotedChar) ++ "\""

end SpatialStore.Text
