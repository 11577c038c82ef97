import SoftError.Text.Hidden

/-!
# Quoted characters

A character inside a message stands between single quotes. The quote, the backslash
and the common controls have short escapes, and a hidden character is written as its
code point in hexadecimal.
-/

namespace SoftError.Text

def escape (c : Char) : String :=
  if c = Char.ofNat 0 then "\\0"
  else if c = '\t' then "\\t"
  else if c = '\r' then "\\r"
  else if c = '\n' then "\\n"
  else if c = '\\' then "\\\\"
  else if c = '\'' then "\\'"
  else if isHidden c then "\\u\x7b" ++ String.ofList (Nat.toDigits 16 c.toNat) ++ "\x7d"
  else c.toString

def quote (c : Char) : String := "'" ++ escape c ++ "'"

end SoftError.Text
