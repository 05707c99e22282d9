import Concord.Letter.Hidden
import Concord.Text

namespace Concord

/-- The written form of a character within quotes. One that does not show by itself is given as a
hexadecimal number. -/
def escape (c : Char) : Text :=
  if c = '\x00' then ['\\', '0']
  else if c = '\t' then ['\\', 't']
  else if c = '\r' then ['\\', 'r']
  else if c = '\n' then ['\\', 'n']
  else if c = '"' then ['\\', '"']
  else if c = '\\' then ['\\', '\\']
  else if isHidden c then ['\\', 'u', '{'] ++ Nat.toDigits 16 c.toNat ++ ['}']
  else [c]

/-- The text between double quotes, escaped. -/
def quoted (text : Text) : String :=
  String.ofList ('"' :: text.flatMap escape ++ ['"'])

end Concord
