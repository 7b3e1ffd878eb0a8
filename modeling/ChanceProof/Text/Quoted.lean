import ChanceProof.Text.Invisible

/-!
# Quoted names

Messages quote names so that their ends and every character in them can be seen: a quote, a
backslash and the common controls are escaped by one letter, any other character that does not show
by itself is spelled out by its code point.
-/

namespace ChanceProof.Text

/-- A character as it stands between quotes. -/
def shown (c : Char) : List Char :=
  if c = '"' then ['\\', '"']
  else if c = '\\' then ['\\', '\\']
  else if c = '\n' then ['\\', 'n']
  else if c = '\r' then ['\\', 'r']
  else if c = '\t' then ['\\', 't']
  else if c = '\x00' then ['\\', '0']
  else if isInvisible c then '\\' :: 'u' :: '\x7b' :: Nat.toDigits 16 c.toNat ++ ['\x7d']
  else [c]

def quoted (name : String) : String :=
  "\"" ++ String.ofList (name.toList.flatMap shown) ++ "\""

/-- Quoted names, separated by commas. -/
def quotedNames (names : List String) : String := String.intercalate ", " (names.map quoted)

def nameSet (names : List String) : String := "\x7b" ++ quotedNames names ++ "\x7d"

end ChanceProof.Text
