import ChanceProof.Json.Basic
import ChanceProof.Decimal.Text

/-!
# JSON text

`Json.print` writes a value without any space; `Json.printPretty` writes one item a line, indented
by two blanks a level. In strings only the quote, the backslash and the control characters are
escaped.
-/

namespace ChanceProof

def hexDigit (n : Nat) : Char := (Nat.toDigits 16 (n % 16)).headD '0'

/-- A character as it stands between the quotes of a JSON string. -/
def escaped (c : Char) : List Char :=
  if c = '"' then ['\\', '"']
  else if c = '\\' then ['\\', '\\']
  else if c = '\n' then ['\\', 'n']
  else if c = '\r' then ['\\', 'r']
  else if c = '\t' then ['\\', 't']
  else if c = '\x08' then ['\\', 'b']
  else if c = '\x0c' then ['\\', 'f']
  else if c.toNat < 0x20 then ['\\', 'u', '0', '0', hexDigit (c.toNat / 16), hexDigit c.toNat]
  else [c]

def quoted (s : String) : List Char := '"' :: s.toList.flatMap escaped ++ ['"']

def Number.chars : Number → List Char
  | .int i => if i < 0 then '-' :: Nat.toDigits 10 i.natAbs else Nat.toDigits 10 i.natAbs
  | .float x => Decimal.jsonStyle.write x

namespace Json

mutual

/-- The text of a value, without any space. -/
def chars : Json → List Char
  | .null => ['n', 'u', 'l', 'l']
  | .bool true => ['t', 'r', 'u', 'e']
  | .bool false => ['f', 'a', 'l', 's', 'e']
  | .number n => n.chars
  | .string s => quoted s
  | .array [] => ['[', ']']
  | .array (v :: rest) => '[' :: v.chars ++ itemsChars rest
  | .object [] => ['\x7b', '\x7d']
  | .object ((k, v) :: rest) => '\x7b' :: quoted k ++ ':' :: v.chars ++ fieldsChars rest

/-- The items after the first, and the closing bracket. -/
def itemsChars : List Json → List Char
  | [] => [']']
  | v :: rest => ',' :: v.chars ++ itemsChars rest

/-- The fields after the first, and the closing brace. -/
def fieldsChars : List (String × Json) → List Char
  | [] => ['\x7d']
  | (k, v) :: rest => ',' :: quoted k ++ ':' :: v.chars ++ fieldsChars rest

end

def print (v : Json) : String := String.ofList v.chars

/-- A line break and the indentation of a level. -/
def lineBreak (level : Nat) : List Char := '\n' :: List.replicate (2 * level) ' '

mutual

/-- The text of a value that stands at an indentation level, one item a line. -/
def prettyChars (level : Nat) : Json → List Char
  | .array (v :: rest) =>
    '[' :: lineBreak (level + 1) ++ prettyChars (level + 1) v ++ prettyItems level rest
  | .object ((k, v) :: rest) =>
    '\x7b' :: lineBreak (level + 1) ++ quoted k ++ ':' :: ' ' :: prettyChars (level + 1) v
      ++ prettyFields level rest
  | v => v.chars

def prettyItems (level : Nat) : List Json → List Char
  | [] => lineBreak level ++ [']']
  | v :: rest =>
    ',' :: lineBreak (level + 1) ++ prettyChars (level + 1) v ++ prettyItems level rest

def prettyFields (level : Nat) : List (String × Json) → List Char
  | [] => lineBreak level ++ ['\x7d']
  | (k, v) :: rest =>
    ',' :: lineBreak (level + 1) ++ quoted k ++ ':' :: ' ' :: prettyChars (level + 1) v
      ++ prettyFields level rest

end

def printPretty (v : Json) : String := String.ofList (v.prettyChars 0)

end Json

end ChanceProof
