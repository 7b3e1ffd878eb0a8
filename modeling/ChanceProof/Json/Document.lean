import ChanceProof.Json.Numeral

/-!
# Documents: JSON text read as far as it goes

A `Document` is what a text holds before anyone asks for a particular shape. Reading never fails:
where the text stops being JSON the document is `broken`, and every container around that place
stays open. So a decoder that walks a document in text order meets its faults in the order in which
they stand in the text, be they faults of the text or of the shape, and the first one decides.

Three faults are recorded without stopping the reader, because a decoder that skips the value does
not mind them: a number beyond the largest float, a string with half of a surrogate pair, and a
container nested more than `maxNesting` deep.
-/

namespace ChanceProof

/-- JSON text read as far as it goes. -/
inductive Document
  | null
  | bool (b : Bool)
  /-- A numeral, without a value when it is out of range. -/
  | number (value : Option Number)
  /-- A string, without a value when half of a surrogate pair stands alone in it. -/
  | string (text : Option String)
  /-- The items in order. One that is not closed breaks off after the last of them. -/
  | array (items : List Document) (closed : Bool)
  /-- The fields in text order, repeated keys included. -/
  | object (fields : List (Option String × Document)) (closed : Bool)
  /-- A container nested too deep to be decoded. -/
  | tooDeep (inner : Document)
  /-- Here the text is no JSON. -/
  | broken
deriving Inhabited

/-- How many containers may enclose one another in a value that is decoded. -/
def maxNesting : Nat := 127

namespace Document

/-- The text of the document is JSON to its end. -/
def whole : Document → Bool
  | .array _ closed => closed
  | .object _ closed => closed
  | .tooDeep inner => inner.whole
  | .broken => false
  | _ => true

mutual

def ofJson : Json → Document
  | .null => .null
  | .bool b => .bool b
  | .number n => .number (some n)
  | .string s => .string (some s)
  | .array items => .array (ofItems items) true
  | .object fields => .object (ofFields fields) true

def ofItems : List Json → List Document
  | [] => []
  | v :: rest => ofJson v :: ofItems rest

def ofFields : List (String × Json) → List (Option String × Document)
  | [] => []
  | (k, v) :: rest => (some k, ofJson v) :: ofFields rest

end

/-! ## Strings -/

/-- What one item of a string's text stands for: a character, or an escaped UTF-16 unit. -/
inductive Piece
  | plain (c : Char)
  | unit (n : Nat)
deriving DecidableEq, Repr

def hexValue? (c : Char) : Option Nat :=
  if '0' ≤ c ∧ c ≤ '9' then some (c.toNat - '0'.toNat)
  else if 'a' ≤ c ∧ c ≤ 'f' then some (c.toNat - 'a'.toNat + 10)
  else if 'A' ≤ c ∧ c ≤ 'F' then some (c.toNat - 'A'.toNat + 10)
  else none

/-- The unit that four hexadecimal digits name. -/
def unit? (a b c d : Char) : Option Nat := do
  let a ← hexValue? a
  let b ← hexValue? b
  let c ← hexValue? c
  let d ← hexValue? d
  return ((a * 16 + b) * 16 + c) * 16 + d

/-- The character that a one-letter escape stands for. -/
def escape? : Char → Option Char
  | '"' => some '"'
  | '\\' => some '\\'
  | '/' => some '/'
  | 'b' => some '\x08'
  | 'f' => some '\x0c'
  | 'n' => some '\n'
  | 'r' => some '\r'
  | 't' => some '\t'
  | _ => none

/-- The pieces of a string up to its closing quote, and the text after the quote. There are none
when the string does not end, holds a control character or an unknown escape. -/
def pieces? : List Char → Option (List Piece × List Char)
  | [] => none
  | '"' :: rest => some ([], rest)
  | '\\' :: 'u' :: a :: b :: c :: d :: rest => do
    let n ← unit? a b c d
    let (ps, rest') ← pieces? rest
    return (.unit n :: ps, rest')
  | '\\' :: e :: rest => do
    let c ← escape? e
    let (ps, rest') ← pieces? rest
    return (.plain c :: ps, rest')
  | c :: rest =>
    if c.toNat < 0x20 ∨ c = '\\' then none
    else do
      let (ps, rest') ← pieces? rest
      return (.plain c :: ps, rest')

/-- The characters of the pieces. Two escaped surrogates make one character; one alone makes
none. -/
def assemble? : List Piece → Option (List Char)
  | [] => some []
  | .plain c :: rest => (assemble? rest).map (c :: ·)
  | .unit n :: rest =>
    if 0xD800 ≤ n ∧ n < 0xDC00 then
      match rest with
      | .unit m :: rest' =>
        if 0xDC00 ≤ m ∧ m < 0xE000 then
          (assemble? rest').map (Char.ofNat (0x10000 + (n - 0xD800) * 0x400 + (m - 0xDC00)) :: ·)
        else none
      | _ => none
    else if 0xDC00 ≤ n ∧ n < 0xE000 then none
    else (assemble? rest).map (Char.ofNat n :: ·)

/-! ## Reading -/

def isBlank (c : Char) : Bool := c = ' ' || c = '\n' || c = '\t' || c = '\r'

def skipBlanks (cs : List Char) : List Char := cs.dropWhile isBlank

/-- A container that `level` others enclose. -/
def nested (level : Nat) (d : Document) : Document := if level < maxNesting then d else .tooDeep d

def readLeaf : List Char → Document × List Char
  | 'n' :: 'u' :: 'l' :: 'l' :: rest => (.null, rest)
  | 't' :: 'r' :: 'u' :: 'e' :: rest => (.bool true, rest)
  | 'f' :: 'a' :: 'l' :: 's' :: 'e' :: rest => (.bool false, rest)
  | '"' :: rest =>
    match pieces? rest with
    | some (ps, rest') => (.string ((assemble? ps).map String.ofList), rest')
    | none => (.broken, rest)
  | cs =>
    match Numeral.scan? cs with
    | some (n, rest) => (.number n.value?, rest)
    | none => (.broken, cs)

mutual

/-- The value that `level` containers enclose at the start of a text, and the text after it. -/
def read : (fuel level : Nat) → List Char → Document × List Char
  | 0, _, cs => (.broken, cs)
  | fuel + 1, level, cs =>
    match skipBlanks cs with
    | '[' :: rest =>
      match skipBlanks rest with
      | ']' :: rest' => (nested level (.array [] true), rest')
      | rest' =>
        let (items, closed, rest'') := readItems fuel (level + 1) rest'
        (nested level (.array items closed), rest'')
    | '\x7b' :: rest =>
      match skipBlanks rest with
      | '\x7d' :: rest' => (nested level (.object [] true), rest')
      | rest' =>
        let (fields, closed, rest'') := readFields fuel (level + 1) rest'
        (nested level (.object fields closed), rest'')
    | cs' => readLeaf cs'

/-- The items of an array up to its bracket, whether the bracket is there, and the text after. -/
def readItems : (fuel level : Nat) → List Char → List Document × Bool × List Char
  | 0, _, cs => ([], false, cs)
  | fuel + 1, level, cs =>
    let (d, rest) := read fuel level cs
    if d.whole then
      match skipBlanks rest with
      | ',' :: rest' =>
        let (ds, closed, rest'') := readItems fuel level rest'
        (d :: ds, closed, rest'')
      | ']' :: rest' => ([d], true, rest')
      | rest' => ([d], false, rest')
    else ([d], false, rest)

/-- The fields of an object up to its brace, whether the brace is there, and the text after. -/
def readFields : (fuel level : Nat) → List Char → List (Option String × Document) × Bool × List Char
  | 0, _, cs => ([], false, cs)
  | fuel + 1, level, cs =>
    match skipBlanks cs with
    | '"' :: rest =>
      match pieces? rest with
      | none => ([], false, rest)
      | some (ps, rest) =>
        let key := (assemble? ps).map String.ofList
        match skipBlanks rest with
        | ':' :: rest =>
          let (d, rest) := read fuel level rest
          if d.whole then
            match skipBlanks rest with
            | ',' :: rest' =>
              let (fs, closed, rest'') := readFields fuel level rest'
              ((key, d) :: fs, closed, rest'')
            | '\x7d' :: rest' => ([(key, d)], true, rest')
            | rest' => ([(key, d)], false, rest')
          else ([(key, d)], false, rest)
        | rest => ([(key, .broken)], false, rest)
    | cs' => ([], false, cs')

end

/-- The document at the start of a text, and the text after it. Every level of nesting takes two
steps and at least one character. -/
def ofChars (cs : List Char) : Document × List Char := read (2 * cs.length + 2) 0 cs

end Document

end ChanceProof
