import ChanceProof.Json.Document
import ChanceProof.Text.Position

/-!
# Decoding documents into typed values

A decoder walks a document in text order and stops at the first fault. A fault is either one of the
text, which is no JSON, or one of the shape, which is JSON for something else.

Two layouts need care. A record is an object with named fields or an array of the fields in order;
fields that nobody asked for are skipped. A tagged value is a record whose tag says which fields
follow: it is read to its end before the fields are looked at, since the tag may come last.
-/

namespace ChanceProof

/-- Where a fault of the shape is. -/
inductive Place
  /-- It belongs to the value as a whole, and the container around that says where it is. -/
  | whole
  /-- Where reading stopped. -/
  | stop
  /-- Where its own description says. -/
  | stated (position : Text.Position)
deriving DecidableEq, Repr

/-- Why a document could not be decoded. -/
inductive Fault
  /-- The text is no JSON: it is truncated, goes on after the value, is out of range or too
  deep. -/
  | text
  /-- The text is JSON of another shape. -/
  | shape (what : String) (place : Place)
deriving DecidableEq, Repr

namespace Fault

/-- The fault as seen from the container around it. -/
def within : Fault → Fault
  | .shape what .whole => .shape what .stop
  | fault => fault

/-- A fault of the value as a whole. A description that ends with a position has said where the
fault is; line zero is no position, and one that does not fit 64 bits is part of the wording. -/
def described (description : String) : Fault :=
  match Text.splitPosition? description with
  | none => .shape description .whole
  | some (what, position) =>
    if position.line < unsignedLimit ∧ position.column < unsignedLimit then
      .shape what (if position.line = 0 then .whole else .stated position)
    else .shape description .whole

end Fault

abbrev Decoder (α : Type) := Document → Except Fault α

namespace Decoder

variable {α σ : Type}

def wrong (what : String) : Except Fault α := .error (.shape what .stop)

/-- Decode something that a container holds. -/
def inside (decode : Decoder α) (d : Document) : Except Fault α := (decode d).mapError Fault.within

/-- Succeed when the container that was walked is closed. -/
def ending (closed : Bool) (value : α) : Except Fault α :=
  if closed then .ok value else .error .text

/-- The fault of finding this document where `expected` should be: leaves are read first, so a bad
leaf is a fault of the text. -/
def mismatch (expected : String) : Decoder α
  | .number none | .string none | .broken => .error .text
  | _ => wrong ("expected " ++ expected)

/-! ## Leaves -/

def string : Decoder String
  | .string (some s) => .ok s
  | d => mismatch "a string" d

def bool : Decoder Bool
  | .bool b => .ok b
  | d => mismatch "a truth value" d

def null : Decoder Unit
  | .null => .ok ()
  | d => mismatch "null" d

/-- A whole number from zero to below `2 ^ 64`. -/
def natural : Decoder Nat
  | .number (some (.int i)) =>
    if 0 ≤ i ∧ i < unsignedLimit then .ok i.toNat else wrong "expected a whole number below 2^64"
  | d => mismatch "a whole number" d

/-- A whole number from `-2 ^ 63` to below `2 ^ 63`. -/
def integer : Decoder Int
  | .number (some (.int i)) =>
    if -signedLimit ≤ i ∧ i < signedLimit then .ok i else wrong "expected an integer of 64 bits"
  | d => mismatch "an integer" d

def float : Decoder Float
  | .number (some n) => .ok n.toFloat
  | d => mismatch "a number" d

def optional (decode : Decoder α) : Decoder (Option α)
  | .null => .ok none
  | d => (decode d).map some

/-! ## Values of any shape -/

mutual

/-- The value of a document, when every part of it has one. -/
def value? : Document → Option Json
  | .null => some .null
  | .bool b => some (.bool b)
  | .number n => n.map .number
  | .string s => s.map .string
  | .array items closed => if closed then (values? items).map .array else none
  | .object fields closed => if closed then (fieldValues? fields).map Json.ofFields else none
  | .tooDeep _ | .broken => none

def values? : List Document → Option (List Json)
  | [] => some []
  | d :: rest => do return (← value? d) :: (← values? rest)

def fieldValues? : List (Option String × Document) → Option (List (String × Json))
  | [] => some []
  | (key, d) :: rest => do return (← key, ← value? d) :: (← fieldValues? rest)

end

def json (d : Document) : Except Fault Json :=
  match value? d with
  | some v => .ok v
  | none => .error .text

/-! ## Containers -/

def list (decode : Decoder α) : Decoder (List α)
  | .array items closed => do ending closed (← items.mapM (inside decode))
  | .tooDeep _ => .error .text
  | d => mismatch "an array" d

/-- The fields of an object in text order. -/
def fieldList (decode : Decoder α) :
    List (Option String × Document) → Except Fault (List (String × α))
  | [] => .ok []
  | (none, _) :: _ => .error .text
  | (some key, d) :: rest => do
    let v ← inside decode d
    return (key, v) :: (← fieldList decode rest)

/-- An object with any keys, its fields in text order. -/
def fields (decode : Decoder α) : Decoder (List (String × α))
  | .object fields closed => do ending closed (← fieldList decode fields)
  | .tooDeep _ => .error .text
  | d => mismatch "an object" d

def pair (decode : Decoder α) : Decoder (α × α)
  | .array items closed => do
    let found ← (items.take 2).mapM (inside decode)
    match found, items.drop 2 with
    | [a, b], [] => ending closed (a, b)
    | [_, _], _ => .error .text
    | _, _ => if closed then wrong "expected two items" else .error .text
  | .tooDeep _ => .error .text
  | d => mismatch "an array" d

/-! ## Records -/

/-- A field of a record, and what reading it adds to the fields already read. -/
structure Slot (σ : Type) where
  name : String
  read : σ → Decoder σ

/-- Read the fields of a record from an object. -/
def recordFields (slots : List (Slot σ)) :
    (seen : List String) → σ → List (Option String × Document) → Except Fault σ
  | _, s, [] => .ok s
  | _, _, (none, _) :: _ => .error .text
  | seen, s, (some key, d) :: rest =>
    match slots.find? (·.name == key) with
    | none => if d.whole then recordFields slots seen s rest else .error .text
    | some slot =>
      if seen.contains key then wrong ("repeated field " ++ key)
      else do
        let s ← inside (slot.read s) d
        recordFields slots (key :: seen) s rest

/-- Read the fields of a record from an array. -/
def recordItems (closed : Bool) : List (Slot σ) → σ → List Document → Except Fault σ
  | _, s, [] => ending closed s
  | [], _, _ :: _ => .error .text
  | slot :: slots, s, d :: rest => do
    let s ← inside (slot.read s) d
    recordItems closed slots s rest

/-- A record. Fields that are not there leave the start as it is. -/
def record (slots : List (Slot σ)) (start : σ) : Decoder σ
  | .object fields closed => do ending closed (← recordFields slots [] start fields)
  | .array items closed => recordItems closed slots start items
  | .tooDeep _ => .error .text
  | d => mismatch "an object" d

def required (name : String) : Option α → Except Fault α
  | some v => .ok v
  | none => wrong ("missing field " ++ name)

/-- A slot that keeps what its decoder finds. -/
def slot (name : String) (decode : Decoder α) (keep : σ → α → σ) : Slot σ :=
  ⟨name, fun s d => (decode d).map (keep s)⟩

/-! ## Tagged values -/

/-- Decode a value that was read to its end before: no fault of the text is left to find. -/
def buffered (decode : Decoder α) (d : Document) : Except Fault α :=
  match decode d with
  | .error .text => wrong "unexpected items"
  | r => r

/-- The decoder of the fields that go with a tag. -/
def variantOf (variant : String → Option (Decoder α)) (d : Document) :
    Except Fault (Decoder α) := do
  let name ← string d
  match variant name with
  | some decode => .ok decode
  | none => wrong ("unknown variant `" ++ name ++ "`")

/-- Split the fields of a tagged object into what its tag chooses and the other fields. -/
def taggedFields (tag : String) (variant : String → Option (Decoder α)) :
    Option (Decoder α) → List (Option String × Document) →
      Except Fault (Option (Decoder α) × List (Option String × Document))
  | chosen, [] => .ok (chosen, [])
  | _, (none, _) :: _ => .error .text
  | chosen, (some key, d) :: rest =>
    if key = tag then
      if chosen.isSome then wrong ("repeated field " ++ key)
      else do
        let decode ← inside (variantOf variant) d
        taggedFields tag variant (some decode) rest
    else do
      let _ ← json d
      let (chosen, others) ← taggedFields tag variant chosen rest
      return (chosen, (some key, d) :: others)

/-- A tagged value: an object with a tag field, or an array that starts with the tag. -/
def tagged (tag : String) (variant : String → Option (Decoder α)) : Decoder α
  | .object fields closed => do
    let (chosen, others) ← taggedFields tag variant none fields
    let chosen ← ending closed chosen
    let decode ← required tag chosen
    inside (buffered decode) (.object others true)
  | .array (d :: rest) closed => do
    let decode ← inside (variantOf variant) d
    let _ ← rest.mapM json
    let rest ← ending closed rest
    inside (buffered decode) (.array rest true)
  | .array [] closed => if closed then wrong ("missing field " ++ tag) else .error .text
  | .tooDeep _ => .error .text
  | d => mismatch "a tagged value" d

/-! ## Whole texts -/

/-- Decode a text that holds one value and nothing else but blanks. The text left when reading
stopped goes with a fault. -/
def run (decode : Decoder α) (cs : List Char) : Except (Fault × List Char) α :=
  let (d, rest) := Document.ofChars cs
  match decode d with
  | .error fault => .error (fault, rest)
  | .ok v => if (Document.skipBlanks rest).isEmpty then .ok v else .error (.text, rest)

/-- Where reading stopped. -/
def stoppedAt (cs rest : List Char) : Text.Position :=
  let done := cs.take (cs.length - rest.length)
  ⟨done.count '\n' + 1, (done.reverse.takeWhile (· != '\n')).length⟩

/-- What is wrong with a text, and where if that can be said. -/
def explain (cs rest : List Char) : Fault → String
  | .text => "malformed JSON" ++ (stoppedAt cs rest).display
  | .shape what .whole => what
  | .shape what .stop => what ++ (stoppedAt cs rest).display
  | .shape what (.stated position) => what ++ position.display

/-- What is wrong with a value that came without a text. -/
def reasonOf : Fault → String
  | .text => "malformed JSON"
  | .shape what (.stated position) => what ++ position.display
  | .shape what _ => what

end Decoder

end ChanceProof
