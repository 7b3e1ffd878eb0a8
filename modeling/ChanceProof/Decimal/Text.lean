import ChanceProof.Decimal.Rounding

/-!
# Floats as text

Two styles of writing a float with the fewest digits that read back, and one with a fixed number
of places. A style says where positional notation ends and how a whole number is marked; the
digits come from `ChanceProof.Decimal.Rounding`.
-/

namespace ChanceProof.Decimal

/-- How the shortest digits of a float are laid out. -/
structure Style where
  /-- Magnitudes written without an exponent. -/
  positional : Int → Bool
  /-- What follows the digits of a whole number. -/
  wholeMark : List Char
  tie : Tie

def zeros (n : Nat) : List Char := List.replicate n '0'

/-- Digits with a point, and no exponent. -/
def Digits.positional (wholeMark : List Char) (d : Digits) : List Char :=
  let cs := d.chars
  if 0 ≤ d.exponent then cs ++ zeros d.exponent.toNat ++ wholeMark
  else
    let after := (-d.exponent).toNat
    if after < cs.length then
      cs.take (cs.length - after) ++ '.' :: cs.drop (cs.length - after)
    else '0' :: '.' :: zeros (after - cs.length) ++ cs

/-- An exponent with its sign, as it follows the `e`. -/
def signedExponent (e : Int) : List Char :=
  (if e < 0 then '-' else '+') :: Nat.toDigits 10 e.natAbs

/-- One digit before the point, the others after it, and an exponent. -/
def Digits.scientific (d : Digits) : List Char :=
  let e := 'e' :: signedExponent d.magnitude
  match d.chars with
  | c :: c' :: cs => c :: '.' :: c' :: cs ++ e
  | cs => cs ++ e

def Digits.trimmed (d : Digits) : Digits :=
  let n := (d.chars.reverse.takeWhile (· == '0')).length
  if d.coefficient = 0 then d else ⟨d.coefficient / tenTo n, d.exponent + n⟩

def Style.write (s : Style) (x : Float) : List Char :=
  match Binary.ofFloat? x with
  | none => if x != x then "NaN".toList else if x < 0 then "-inf".toList else "inf".toList
  | some b =>
    let sign := if b.negative then ['-'] else []
    if b.mantissa = 0 then sign ++ '0' :: s.wholeMark
    else
      let d := (b.shortest s.tie).trimmed
      sign ++ if s.positional d.magnitude then d.positional s.wholeMark else d.scientific

/-- Numbers in JSON text: positional from `0.00001` to below `10 ^ 16`, a whole number ends in
`.0`, and a tie between two shortest forms goes to the even digit. -/
def jsonStyle : Style :=
  { positional := fun m => -5 ≤ m && m < 16, wholeMark := ['.', '0'], tie := .toEven }

/-- Numbers in messages: never an exponent, and a whole number has no point. -/
def messageStyle : Style :=
  { positional := fun _ => true, wholeMark := [], tie := .up }

def display (x : Float) : String := String.ofList (messageStyle.write x)

/-- A finite float with exactly `n` places after the point, a half going to the even neighbour.
A negative number keeps its sign when all its places are zero. -/
def fixed (n : Nat) (x : Float) : String :=
  match Binary.ofFloat? x with
  | none => display x
  | some b =>
    let cs := Nat.toDigits 10 (b.inUnits .toEven (-n))
    let cs := zeros (n + 1 - cs.length) ++ cs
    let whole := cs.take (cs.length - n)
    let point := if n = 0 then [] else '.' :: cs.drop (cs.length - n)
    String.ofList ((if b.negative then ['-'] else []) ++ whole ++ point)

end ChanceProof.Decimal
