/-!
# Numerals

Digits in a radix, the value of a run of digits, and upper-case hexadecimal text with a least
number of digits.
-/

namespace ByteMachine.Text

/-- The value of a digit in a radix of at most 36; letters count in either case. -/
def digitValue (radix : Nat) (c : Char) : Option Nat :=
  let v :=
    if '0' ≤ c ∧ c ≤ '9' then c.toNat - '0'.toNat
    else if 'a' ≤ c ∧ c ≤ 'z' then c.toNat - 'a'.toNat + 10
    else if 'A' ≤ c ∧ c ≤ 'Z' then c.toNat - 'A'.toNat + 10
    else 36
  if v < radix then some v else none

/-- The value of a run of digits, most significant first; `none` if one is no digit. -/
def digitsValueFrom (radix acc : Nat) : List Char → Option Nat
  | [] => some acc
  | c :: rest =>
    match digitValue radix c with
    | some d => digitsValueFrom radix (acc * radix + d) rest
    | none => none

/-- The value of a non-empty run of digits of a radix. -/
def digitsValue (radix : Nat) (cs : List Char) : Option Nat :=
  if cs.isEmpty then none else digitsValueFrom radix 0 cs

/-- Every character of a run is a digit of the radix. -/
def allDigits (radix : Nat) (cs : List Char) : Bool :=
  cs.all fun c => (digitValue radix c).isSome

/-- Reads a decimal integer as the standard integer readers do: an optional `+`, or a `-` when
negative values are allowed, then at least one ASCII digit. -/
def readInteger? (negatives : Bool) : List Char → Option Int
  | '+' :: ds => (digitsValue 10 ds).map Int.ofNat
  | '-' :: ds => if negatives then (digitsValue 10 ds).map fun v => -(v : Int) else none
  | ds => (digitsValue 10 ds).map Int.ofNat

/-- The upper-case hexadecimal digit of a value below 16. -/
def hexDigit (d : Nat) : Char :=
  if d < 10 then Char.ofNat ('0'.toNat + d) else Char.ofNat ('A'.toNat + d - 10)

/-- The upper-case hexadecimal digits of a number, with no leading zero. -/
def hexDigits (n : Nat) : List Char :=
  if n < 16 then [hexDigit n] else hexDigits (n / 16) ++ [hexDigit (n % 16)]
termination_by n
decreasing_by omega

/-- Upper-case hexadecimal text of a number, padded with zeros to at least `width` digits. -/
def hexText (width n : Nat) : String :=
  let ds := hexDigits n
  String.ofList (List.replicate (width - ds.length) '0' ++ ds)

example : hexText 2 10 = "0A" ∧ hexText 4 0x1000B = "1000B" ∧ hexText 0 255 = "FF" := by
  decide +kernel

end ByteMachine.Text
