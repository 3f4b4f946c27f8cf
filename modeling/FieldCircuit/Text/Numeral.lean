/-!
# Numerals

Readers for unsigned 64-bit decimal words and for hexadecimal naturals of any size, and the
hexadecimal printer.
-/

namespace FieldCircuit.Text

/-- The value of a hexadecimal digit, letters in either case. -/
def digitValue? (c : Char) : Option Nat :=
  if '0' ≤ c ∧ c ≤ '9' then some (c.toNat - '0'.toNat)
  else if 'a' ≤ c ∧ c ≤ 'f' then some (c.toNat - 'a'.toNat + 10)
  else if 'A' ≤ c ∧ c ≤ 'F' then some (c.toNat - 'A'.toNat + 10)
  else none

/-- Digits of `base`, most significant first, read after a part of value `acc`. -/
def digits? (base : Nat) : Nat → List Char → Option Nat
  | acc, [] => some acc
  | acc, c :: cs =>
    match digitValue? c with
    | some d => if d < base then digits? base (base * acc + d) cs else none
    | none => none

/-- A natural number in `base`, written with at least one digit. -/
def natural? (base : Nat) : List Char → Option Nat
  | [] => none
  | cs => digits? base 0 cs

/-- The text behind an optional `+`. -/
def unsigned : List Char → List Char
  | '+' :: ds => ds
  | ds => ds

/-- A decimal word: an optional `+`, then digits whose value is below `2 ^ 64`. -/
def word? (cs : List Char) : Option UInt64 :=
  match natural? 10 (unsigned cs) with
  | some n => if n < UInt64.size then some n.toUInt64 else none
  | none => none

/-- A hexadecimal natural behind one optional marker `0x` or `0X`. -/
def hex? : List Char → Option Nat
  | '0' :: 'x' :: ds => natural? 16 ds
  | '0' :: 'X' :: ds => natural? 16 ds
  | ds => natural? 16 ds

/-- Lowercase hexadecimal digits, without a marker. -/
def hexDigits (n : Nat) : String := String.ofList (Nat.toDigits 16 n)

def hex (n : Nat) : String := "0x" ++ hexDigits n

end FieldCircuit.Text
