import FieldCircuit.Curve.Point
import FieldCircuit.SystemFault

/-!
# Compressed points

A point is written as its abscissa, little endian, with two flags in the top bits of the last
byte: the larger of the two ordinates is meant, or the point is at infinity. Readers take the
bytes they need from the front.
-/

namespace FieldCircuit

/-- Reads from the front of the bytes that are left. -/
abbrev Decoder := StateT (List UInt8) (Except EncodingFault)

/-- Little endian, with `n` bytes. -/
def littleEndian (x : Nat) : Nat → List UInt8
  | 0 => []
  | n + 1 => x.toUInt8 :: littleEndian (x / 256) n

def ofLittleEndian : List UInt8 → Nat
  | [] => 0
  | b :: bs => b.toNat + 256 * ofLittleEndian bs

namespace Decoder

def bytes (n : Nat) : Decoder (List UInt8) := fun input =>
  let (front, rest) := input.splitAt n
  if front.length = n then .ok (front, rest) else .error .shortInput

def natural (n : Nat) : Decoder Nat := ofLittleEndian <$> bytes n

/-- As many items one after the other. -/
def repeated {α : Type} (read : Decoder α) : Nat → Decoder (List α)
  | 0 => return []
  | n + 1 => return (← read) :: (← repeated read n)

/-- Fails unless all items pass. -/
def checked {α : Type} (valid : α → Bool) (read : Decoder (List α)) : Decoder (List α) := do
  let xs ← read
  if xs.all valid then return xs else throw .invalidData

/-- A list behind its length. Its items are checked once all have been read. -/
def list {α : Type} (valid : α → Bool) (read : Decoder α) : Decoder (List α) := do
  checked valid (repeated read (← natural 8))

/-- An item, checked. -/
def one {α : Type} (valid : α → Bool) (read : Decoder α) : Decoder α := do
  let x ← read
  if valid x then return x else throw .invalidData

/-- The least representative of a residue. -/
def residue (n : Nat) : Decoder BaseResidue :=
  if h : n < baseModulus then return ⟨n, h⟩ else throw .invalidData

end Decoder

inductive Sign where
  | smaller
  | larger
  | infinity
deriving DecidableEq, Repr

namespace Sign

/-- The top two of 256 bits. -/
def flags : Sign → Nat
  | smaller => 0
  | infinity => 1
  | larger => 2

/-- A number of 256 bits is its flags and the rest. -/
def split (n : Nat) : Except EncodingFault (Sign × Nat) :=
  let rest := n % Nat.pow 2 254
  match n / Nat.pow 2 254 with
  | 0 => .ok (smaller, rest)
  | 1 => .ok (infinity, rest)
  | 2 => .ok (larger, rest)
  | _ => .error .unexpectedFlags

end Sign

/-- A residue with flags. -/
def BaseResidue.read : Decoder (Sign × BaseResidue) := do
  let (sign, n) ← liftM (Sign.split (← Decoder.natural 32))
  return (sign, ← Decoder.residue n)

/-- The first half has no flags. -/
def Quadratic.read : Decoder (Sign × Quadratic) := do
  let re ← Decoder.residue (← Decoder.natural 32)
  let (sign, im) ← BaseResidue.read
  return (sign, ⟨re, im⟩)

def BaseResidue.bytes (sign : Sign) (x : BaseResidue) : List UInt8 :=
  littleEndian (x.val + sign.flags * Nat.pow 2 254) 32

def Quadratic.bytes (sign : Sign) (x : Quadratic) : List UInt8 :=
  littleEndian x.re.val 32 ++ BaseResidue.bytes sign x.im

namespace Point

variable {F : Type} [Coordinate F]

/-- The point with an abscissa and the flags for its ordinate; at infinity the abscissa is
ignored. -/
def ofAbscissa (b : F) : Sign × F → Except EncodingFault (Point F)
  | (.infinity, _) => .ok .infinity
  | (.smaller, x) => (ordinates? b x).elim (.error .invalidData) fun ys => .ok (affine x ys.1)
  | (.larger, x) => (ordinates? b x).elim (.error .invalidData) fun ys => .ok (affine x ys.2)

def encode (bytes : Sign → F → List UInt8) : Point F → List UInt8
  | infinity => bytes .infinity 0
  | affine x y => bytes (if Coordinate.larger y (-y) then .larger else .smaller) x

end Point

def G1.read : Decoder G1 := do
  let x ← BaseResidue.read
  liftM (Point.ofAbscissa G1.b x)

/-- A point of the curve, which need not be in the group. -/
def G2.read : Decoder G2 := do
  let x ← Quadratic.read
  liftM (Point.ofAbscissa G2.b x)

def G1.encode (p : G1) : List UInt8 := Point.encode BaseResidue.bytes p

def G2.encode (p : G2) : List UInt8 := Point.encode Quadratic.bytes p

def encodeList {α : Type} (encode : α → List UInt8) (xs : List α) : List UInt8 :=
  littleEndian xs.length 8 ++ xs.flatMap encode

end FieldCircuit
