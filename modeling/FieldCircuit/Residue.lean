import FieldCircuit.Modulus
import FieldCircuit.Text.Numeral

/-!
# Residues

Integers modulo `p`, held as their least representative. The operations make a field when `p`
is prime; `inverse?` is the power `p - 2`, which is the inverse by Fermat's little theorem.
-/

namespace FieldCircuit

structure Residue (p : Nat) where
  val : Nat
  isLt : val < p
deriving DecidableEq, Repr

namespace Residue

variable {p : Nat} [Nonzero p]

def ofNat (n : Nat) : Residue p := ⟨n % p, Nat.mod_lt _ (Nat.pos_of_neZero p)⟩

instance : Zero (Residue p) := ⟨ofNat 0⟩

instance : One (Residue p) := ⟨ofNat 1⟩

instance : Inhabited (Residue p) := ⟨0⟩

instance : Add (Residue p) := ⟨fun x y => ofNat (x.val + y.val)⟩

instance : Mul (Residue p) := ⟨fun x y => ofNat (x.val * y.val)⟩

instance : Neg (Residue p) := ⟨fun x => ofNat (p - x.val)⟩

instance : Sub (Residue p) := ⟨fun x y => x + -y⟩

instance : Ord (Residue p) := ⟨fun x y => compare x.val y.val⟩

/-- A signed integer: the residue of its magnitude, negated below zero. -/
def ofInt : Int → Residue p
  | .ofNat n => ofNat n
  | .negSucc n => -ofNat (n + 1)

/-- `x ^ n` by squaring, reading the lowest `bits` bits of `n`. -/
def powBits (x : Residue p) (n : Nat) : Nat → Residue p
  | 0 => 1
  | bits + 1 =>
    let y := powBits (x * x) (n / 2) bits
    if n % 2 = 1 then x * y else y

def pow (x : Residue p) (n : Nat) : Residue p := x.powBits n (n.log2 + 1)

def inverse? (x : Residue p) : Option (Residue p) :=
  if x = 0 then none else some (x.pow (p - 2))

def hex (x : Residue p) : String := Text.hex x.val

def ofHex? (cs : List Char) : Option (Residue p) := (Text.hex? cs).map ofNat

end Residue

end FieldCircuit
