import FieldCircuit.Modulus
import FieldCircuit.Residue

/-!
# Coordinates

The coordinates of curve points: residues modulo `baseModulus`, and pairs `re + im * u` of them
with `u * u = -1`. The modulus leaves three modulo four, so a square root of `x` is a power of
`x` if there is one.
-/

namespace FieldCircuit

abbrev BaseResidue := Residue baseModulus

structure Quadratic where
  re : BaseResidue
  im : BaseResidue
deriving DecidableEq, Repr

/-- What a curve needs of its coordinates. -/
class Coordinate (F : Type) extends Zero F, One F, Add F, Neg F, Sub F, Mul F where
  inverse? : F → Option F
  sqrt? : F → Option F
  /-- The order that tells the larger of two square roots. -/
  larger : F → F → Bool
  decEq : DecidableEq F

instance {F : Type} [Coordinate F] : DecidableEq F := Coordinate.decEq

namespace BaseResidue

def sqrt? (x : BaseResidue) : Option BaseResidue :=
  let y := x.pow ((baseModulus + 1) / 4)
  if y * y = x then some y else none

def half (x : BaseResidue) : BaseResidue := x * .ofNat ((baseModulus + 1) / 2)

instance : Coordinate BaseResidue where
  inverse? := Residue.inverse?
  sqrt? := sqrt?
  larger x y := y.val < x.val
  decEq := inferInstance

end BaseResidue

namespace Quadratic

instance : Zero Quadratic := ⟨⟨0, 0⟩⟩

instance : One Quadratic := ⟨⟨1, 0⟩⟩

instance : Add Quadratic := ⟨fun x y => ⟨x.re + y.re, x.im + y.im⟩⟩

instance : Neg Quadratic := ⟨fun x => ⟨-x.re, -x.im⟩⟩

instance : Sub Quadratic := ⟨fun x y => ⟨x.re - y.re, x.im - y.im⟩⟩

instance : Mul Quadratic :=
  ⟨fun x y => ⟨x.re * y.re - x.im * y.im, x.re * y.im + x.im * y.re⟩⟩

/-- The product with the conjugate. -/
def norm (x : Quadratic) : BaseResidue := x.re * x.re + x.im * x.im

def inverse? (x : Quadratic) : Option Quadratic :=
  x.norm.inverse?.map fun n => ⟨x.re * n, -(x.im * n)⟩

/-- A root of a pair whose second half is not zero: the square of its first half is half of the sum
or of the difference of the pair's first half and a root of the norm. -/
def sqrtMixed? (x : Quadratic) : Option Quadratic := do
  let s ← BaseResidue.sqrt? x.norm
  let re ← (BaseResidue.sqrt? (BaseResidue.half (x.re + s))).or
    (BaseResidue.sqrt? (BaseResidue.half (x.re - s)))
  let d ← (re + re).inverse?
  return ⟨re, x.im * d⟩

def sqrt? (x : Quadratic) : Option Quadratic :=
  if x.im = 0 then
    match BaseResidue.sqrt? x.re with
    | some y => some ⟨y, 0⟩
    | none => (BaseResidue.sqrt? (-x.re)).map (⟨0, ·⟩)
  else x.sqrtMixed?

/-- The second halves decide, and the first ones if these are equal. -/
def larger (x y : Quadratic) : Bool :=
  if x.im = y.im then y.re.val < x.re.val else y.im.val < x.im.val

instance : Coordinate Quadratic where
  inverse? := inverse?
  sqrt? := sqrt?
  larger := larger
  decEq := inferInstance

end Quadratic

end FieldCircuit
