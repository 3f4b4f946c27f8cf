import FieldCircuit.Curve.Quadratic

/-!
# Curve points

Points of the curves `y * y = x * x * x + b` in affine coordinates, with their addition.
-/

namespace FieldCircuit

inductive Point (F : Type) where
  | infinity
  | affine (x y : F)
deriving DecidableEq, Repr

namespace Point

variable {F : Type} [Coordinate F]

/-- The third point of the line through `(x, y)` with the given slope that meets the curve again at
`x'`, reflected. -/
def reflect (x y slope x' : F) : Point F :=
  let z := slope * slope - x - x'
  affine z (slope * (x - z) - y)

def double : Point F → Point F
  | infinity => infinity
  | affine x y =>
    match Coordinate.inverse? (y + y) with
    | some d => reflect x y ((x * x + x * x + x * x) * d) x
    | none => infinity

def add : Point F → Point F → Point F
  | infinity, q => q
  | p, infinity => p
  | affine x y, affine x' y' =>
    match Coordinate.inverse? (x' - x) with
    | some d => reflect x y ((y' - y) * d) x'
    | none => if y = y' then double (affine x y) else infinity

/-- The multiple by the lowest `bits` bits of `n`. -/
def multiple (p : Point F) (n : Nat) : Nat → Point F
  | 0 => infinity
  | bits + 1 =>
    let q := (p.multiple (n / 2) bits).double
    if n % 2 = 1 then q.add p else q

/-- The smaller and the larger ordinate of the points with abscissa `x`. -/
def ordinates? (b x : F) : Option (F × F) :=
  (Coordinate.sqrt? (x * x * x + b)).map fun y =>
    if Coordinate.larger y (-y) then (-y, y) else (y, -y)

end Point

/-- The group over the residues; all its points have the prime order `scalarModulus`. -/
abbrev G1 := Point BaseResidue

/-- The group over the pairs. -/
abbrev G2 := Point Quadratic

namespace G1

def b : BaseResidue := .ofNat 3

end G1

namespace G2

/-- `3 / (9 + u)`. -/
def b : Quadratic :=
  match Quadratic.inverse? ⟨.ofNat 9, 1⟩ with
  | some d => ⟨.ofNat 3, 0⟩ * d
  | none => 0

/-- The point belongs to the group of prime order. -/
def inGroup (p : G2) : Bool := p.multiple scalarModulus (scalarModulus.log2 + 1) = .infinity

end G2

end FieldCircuit
