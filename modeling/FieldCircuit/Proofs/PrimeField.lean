import FieldCircuit.Residue
import Mathlib.FieldTheory.Finite.Basic
import Mathlib.Tactic.Ring

/-!
# Residues modulo a prime form a field

`toZMod` reads a residue as an integer modulo `p`. It is injective and respects every operation, so
the residues are a commutative ring, with `ofInt` as the cast of integers. For a prime `p` the power
`p - 2` is the inverse, and the ring is a field whose inverse is the one `inverse?` gives.
-/

namespace FieldCircuit.Residue

variable {p : Nat}

@[ext] theorem ext {x y : Residue p} (h : x.val = y.val) : x = y := by
  cases x; cases y; cases h; rfl

def toZMod (x : Residue p) : ZMod p := x.val

theorem toZMod_injective : Function.Injective (toZMod (p := p)) := by
  intro x y h
  apply ext
  have hv := congrArg ZMod.val h
  rwa [toZMod, toZMod, ZMod.val_cast_of_lt x.isLt, ZMod.val_cast_of_lt y.isLt] at hv

variable [Nonzero p]

@[simp] theorem toZMod_ofNat (n : Nat) : (ofNat n : Residue p).toZMod = n := by
  rw [toZMod, ofNat, ZMod.natCast_mod]

theorem toZMod_zero : (0 : Residue p).toZMod = 0 := (toZMod_ofNat 0).trans Nat.cast_zero

theorem toZMod_one : (1 : Residue p).toZMod = 1 := (toZMod_ofNat 1).trans Nat.cast_one

theorem toZMod_add (x y : Residue p) : (x + y).toZMod = x.toZMod + y.toZMod :=
  (toZMod_ofNat (x.val + y.val)).trans (Nat.cast_add _ _)

theorem toZMod_mul (x y : Residue p) : (x * y).toZMod = x.toZMod * y.toZMod :=
  (toZMod_ofNat (x.val * y.val)).trans (Nat.cast_mul _ _)

theorem toZMod_neg (x : Residue p) : (-x).toZMod = -x.toZMod := by
  refine (toZMod_ofNat (p - x.val)).trans ?_
  rw [Nat.cast_sub (Nat.le_of_lt x.isLt), ZMod.natCast_self, zero_sub, toZMod]

theorem toZMod_sub (x y : Residue p) : (x - y).toZMod = x.toZMod - y.toZMod := by
  refine (toZMod_add x (-y)).trans ?_
  rw [toZMod_neg, sub_eq_add_neg]

theorem toZMod_ofInt (c : Int) : (ofInt c : Residue p).toZMod = c := by
  cases c with
  | ofNat n => simp [ofInt]
  | negSucc n => rw [ofInt, toZMod_neg, toZMod_ofNat, Int.cast_negSucc]

theorem toZMod_powBits (x : Residue p) (n bits : Nat) (h : n < 2 ^ bits) :
    (x.powBits n bits).toZMod = x.toZMod ^ n := by
  induction bits generalizing x n with
  | zero =>
    obtain rfl : n = 0 := by simpa using h
    rw [powBits, toZMod_one, pow_zero]
  | succ bits ih =>
    have hy : ((x * x).powBits (n / 2) bits).toZMod = x.toZMod ^ (2 * (n / 2)) := by
      rw [ih _ _ (by rw [pow_succ] at h; omega), toZMod_mul, ← pow_two, ← pow_mul]
    have hn := Nat.div_add_mod n 2
    simp only [powBits]
    split
    · next h1 => rw [toZMod_mul, hy, ← pow_succ', ← h1, hn]
    · next h1 =>
      have h0 : 2 * (n / 2) = n := by omega
      rw [hy, h0]

theorem toZMod_pow (x : Residue p) (n : Nat) : (x.pow n).toZMod = x.toZMod ^ n :=
  toZMod_powBits x n _ Nat.lt_log2_self

/-! ## The ring -/

instance : NatCast (Residue p) := ⟨ofNat⟩

instance : IntCast (Residue p) := ⟨ofInt⟩

instance : SMul ℕ (Residue p) := ⟨fun n x => ofNat n * x⟩

instance : SMul ℤ (Residue p) := ⟨fun c x => ofInt c * x⟩

instance : Pow (Residue p) ℕ := ⟨pow⟩

instance : CommRing (Residue p) :=
  toZMod_injective.commRing toZMod toZMod_zero toZMod_one toZMod_add toZMod_mul toZMod_neg
    toZMod_sub (fun n x => by rw [nsmul_eq_mul, ← toZMod_ofNat n]; exact toZMod_mul (ofNat n) x)
    (fun c x => by rw [zsmul_eq_mul, ← toZMod_ofInt c]; exact toZMod_mul (ofInt c) x)
    toZMod_pow toZMod_ofNat toZMod_ofInt

/-! ## The field -/

section Prime

variable {p : Nat} [Fact p.Prime]

instance : Nonzero p := ⟨(Fact.out : p.Prime).ne_zero⟩

theorem mul_pow_sub_two {x : Residue p} (hx : x ≠ 0) : x * x.pow (p - 2) = 1 := by
  have hz : x.toZMod ≠ 0 := fun h => hx (toZMod_injective (h.trans toZMod_zero.symm))
  have hp : p - 2 + 1 = p - 1 := by
    have := (Fact.out : p.Prime).two_le
    omega
  apply toZMod_injective
  rw [toZMod_mul, toZMod_pow, toZMod_one, ← pow_succ', hp, ZMod.pow_card_sub_one_eq_one hz]

theorem one_ne_zero : (1 : Residue p) ≠ 0 := by
  intro h
  have hz := congrArg toZMod h
  rw [toZMod_zero, toZMod_one] at hz
  exact NeZero.ne (1 : ZMod p) hz

instance : Field (Residue p) where
  inv x := x.inverse?.getD 0
  exists_pair_ne := ⟨1, 0, one_ne_zero⟩
  mul_inv_cancel x hx := by
    rw [inverse?, if_neg hx]
    exact mul_pow_sub_two hx
  inv_zero := by rw [inverse?, if_pos rfl]; rfl
  nnqsmul := _
  nnqsmul_def := fun _ _ => rfl
  qsmul := _
  qsmul_def := fun _ _ => rfl

@[simp] theorem inverse?_zero : (0 : Residue p).inverse? = none := if_pos rfl

theorem inverse?_of_ne_zero {x : Residue p} (hx : x ≠ 0) : x.inverse? = some x⁻¹ := by
  change _ = some (x.inverse?.getD 0)
  rw [inverse?, if_neg hx]
  rfl

end Prime

/-- Sample values are residues modulo seven. -/
instance fact_prime_seven : Fact (Nat.Prime 7) := ⟨by decide⟩

end FieldCircuit.Residue
