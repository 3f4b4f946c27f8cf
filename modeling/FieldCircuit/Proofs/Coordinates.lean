import FieldCircuit.Curve.Point
import FieldCircuit.Proofs.Moduli
import Mathlib.NumberTheory.LegendreSymbol.Basic
import Mathlib.Tactic.LinearCombination

/-!
# Square roots of coordinates

A square has two roots, which differ in their sign, and `sqrt?` finds one of them: of a residue
because the modulus leaves three modulo four, of a pair by way of the residues. Of the two roots one
is larger unless they are equal, so that a point is known by its abscissa and which of the two
ordinates it has. `LawfulCoordinate` is what points rely on.
-/

namespace FieldCircuit

/-- Roots are found and are unique up to their sign, and two different coordinates are in order. -/
class LawfulCoordinate (F : Type) [Coordinate F] : Prop where
  neg_neg (x : F) : - -x = x
  neg_mul_neg (x : F) : -x * -x = x * x
  mul_self_of_sqrt? {x y : F} : Coordinate.sqrt? x = some y → y * y = x
  exists_sqrt? (x : F) : ∃ y, Coordinate.sqrt? (x * x) = some y
  eq_or_eq_neg {x y : F} : x * x = y * y → x = y ∨ x = -y
  larger_asymm {x y : F} : Coordinate.larger x y = true → Coordinate.larger y x = false
  larger_total {x y : F} : x ≠ y → Coordinate.larger x y = true ∨ Coordinate.larger y x = true

/-! ## Residues -/

namespace Residue

variable {p : Nat} [Fact p.Prime] {x y : Residue p}

theorem mul_of_inverse? (h : x.inverse? = some y) : x * y = 1 := by
  unfold inverse? at h
  split at h
  · cases h
  · next hx =>
    cases h
    exact mul_pow_sub_two hx

/-- Where the modulus leaves three modulo four, a power of a square is a root of it, by Fermat's
little theorem. -/
theorem pow_mul_pow {k : Nat} (hk : 4 * k = p + 1) (x : Residue p) :
    (x * x).pow k * (x * x).pow k = x * x := by
  apply toZMod_injective
  calc ((x * x).pow k * (x * x).pow k).toZMod
      = x.toZMod ^ (4 * k) := by
        rw [toZMod_mul, toZMod_pow, toZMod_mul]
        ring
    _ = (x * x).toZMod := by
        rw [hk, pow_succ, ZMod.pow_card, toZMod_mul]

/-- Minus one is not a square then. -/
theorem eq_zero_of_sum_squares (hp : p % 4 = 3) (h : x * x + y * y = 0) : y = 0 := by
  by_contra hy
  have hz : y.toZMod ≠ 0 := fun h => hy (toZMod_injective (h.trans toZMod_zero.symm))
  have hsum : x.toZMod ^ 2 = -y.toZMod ^ 2 := by
    have h := congrArg toZMod h
    rw [toZMod_add, toZMod_mul, toZMod_mul, toZMod_zero] at h
    linear_combination h
  exact ZMod.mod_four_ne_three_of_sq_eq_neg_sq' hz hsum hp

end Residue

namespace BaseResidue

variable {x y : BaseResidue}

theorem mul_eq_zero_iff : x * y = 0 ↔ x = 0 ∨ y = 0 := by
  have : Fact baseModulus.Prime := ⟨prime_baseModulus⟩
  exact mul_eq_zero

theorem eq_or_eq_neg (h : x * x = y * y) : x = y ∨ x = -y := by
  have : Fact baseModulus.Prime := ⟨prime_baseModulus⟩
  exact mul_self_eq_mul_self_iff.1 h

theorem eq_zero_of_sum_squares (h : x * x + y * y = 0) : x = 0 ∧ y = 0 := by
  have : Fact baseModulus.Prime := ⟨prime_baseModulus⟩
  have hmod : baseModulus % 4 = 3 := by decide
  exact ⟨Residue.eq_zero_of_sum_squares hmod ((add_comm _ _).trans h),
    Residue.eq_zero_of_sum_squares hmod h⟩

theorem mul_of_inverse? (h : x.inverse? = some y) : x * y = 1 := by
  have : Fact baseModulus.Prime := ⟨prime_baseModulus⟩
  exact Residue.mul_of_inverse? h

theorem exists_inverse? (h : x ≠ 0) : ∃ y, x.inverse? = some y := by
  unfold Residue.inverse?
  rw [if_neg h]
  exact ⟨_, rfl⟩

theorem two_halves : (.ofNat ((baseModulus + 1) / 2) + .ofNat ((baseModulus + 1) / 2) :
    BaseResidue) = 1 := by
  decide +kernel

theorem half_eq_iff : half x = y ↔ x = y + y := by
  unfold half
  constructor
  · rintro rfl
    linear_combination -x * two_halves
  · rintro rfl
    linear_combination y * two_halves

theorem mul_self_of_sqrt? (h : sqrt? x = some y) : y * y = x := by
  unfold sqrt? at h
  dsimp only at h
  split at h
  · next hy => exact Option.some.inj h ▸ hy
  · cases h

theorem exists_sqrt? (x : BaseResidue) : ∃ y, sqrt? (x * x) = some y := by
  have : Fact baseModulus.Prime := ⟨prime_baseModulus⟩
  unfold sqrt?
  dsimp only
  rw [if_pos (Residue.pow_mul_pow (by decide) x)]
  exact ⟨_, rfl⟩

end BaseResidue

instance : LawfulCoordinate BaseResidue where
  neg_neg x := neg_neg x
  neg_mul_neg x := neg_mul_neg x x
  mul_self_of_sqrt? := BaseResidue.mul_self_of_sqrt?
  exists_sqrt? := BaseResidue.exists_sqrt?
  eq_or_eq_neg := BaseResidue.eq_or_eq_neg
  larger_asymm {x y} h := by
    have h := of_decide_eq_true h
    exact decide_eq_false (Nat.not_lt.2 (Nat.le_of_lt h))
  larger_total {x y} h := by
    rcases Nat.lt_or_gt_of_ne fun he => h (Residue.ext he) with h | h
    · exact .inr (decide_eq_true h)
    · exact .inl (decide_eq_true h)

/-! ## Pairs -/

namespace Quadratic

variable {x y : Quadratic}

theorem ext (hre : x.re = y.re) (him : x.im = y.im) : x = y := by
  cases x; cases y; cases hre; cases him; rfl

@[simp] theorem re_mul (x y : Quadratic) : (x * y).re = x.re * y.re - x.im * y.im := rfl

@[simp] theorem im_mul (x y : Quadratic) : (x * y).im = x.re * y.im + x.im * y.re := rfl

@[simp] theorem re_neg (x : Quadratic) : (-x).re = -x.re := rfl

@[simp] theorem im_neg (x : Quadratic) : (-x).im = -x.im := rfl

theorem norm_mul_self (x : Quadratic) : (x * x).norm = x.norm * x.norm := by
  simp only [norm, re_mul, im_mul]
  ring

theorem eq_or_eq_neg (h : x * x = y * y) : x = y ∨ x = -y := by
  have hre : x.re * x.re - x.im * x.im = y.re * y.re - y.im * y.im := congrArg re h
  have him : x.re * x.im + x.im * x.re = y.re * y.im + y.im * y.re := congrArg im h
  -- the norms of the difference and the sum multiply to that of the difference of the squares
  have hnorms : ((x.re - y.re) * (x.re - y.re) + (x.im - y.im) * (x.im - y.im)) *
      ((x.re + y.re) * (x.re + y.re) + (x.im + y.im) * (x.im + y.im)) = 0 := by
    linear_combination (x.re * x.re - x.im * x.im - (y.re * y.re - y.im * y.im)) * hre +
      (x.re * x.im + x.im * x.re - (y.re * y.im + y.im * y.re)) * him
  rcases BaseResidue.mul_eq_zero_iff.1 hnorms with hd | hd
  · obtain ⟨hre, him⟩ := BaseResidue.eq_zero_of_sum_squares hd
    exact .inl (ext (sub_eq_zero.1 hre) (sub_eq_zero.1 him))
  · obtain ⟨hre, him⟩ := BaseResidue.eq_zero_of_sum_squares hd
    exact .inr (ext (eq_neg_of_add_eq_zero_left hre) (eq_neg_of_add_eq_zero_left him))

/-- The step from a root of the norm to one of the pair. -/
theorem mul_self_of_norm {s re d : BaseResidue} (hs : s * s = x.norm)
    (hre : x.re + s = re * re + re * re) (hd : (re + re) * d = 1) :
    (⟨re, x.im * d⟩ * ⟨re, x.im * d⟩ : Quadratic) = x := by
  unfold norm at hs
  have hsquare : (re * re - x.re) * ((re + re) * (re + re)) = x.im * x.im := by
    linear_combination (-(re * re + re * re) + x.re - s) * hre + hs
  refine ext ?_ ?_
  · simp only [re_mul]
    linear_combination -(re * re - x.re) * ((re + re) * d + 1) * hd + d * d * hsquare
  · simp only [im_mul]
    linear_combination x.im * hd

theorem sqrtMixed?_eq_some_iff : x.sqrtMixed? = some y ↔
    ∃ s, BaseResidue.sqrt? x.norm = some s ∧
      ∃ r, (BaseResidue.sqrt? (BaseResidue.half (x.re + s))).or
        (BaseResidue.sqrt? (BaseResidue.half (x.re - s))) = some r ∧
      ∃ d, (r + r).inverse? = some d ∧ ⟨r, x.im * d⟩ = y := by
  unfold sqrtMixed?
  simp only [Option.bind_eq_bind, Option.bind_eq_some_iff, Option.pure_def, Option.some.injEq]

theorem mul_self_of_sqrtMixed? (h : x.sqrtMixed? = some y) : y * y = x := by
  obtain ⟨s, hs, r, hr, d, hd, rfl⟩ := sqrtMixed?_eq_some_iff.1 h
  have hs := BaseResidue.mul_self_of_sqrt? hs
  have hd := BaseResidue.mul_of_inverse? hd
  rcases Option.or_eq_some_iff.1 hr with hr | ⟨-, hr⟩
  · exact mul_self_of_norm hs (BaseResidue.half_eq_iff.1 (BaseResidue.mul_self_of_sqrt? hr).symm) hd
  · refine mul_self_of_norm (s := -s) (by rw [← hs]; ring) ?_ hd
    rw [← BaseResidue.half_eq_iff.1 (BaseResidue.mul_self_of_sqrt? hr).symm]
    ring

theorem mul_self_of_sqrt? (h : x.sqrt? = some y) : y * y = x := by
  unfold sqrt? at h
  split at h
  · next him =>
    split at h
    · next r hr =>
      cases h
      refine ext ?_ ?_
      · simp [BaseResidue.mul_self_of_sqrt? hr]
      · simp [him]
    · obtain ⟨r, hr, rfl⟩ := Option.map_eq_some_iff.1 h
      refine ext ?_ ?_
      · simp [BaseResidue.mul_self_of_sqrt? hr]
      · simp [him]
  · exact mul_self_of_sqrtMixed? h

theorem eq_zero_of_add_self {r : BaseResidue} (h : r + r = 0) : r = 0 := by
  linear_combination -r * BaseResidue.two_halves + .ofNat ((baseModulus + 1) / 2) * h

/-- Of the two roots of the norm of a square one leads to the first half of the root of the pair;
the other would make minus a square a square. -/
theorem exists_sqrt?_half {s : BaseResidue} (hs : s * s = x.norm * x.norm) (him : x.im ≠ 0) :
    ∃ r, (BaseResidue.sqrt? (BaseResidue.half ((x * x).re + s))).or
      (BaseResidue.sqrt? (BaseResidue.half ((x * x).re - s))) = some r ∧ r * r = x.re * x.re := by
  obtain ⟨r, hr⟩ := BaseResidue.exists_sqrt? x.re
  have hrr := BaseResidue.mul_self_of_sqrt? hr
  rcases BaseResidue.eq_or_eq_neg hs with rfl | rfl
  · have hhalf : BaseResidue.half ((x * x).re + x.norm) = x.re * x.re :=
      BaseResidue.half_eq_iff.2 (by rw [re_mul, norm]; ring)
    exact ⟨r, by rw [hhalf, hr, Option.some_or], hrr⟩
  · have hfirst : BaseResidue.half ((x * x).re + -x.norm) = -(x.im * x.im) :=
      BaseResidue.half_eq_iff.2 (by rw [re_mul, norm]; ring)
    have hsecond : BaseResidue.half ((x * x).re - -x.norm) = x.re * x.re :=
      BaseResidue.half_eq_iff.2 (by rw [re_mul, norm]; ring)
    have hnone : BaseResidue.sqrt? (-(x.im * x.im)) = none := by
      rw [Option.eq_none_iff_forall_ne_some]
      intro y hy
      refine him (BaseResidue.eq_zero_of_sum_squares (x := y) ?_).2
      rw [BaseResidue.mul_self_of_sqrt? hy, neg_add_cancel]
    exact ⟨r, by rw [hfirst, hnone, hsecond, hr, Option.none_or], hrr⟩

theorem exists_sqrtMixed? (h : (x * x).im ≠ 0) : ∃ y, (x * x).sqrtMixed? = some y := by
  have him : (x * x).im = x.re * x.im + x.im * x.re := rfl
  have hxre : x.re ≠ 0 := fun hz => h (by rw [him, hz]; ring)
  have hxim : x.im ≠ 0 := fun hz => h (by rw [him, hz]; ring)
  obtain ⟨s, hs⟩ := BaseResidue.exists_sqrt? x.norm
  obtain ⟨r, hr, hrr⟩ := exists_sqrt?_half (BaseResidue.mul_self_of_sqrt? hs) hxim
  rw [← norm_mul_self] at hs
  have hr0 : r + r ≠ 0 := by
    intro hz
    rw [eq_zero_of_add_self hz, zero_mul] at hrr
    rcases BaseResidue.mul_eq_zero_iff.1 hrr.symm with h | h <;> exact hxre h
  obtain ⟨d, hd⟩ := BaseResidue.exists_inverse? hr0
  exact ⟨_, sqrtMixed?_eq_some_iff.2 ⟨s, hs, r, hr, d, hd, rfl⟩⟩

theorem exists_sqrt? (x : Quadratic) : ∃ y, (x * x).sqrt? = some y := by
  unfold sqrt?
  split
  · next him =>
    split
    · exact ⟨_, rfl⟩
    · next hnone =>
      -- one half of the root is zero; if it were the second, the square would have a root
      have hzero : x.re * x.im = 0 := by
        have h : x.re * x.im + x.re * x.im = 0 := by rw [← him, im_mul, mul_comm x.im]
        exact eq_zero_of_add_self h
      rcases BaseResidue.mul_eq_zero_iff.1 hzero with hre | him
      · obtain ⟨y, hy⟩ := BaseResidue.exists_sqrt? x.im
        have hneg : -(x * x).re = x.im * x.im := by rw [re_mul, hre]; ring
        exact ⟨⟨0, y⟩, by rw [hneg, hy]; rfl⟩
      · obtain ⟨y, hy⟩ := BaseResidue.exists_sqrt? x.re
        have hsame : (x * x).re = x.re * x.re := by rw [re_mul, him]; ring
        rw [hsame, hy] at hnone
        cases hnone
  · next him => exact exists_sqrtMixed? him

end Quadratic

instance : LawfulCoordinate Quadratic where
  neg_neg x := Quadratic.ext (neg_neg x.re) (neg_neg x.im)
  neg_mul_neg x := by
    refine Quadratic.ext ?_ ?_
    · simp only [Quadratic.re_mul, Quadratic.re_neg, Quadratic.im_neg, neg_mul_neg]
    · simp only [Quadratic.im_mul, Quadratic.re_neg, Quadratic.im_neg, neg_mul_neg]
  mul_self_of_sqrt? := Quadratic.mul_self_of_sqrt?
  exists_sqrt? := Quadratic.exists_sqrt?
  eq_or_eq_neg := Quadratic.eq_or_eq_neg
  larger_asymm {x y} h := by
    change Quadratic.larger x y = true at h
    change Quadratic.larger y x = false
    unfold Quadratic.larger at h ⊢
    by_cases him : x.im = y.im
    · rw [if_pos him, decide_eq_true_eq] at h
      rw [if_pos him.symm, decide_eq_false_iff_not]
      omega
    · rw [if_neg him, decide_eq_true_eq] at h
      rw [if_neg (Ne.symm him), decide_eq_false_iff_not]
      omega
  larger_total {x y} h := by
    change Quadratic.larger x y = true ∨ Quadratic.larger y x = true
    unfold Quadratic.larger
    by_cases him : x.im = y.im
    · have hre : x.re.val ≠ y.re.val := fun hv => h (Quadratic.ext (Residue.ext hv) him)
      rw [if_pos him, if_pos him.symm, decide_eq_true_eq, decide_eq_true_eq]
      omega
    · have hv : x.im.val ≠ y.im.val := fun hv => him (Residue.ext hv)
      rw [if_neg him, if_neg (Ne.symm him), decide_eq_true_eq, decide_eq_true_eq]
      omega

end FieldCircuit
