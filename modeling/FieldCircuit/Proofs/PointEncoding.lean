import FieldCircuit.Curve.Encoding
import FieldCircuit.Proofs.Computation
import FieldCircuit.Proofs.Coordinates

/-!
# Points are read back from their bytes

A decoder recovers a value from bytes if it reads the value from them and leaves what follows
(`Decoder.Recovers`), and it yields values with a property if it can read no others
(`Decoder.Yields`). Both pass through sequences, lists and checks. A point of a curve is recovered
from its encoding, since its abscissa has two ordinates and the flags tell which, and only points of
the curve are read.
-/

namespace FieldCircuit

/-! ## Numbers -/

theorem length_littleEndian (x n : Nat) : (littleEndian x n).length = n := by
  induction n generalizing x with
  | zero => rfl
  | succ n ih => rw [littleEndian, List.length_cons, ih]

theorem ofLittleEndian_littleEndian {x n : Nat} (h : x < 256 ^ n) :
    ofLittleEndian (littleEndian x n) = x := by
  induction n generalizing x with
  | zero =>
    obtain rfl : x = 0 := by simpa using h
    rfl
  | succ n ih =>
    have hdiv : x / 256 < 256 ^ n := by
      rw [pow_succ] at h
      omega
    rw [littleEndian, ofLittleEndian, ih hdiv, Nat.toUInt8, UInt8.toNat_ofNat']
    omega

theorem ofLittleEndian_lt (bs : List UInt8) : ofLittleEndian bs < 256 ^ bs.length := by
  induction bs with
  | nil => decide
  | cons b bs ih =>
    have hb := b.toNat_lt
    rw [ofLittleEndian, List.length_cons, pow_succ]
    omega

/-! ## Decoders -/

namespace Decoder

variable {α β : Type}

/-- The value is read from the bytes, and what follows is left. -/
def Recovers (read : Decoder α) (bytes : List UInt8) (x : α) : Prop :=
  ∀ rest, read (bytes ++ rest) = .ok (x, rest)

/-- All values that can be read have the property. -/
def Yields (read : Decoder α) (P : α → Prop) : Prop :=
  ∀ ⦃input x rest⦄, read input = .ok (x, rest) → P x

theorem recovers_pure (x : α) : Recovers (pure x) [] x := fun _ => rfl

theorem Recovers.bind {read : Decoder α} {f : α → Decoder β} {bytes bytes' : List UInt8} {x : α}
    {y : β} (h : read.Recovers bytes x) (h' : (f x).Recovers bytes' y) :
    (read >>= f).Recovers (bytes ++ bytes') y := by
  intro rest
  rw [List.append_assoc]
  exact (except_bind_of_ok (h (bytes' ++ rest))).trans (h' rest)

/-- The second part reads nothing. -/
theorem Recovers.bind_nil {read : Decoder α} {f : α → Decoder β} {bytes : List UInt8} {x : α}
    {y : β} (h : read.Recovers bytes x) (h' : (f x).Recovers [] y) :
    (read >>= f).Recovers bytes y := by
  have hbind := h.bind h'
  rwa [List.append_nil] at hbind

theorem Recovers.map {read : Decoder α} {bytes : List UInt8} {x : α} (f : α → β)
    (h : read.Recovers bytes x) : (f <$> read).Recovers bytes (f x) :=
  fun rest => except_bind_of_ok (h rest)

theorem recovers_lift {r : Except EncodingFault α} {x : α} (h : r = .ok x) :
    Recovers (liftM r) [] x := by
  subst h
  exact fun _ => rfl

theorem yields_pure {P : α → Prop} {x : α} (h : P x) : Yields (pure x) P := by
  intro input y rest hr
  cases hr
  exact h

theorem Yields.bind {read : Decoder α} {f : α → Decoder β} {P : α → Prop} {Q : β → Prop}
    (h : read.Yields P) (h' : ∀ x, P x → (f x).Yields Q) : (read >>= f).Yields Q := by
  intro input y rest hr
  obtain ⟨⟨x, rest'⟩, hx, hy⟩ := exists_ok_of_except_bind hr
  exact h' x (h hx) hy

theorem Yields.map {read : Decoder α} {P : β → Prop} {f : α → β}
    (h : read.Yields fun x => P (f x)) : (f <$> read).Yields P := by
  intro input y rest hr
  obtain ⟨⟨x, rest'⟩, hx, hy⟩ := exists_ok_of_except_bind hr
  cases hy
  exact h hx

theorem yields_throw {P : α → Prop} (fault : EncodingFault) : Yields (throw fault) P := by
  intro input x rest hr
  cases hr

theorem yields_lift {P : α → Prop} {r : Except EncodingFault α} (h : ∀ x, r = .ok x → P x) :
    Yields (liftM r) P := by
  intro input x rest hr
  obtain ⟨y, hy, hr⟩ := exists_ok_of_except_bind hr
  cases hr
  exact h x hy

theorem recovers_bytes {bs : List UInt8} {n : Nat} (h : bs.length = n) :
    (bytes n).Recovers bs bs := by
  intro rest
  subst h
  simp [bytes]

theorem recovers_natural {x n : Nat} (h : x < 256 ^ n) :
    (natural n).Recovers (littleEndian x n) x := by
  have hmap := (recovers_bytes (length_littleEndian x n)).map ofLittleEndian
  rwa [ofLittleEndian_littleEndian h] at hmap

theorem yields_natural (n : Nat) : (natural n).Yields (· < 256 ^ n) := by
  refine Yields.map fun input bs rest h => ?_
  simp only [bytes] at h
  split at h
  · next hlength =>
    cases h
    have hlt := ofLittleEndian_lt (input.splitAt n).1
    rwa [hlength] at hlt
  · cases h

/-! ### Items and lists -/

theorem Recovers.one {read : Decoder α} {valid : α → Bool} {bytes : List UInt8} {x : α}
    (h : read.Recovers bytes x) (hx : valid x = true) : (one valid read).Recovers bytes x := by
  refine h.bind_nil ?_
  rw [if_pos hx]
  exact recovers_pure x

theorem Yields.one {read : Decoder α} {valid : α → Bool} {P : α → Prop} (h : read.Yields P) :
    (one valid read).Yields fun x => P x ∧ valid x = true := by
  refine h.bind fun x hx => ?_
  split
  · next hv => exact yields_pure ⟨hx, hv⟩
  · exact yields_throw _

theorem Recovers.repeated {read : Decoder α} {encode : α → List UInt8} {xs : List α}
    (h : ∀ x ∈ xs, read.Recovers (encode x) x) :
    (repeated read xs.length).Recovers (xs.flatMap encode) xs := by
  induction xs with
  | nil => exact recovers_pure []
  | cons x xs ih =>
    obtain ⟨hx, hxs⟩ := List.forall_mem_cons.1 h
    exact hx.bind ((ih hxs).bind_nil (recovers_pure (x :: xs)))

theorem Yields.repeated {read : Decoder α} {P : α → Prop} (h : read.Yields P) (n : Nat) :
    (repeated read n).Yields fun xs => xs.length = n ∧ ∀ x ∈ xs, P x := by
  induction n with
  | zero => exact yields_pure ⟨rfl, by simp⟩
  | succ n ih =>
    refine h.bind fun x hx => ih.bind fun xs hxs => yields_pure ⟨?_, ?_⟩
    · rw [List.length_cons, hxs.1]
    · exact List.forall_mem_cons.2 ⟨hx, hxs.2⟩

theorem Recovers.list {read : Decoder α} {encode : α → List UInt8} {valid : α → Bool} {xs : List α}
    (h : ∀ x ∈ xs, read.Recovers (encode x) x) (hvalid : ∀ x ∈ xs, valid x = true)
    (hlength : xs.length < UInt64.size) :
    (list valid read).Recovers (encodeList encode xs) xs := by
  refine (recovers_natural hlength).bind ((Recovers.repeated h).bind_nil ?_)
  rw [if_pos (List.all_eq_true.2 hvalid)]
  exact recovers_pure xs

theorem Yields.list {read : Decoder α} {valid : α → Bool} {P : α → Prop} (h : read.Yields P) :
    (list valid read).Yields fun xs =>
      xs.length < UInt64.size ∧ ∀ x ∈ xs, P x ∧ valid x = true := by
  refine (yields_natural 8).bind fun n hn => (h.repeated n).bind fun xs hxs => ?_
  split
  · next hall =>
    refine yields_pure ⟨hxs.1 ▸ hn, fun x hx => ⟨hxs.2 x hx, ?_⟩⟩
    exact List.all_eq_true.1 hall x hx
  · exact yields_throw _

end Decoder

/-! ## Coordinates -/

theorem Decoder.recovers_residue (x : BaseResidue) : (Decoder.residue x.val).Recovers [] x := by
  unfold Decoder.residue
  rw [dif_pos x.isLt]
  exact recovers_pure x

/-- The flags stand above the bits of a residue. -/
theorem Sign.split_add {n : Nat} (sign : Sign) (h : n < Nat.pow 2 254) :
    split (n + sign.flags * Nat.pow 2 254) = .ok (sign, n) := by
  have hpos : 0 < Nat.pow 2 254 := Nat.zero_lt_of_lt h
  have hdiv : (n + sign.flags * Nat.pow 2 254) / Nat.pow 2 254 = sign.flags := by
    rw [Nat.add_mul_div_right _ _ hpos, Nat.div_eq_of_lt h, Nat.zero_add]
  have hmod : (n + sign.flags * Nat.pow 2 254) % Nat.pow 2 254 = n := by
    rw [Nat.add_mul_mod_self_right, Nat.mod_eq_of_lt h]
  unfold split
  dsimp only
  rw [hdiv, hmod]
  cases sign <;> rfl

theorem BaseResidue.recovers_read (sign : Sign) (x : BaseResidue) :
    BaseResidue.read.Recovers (BaseResidue.bytes sign x) (sign, x) := by
  have hx : x.val < Nat.pow 2 254 := Nat.lt_trans x.isLt (by decide)
  have hlt : x.val + sign.flags * Nat.pow 2 254 < 256 ^ 32 := by
    have hpow : (256 : Nat) ^ 32 = 4 * Nat.pow 2 254 := by decide
    cases sign <;> simp only [Sign.flags, hpow] <;> omega
  refine (Decoder.recovers_natural hlt).bind_nil ?_
  refine (Decoder.recovers_lift (Sign.split_add sign hx)).bind_nil ?_
  exact (Decoder.recovers_residue x).bind_nil (Decoder.recovers_pure (sign, x))

theorem Quadratic.recovers_read (sign : Sign) (x : Quadratic) :
    Quadratic.read.Recovers (Quadratic.bytes sign x) (sign, x) := by
  have hlt : x.re.val < 256 ^ 32 := Nat.lt_trans x.re.isLt (by decide)
  refine (Decoder.recovers_natural hlt).bind ?_
  refine (Decoder.recovers_residue x.re).bind ?_
  exact (BaseResidue.recovers_read sign x.im).bind_nil (Decoder.recovers_pure (sign, x))

/-! ## Points -/

namespace Point

variable {F : Type} [Coordinate F] {b x y : F}

/-- The point at infinity is on every curve. -/
def OnCurve (b : F) : Point F → Prop
  | infinity => True
  | affine x y => y * y = x * x * x + b

open Coordinate

theorem ordinates?_eq {r : F} (h : sqrt? (x * x * x + b) = some r) :
    ordinates? b x = some (if larger r (-r) then (-r, r) else (r, -r)) := by
  rw [ordinates?, h, Option.map_some]

variable [LawfulCoordinate F]

/-- The flags of a point's ordinate tell it from its opposite. -/
theorem ofAbscissa_of_onCurve (h : y * y = x * x * x + b) :
    ofAbscissa b (if larger y (-y) then .larger else .smaller, x) = .ok (affine x y) := by
  obtain ⟨r, hr⟩ := LawfulCoordinate.exists_sqrt? y
  have hroot := LawfulCoordinate.mul_self_of_sqrt? hr
  rw [h] at hr
  have hordinates := ordinates?_eq hr
  rcases LawfulCoordinate.eq_or_eq_neg hroot with rfl | rfl
  · by_cases hl : larger r (-r) = true
    · rw [if_pos hl, ofAbscissa, hordinates, if_pos hl]
      rfl
    · rw [if_neg hl, ofAbscissa, hordinates, if_neg hl]
      rfl
  · rw [LawfulCoordinate.neg_neg] at hordinates
    by_cases hl : larger y (-y) = true
    · rw [LawfulCoordinate.larger_asymm hl] at hordinates
      rw [if_pos hl, ofAbscissa, hordinates]
      rfl
    · rw [if_neg hl, ofAbscissa, hordinates]
      by_cases hl' : larger (-y) y = true
      · rw [if_pos hl']
        rfl
      · -- neither ordinate is larger, so that both are the same
        have hsame : y = -y := by
          by_contra hne
          exact (LawfulCoordinate.larger_total hne).elim hl hl'
        rw [if_neg hl', Option.elim_some, ← hsame]

theorem mul_self_of_ordinates? {ys : F × F} (h : ordinates? b x = some ys) :
    ys.1 * ys.1 = x * x * x + b ∧ ys.2 * ys.2 = x * x * x + b := by
  unfold ordinates? at h
  obtain ⟨r, hr, rfl⟩ := Option.map_eq_some_iff.1 h
  have hroot := LawfulCoordinate.mul_self_of_sqrt? hr
  have hneg := (LawfulCoordinate.neg_mul_neg r).trans hroot
  split
  · exact ⟨hneg, hroot⟩
  · exact ⟨hroot, hneg⟩

omit [Coordinate F] [LawfulCoordinate F] in
theorem exists_of_elim {o : Option (F × F)} {f : F × F → Point F} {p : Point F}
    (h : o.elim (Except.error EncodingFault.invalidData) (fun ys => .ok (f ys)) = .ok p) :
    ∃ ys, o = some ys ∧ p = f ys := by
  cases o with
  | none => cases h
  | some ys =>
    cases h
    exact ⟨ys, rfl, rfl⟩

theorem onCurve_of_ofAbscissa {p : Point F} {sign : Sign} (h : ofAbscissa b (sign, x) = .ok p) :
    p.OnCurve b := by
  cases sign with
  | infinity =>
    cases h
    trivial
  | smaller =>
    obtain ⟨ys, hys, rfl⟩ := exists_of_elim (f := fun ys => affine x ys.1) h
    exact (mul_self_of_ordinates? hys).1
  | larger =>
    obtain ⟨ys, hys, rfl⟩ := exists_of_elim (f := fun ys => affine x ys.2) h
    exact (mul_self_of_ordinates? hys).2

/-- With coordinates that are recovered, so are the points of a curve. -/
theorem recovers_encode {read : Decoder (Sign × F)} {bytes : Sign → F → List UInt8}
    (hread : ∀ sign x, read.Recovers (bytes sign x) (sign, x)) {p : Point F} (hp : p.OnCurve b) :
    (read >>= fun x => liftM (ofAbscissa b x)).Recovers (p.encode bytes) p := by
  cases p with
  | infinity => exact (hread .infinity 0).bind_nil (Decoder.recovers_lift rfl)
  | affine x y => exact (hread _ x).bind_nil (Decoder.recovers_lift (ofAbscissa_of_onCurve hp))

theorem yields_onCurve (read : Decoder (Sign × F)) :
    (read >>= fun x => liftM (ofAbscissa b x)).Yields (OnCurve b) := by
  have hread : read.Yields fun _ => True := fun _ _ _ _ => trivial
  exact hread.bind fun x _ => Decoder.yields_lift fun p hp => onCurve_of_ofAbscissa hp

end Point

theorem G1.recovers_read {p : G1} (h : p.OnCurve G1.b) : G1.read.Recovers p.encode p :=
  Point.recovers_encode BaseResidue.recovers_read h

-- the first curve has points other than the one at infinity
example : Point.OnCurve G1.b (.affine (.ofNat 1) (.ofNat 2)) := rfl

theorem G1.yields_read : G1.read.Yields fun p => p.OnCurve G1.b :=
  Point.yields_onCurve BaseResidue.read

theorem G2.recovers_read {p : G2} (h : p.OnCurve G2.b) : G2.read.Recovers p.encode p :=
  Point.recovers_encode Quadratic.recovers_read h

theorem G2.yields_read : G2.read.Yields fun p => p.OnCurve G2.b :=
  Point.yields_onCurve Quadratic.read

end FieldCircuit
