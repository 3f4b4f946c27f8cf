import FieldCircuit.Proofs.PrimeField
import FieldCircuit.Proofs.Spelling

/-!
# Literals as residues

A signed constant is taken to its representative modulo `p`, so that congruent constants become one
residue and arithmetic may be done before or after. A hexadecimal literal of any length is taken to
its positional value modulo `p`, and a residue is read back from its own literal. None of this needs
`p` to be prime.
-/

namespace FieldCircuit.Residue

variable {p : Nat} [Nonzero p]

/-! ## Signed constants -/

theorem val_ofInt (c : Int) : ((ofInt c : Residue p).val : Int) = c % p := by
  have hcast : (((ofInt c : Residue p).val : Int) : ZMod p) = c := by
    rw [Int.cast_natCast]
    exact toZMod_ofInt c
  have hlt : ((ofInt c : Residue p).val : Int) < p := Int.ofNat_lt.2 (ofInt c).isLt
  rw [← (ZMod.intCast_eq_intCast_iff' _ _ p).1 hcast, Int.emod_eq_of_lt (Int.natCast_nonneg _) hlt]

theorem ofInt_eq_ofInt_iff {c d : Int} : (ofInt c : Residue p) = ofInt d ↔ c ≡ d [ZMOD p] := by
  rw [← toZMod_injective.eq_iff, toZMod_ofInt, toZMod_ofInt, ZMod.intCast_eq_intCast_iff]

theorem ofInt_add (c d : Int) : (ofInt (c + d) : Residue p) = ofInt c + ofInt d := Int.cast_add c d

theorem ofInt_mul (c d : Int) : (ofInt (c * d) : Residue p) = ofInt c * ofInt d := Int.cast_mul c d

theorem ofInt_neg (c : Int) : (ofInt (-c) : Residue p) = -ofInt c := Int.cast_neg c

/-! ## Hexadecimal literals -/

theorem ofNat_eq_iff {n : Nat} {x : Residue p} : ofNat n = x ↔ x.val = n % p := by
  rw [Residue.ext_iff, eq_comm]
  rfl

theorem ofHex?_eq_some_iff {cs : List Char} {x : Residue p} :
    ofHex? cs = some x ↔ ∃ n, Text.IsHex cs n ∧ x.val = n % p := by
  simp only [ofHex?, Option.map_eq_some_iff, Text.hex?_eq_some_iff, ofNat_eq_iff]

theorem ofHex?_eq_none_iff {cs : List Char} :
    (ofHex? cs : Option (Residue p)) = none ↔ ∀ n, ¬Text.IsHex cs n := by
  rw [ofHex?, Option.map_eq_none_iff, Option.eq_none_iff_forall_ne_some]
  simp only [ne_eq, Text.hex?_eq_some_iff]

theorem ofNat_val (x : Residue p) : ofNat x.val = x :=
  ofNat_eq_iff.2 (Nat.mod_eq_of_lt x.isLt).symm

theorem ofHex?_hex (x : Residue p) : ofHex? x.hex.toList = some x := by
  unfold ofHex? hex
  rw [Text.hex?_hex, Option.map_some, ofNat_val]

/-- A constant becomes its least representative that is not negative; congruent constants become one
residue, and sums, products and negatives of constants become those of the residues. A text is read
exactly when it is one or more hexadecimal digits behind at most one marker, as their positional
value modulo `p`, and the text of a residue is read as this residue. -/
theorem ofInt_and_ofHex_exact :
    (∀ c : Int, ((ofInt c : Residue p).val : Int) = c % p) ∧
      (∀ c d : Int, (ofInt c : Residue p) = ofInt d ↔ c ≡ d [ZMOD p]) ∧
      (∀ c d : Int, (ofInt (c + d) : Residue p) = ofInt c + ofInt d ∧
        (ofInt (c * d) : Residue p) = ofInt c * ofInt d ∧ (ofInt (-c) : Residue p) = -ofInt c) ∧
      (∀ (s : String) (x : Residue p), ofHex? s.toList = some x ↔
        ∃ n, Text.IsHex s.toList n ∧ x.val = n % p) ∧
      (∀ s : String, (ofHex? s.toList : Option (Residue p)) = none ↔ ∀ n, ¬Text.IsHex s.toList n) ∧
      ∀ x : Residue p, ofHex? x.hex.toList = some x :=
  ⟨val_ofInt, fun _ _ => ofInt_eq_ofInt_iff, fun c d => ⟨ofInt_add c d, ofInt_mul c d, ofInt_neg c⟩,
    fun _ _ => ofHex?_eq_some_iff, fun _ => ofHex?_eq_none_iff, ofHex?_hex⟩

/-- Minus ten is `p - 10`, a negative multiple of `p` is zero, `p + 15` with letters in either case
is read as fifteen, and nothing is read behind two markers. -/
theorem ofInt_and_ofHex_scalarModulus :
    (ofInt (-10) : Residue scalarModulus).val = scalarModulus - 10 ∧
      (ofInt (-2 * scalarModulus) : Residue scalarModulus) = ofInt 0 ∧
      (∃ n,
        Text.IsHex "0X30644E72e131a029b85045b68181585d2833e84879b9709143e1f593f0000010".toList n ∧
        15 = n % scalarModulus) ∧
      (∀ n, ¬Text.IsHex "0x0x1".toList n) ∧
      ofHex? (ofInt (-10) : Residue scalarModulus).hex.toList =
        some (ofInt (-10) : Residue scalarModulus) := by
  obtain ⟨hval, hcongr, -, hsome, hnone, hback⟩ := ofInt_and_ofHex_exact (p := scalarModulus)
  refine ⟨?_, (hcongr _ _).2 (by decide), ?_, (hnone "0x0x1").1 (by decide +kernel), hback _⟩
  · exact Int.ofNat_inj.1 ((hval (-10)).trans (by decide))
  · exact (hsome _ (ofNat 15)).1 (by decide +kernel)

end FieldCircuit.Residue
