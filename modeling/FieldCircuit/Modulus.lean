/-!
# Moduli

The two primes of the BN254 pairing curve: its coordinates are residues modulo `baseModulus`, and
its groups have `scalarModulus` elements.
-/

namespace FieldCircuit

/-- Moduli are not zero. The zero is written out, so that the class does not depend on which
instance of `Zero Nat` is in scope. -/
abbrev Nonzero (p : Nat) : Prop := @NeZero Nat ⟨0⟩ p

abbrev scalarModulus : Nat :=
  21888242871839275222246405745257275088548364400416034343698204186575808495617

abbrev baseModulus : Nat :=
  21888242871839275222246405745257275088696311157297823662689037894645226208583

instance : Nonzero scalarModulus := ⟨by decide⟩

instance : Nonzero baseModulus := ⟨by decide⟩

end FieldCircuit
