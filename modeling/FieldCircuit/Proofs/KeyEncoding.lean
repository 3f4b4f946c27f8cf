import FieldCircuit.Groth16.Ideal
import FieldCircuit.Proofs.PointEncoding

/-!
# Keys and proofs are read back from their bytes

Keys and proofs are valid if their points are on the curves, those of the second one in its group,
and if the lengths of their lists can be written. Exactly the valid ones can be read, and each is
read from its encoding, whatever follows.
-/

namespace FieldCircuit

/-- The point is on the second curve and in its group. -/
structure G2.Valid (p : G2) : Prop where
  onCurve : p.OnCurve G2.b
  inGroup : p.inGroup = true

namespace Groth16

/-! ## Points and lists of points -/

/-- A list of valid items whose length can be written. -/
structure Listed {α : Type} (Valid : α → Prop) (xs : List α) : Prop where
  length : xs.length < UInt64.size
  valid : ∀ x ∈ xs, Valid x

theorem listed_replicate {α : Type} {Valid : α → Prop} {x : α} {n : Nat} (h : n < UInt64.size)
    (hx : Valid x) : Listed Valid (.replicate n x) := by
  refine ⟨by rwa [List.length_replicate], fun y hy => ?_⟩
  rwa [List.eq_of_mem_replicate hy]

theorem recovers_readG2 {p : G2} (h : p.Valid) : readG2.Recovers p.encode p :=
  (G2.recovers_read h.onCurve).one h.inGroup

theorem yields_readG2 : readG2.Yields G2.Valid := fun _ _ _ hr =>
  have ⟨hcurve, hgroup⟩ := G2.yields_read.one hr
  ⟨hcurve, hgroup⟩

theorem recovers_readG1s {ps : List G1} (h : Listed (Point.OnCurve G1.b) ps) :
    readG1s.Recovers (encodeG1s ps) ps :=
  .list (fun p hp => G1.recovers_read (h.valid p hp)) (fun _ _ => rfl) h.length

theorem yields_readG1s : readG1s.Yields (Listed (Point.OnCurve G1.b)) := fun _ _ _ hr =>
  have ⟨hlength, hpoints⟩ := G1.yields_read.list hr
  ⟨hlength, fun p hp => (hpoints p hp).1⟩

theorem recovers_listG2 {ps : List G2} (h : Listed G2.Valid ps) :
    (Decoder.list G2.inGroup G2.read).Recovers (encodeList G2.encode ps) ps :=
  .list (fun p hp => G2.recovers_read (h.valid p hp).onCurve)
    (fun p hp => (h.valid p hp).inGroup) h.length

theorem yields_listG2 : (Decoder.list G2.inGroup G2.read).Yields (Listed G2.Valid) :=
  fun _ _ _ hr =>
  have ⟨hlength, hpoints⟩ := G2.yields_read.list hr
  ⟨hlength, fun p hp => ⟨(hpoints p hp).1, (hpoints p hp).2⟩⟩

/-! ## Reading to the end -/

/-- Valid values are read back from their encodings, and only valid ones are read. -/
structure Faithful {α : Type} (read : Decoder α) (encode : α → List UInt8) (Valid : α → Prop) :
    Prop where
  recovers : ∀ x, Valid x → read.Recovers (encode x) x
  yields : read.Yields Valid

namespace Faithful

variable {α : Type} {read : Decoder α} {encode : α → List UInt8} {Valid : α → Prop} {x : α}

theorem decode_encode (h : Faithful read encode Valid) (hx : Valid x) (rest : List UInt8) :
    decode read (encode x ++ rest) = .ok x := by
  unfold decode StateT.run
  rw [h.recovers x hx rest]
  rfl

theorem of_decode (h : Faithful read encode Valid) {bytes : List UInt8}
    (hx : decode read bytes = .ok x) : Valid x := by
  unfold decode StateT.run at hx
  cases hr : read bytes with
  | error fault =>
    rw [hr] at hx
    cases hx
  | ok r =>
    rw [hr] at hx
    cases hx
    exact h.yields hr

theorem exists_decode_iff (h : Faithful read encode Valid) :
    (∃ bytes, decode read bytes = .ok x) ↔ Valid x := by
  constructor
  · rintro ⟨bytes, hx⟩
    exact h.of_decode hx
  · intro hx
    exact ⟨encode x ++ [], h.decode_encode hx []⟩

end Faithful

/-! ## Proofs -/

namespace Proof

structure Valid (p : Proof) : Prop where
  a : p.a.OnCurve G1.b
  b : p.b.Valid
  c : p.c.OnCurve G1.b

theorem recovers_read (p : Proof) (h : p.Valid) : read.Recovers p.encode p := by
  unfold encode
  rw [List.append_assoc]
  refine (G1.recovers_read h.a).bind ((recovers_readG2 h.b).bind ?_)
  exact (G1.recovers_read h.c).bind_nil (Decoder.recovers_pure p)

theorem yields_read : read.Yields Valid := by
  refine G1.yields_read.bind fun a ha => yields_readG2.bind fun b hb => ?_
  exact G1.yields_read.bind fun c hc => Decoder.yields_pure ⟨ha, hb, hc⟩

theorem faithful : Faithful read encode Valid := ⟨recovers_read, yields_read⟩

end Proof

/-! ## Keys -/

namespace VerifyingKey

structure Valid (k : VerifyingKey) : Prop where
  alpha : k.alpha.OnCurve G1.b
  beta : k.beta.Valid
  gamma : k.gamma.Valid
  delta : k.delta.Valid
  publics : Listed (Point.OnCurve G1.b) k.publics

theorem recovers_read (k : VerifyingKey) (h : k.Valid) : read.Recovers k.encode k := by
  unfold encode
  simp only [List.append_assoc]
  refine (G1.recovers_read h.alpha).bind ((recovers_readG2 h.beta).bind ?_)
  refine (recovers_readG2 h.gamma).bind ((recovers_readG2 h.delta).bind ?_)
  exact (recovers_readG1s h.publics).bind_nil (Decoder.recovers_pure k)

theorem yields_read : read.Yields Valid := by
  refine G1.yields_read.bind fun alpha halpha => yields_readG2.bind fun beta hbeta => ?_
  refine yields_readG2.bind fun gamma hgamma => yields_readG2.bind fun delta hdelta => ?_
  refine yields_readG1s.bind fun publics hpublics => ?_
  exact Decoder.yields_pure ⟨halpha, hbeta, hgamma, hdelta, hpublics⟩

theorem faithful : Faithful read encode Valid := ⟨recovers_read, yields_read⟩

end VerifyingKey

namespace ProvingKey

structure Valid (k : ProvingKey) : Prop where
  verifyingKey : k.verifyingKey.Valid
  beta : k.beta.OnCurve G1.b
  delta : k.delta.OnCurve G1.b
  a : Listed (Point.OnCurve G1.b) k.a
  bFirst : Listed (Point.OnCurve G1.b) k.bFirst
  bSecond : Listed G2.Valid k.bSecond
  h : Listed (Point.OnCurve G1.b) k.h
  l : Listed (Point.OnCurve G1.b) k.l

theorem recovers_read (k : ProvingKey) (hk : k.Valid) : read.Recovers k.encode k := by
  unfold encode
  simp only [List.append_assoc]
  refine (VerifyingKey.recovers_read _ hk.verifyingKey).bind ((G1.recovers_read hk.beta).bind ?_)
  refine (G1.recovers_read hk.delta).bind ((recovers_readG1s hk.a).bind ?_)
  refine (recovers_readG1s hk.bFirst).bind ((recovers_listG2 hk.bSecond).bind ?_)
  refine (recovers_readG1s hk.h).bind ((recovers_readG1s hk.l).bind_nil ?_)
  exact Decoder.recovers_pure k

theorem yields_read : read.Yields Valid := by
  refine VerifyingKey.yields_read.bind fun key hkey => G1.yields_read.bind fun beta hbeta => ?_
  refine G1.yields_read.bind fun delta hdelta => yields_readG1s.bind fun a ha => ?_
  refine yields_readG1s.bind fun first hfirst => yields_listG2.bind fun second hsecond => ?_
  refine yields_readG1s.bind fun h hh => yields_readG1s.bind fun l hl => ?_
  exact Decoder.yields_pure ⟨hkey, hbeta, hdelta, ha, hfirst, hsecond, hh, hl⟩

theorem faithful : Faithful read encode Valid := ⟨recovers_read, yields_read⟩

end ProvingKey

/-! ## The ideal proof system -/

theorem multiple_infinity {F : Type} [Coordinate F] (n bits : Nat) :
    (Point.infinity : Point F).multiple n bits = .infinity := by
  induction bits generalizing n with
  | zero => rfl
  | succ bits ih =>
    rw [Point.multiple, ih]
    split <;> rfl

theorem valid_infinity : G2.Valid .infinity :=
  ⟨trivial, decide_eq_true (multiple_infinity _ _)⟩

namespace Ideal

variable {s : ConstraintSystem scalarModulus}

theorem valid_verifyingKey (h : s.publicColumns < UInt64.size) : (verifyingKey s).Valid :=
  ⟨trivial, valid_infinity, valid_infinity, valid_infinity, listed_replicate h trivial⟩

/-- The keys for a system can be read from the bytes that are written for them. -/
theorem valid_provingKey (hcolumns : s.publicColumns + s.secretColumns < UInt64.size)
    (hdomain : domainSize s ≤ UInt64.size) : (provingKey s).Valid where
  verifyingKey := valid_verifyingKey (by omega)
  beta := trivial
  delta := trivial
  a := listed_replicate hcolumns trivial
  bFirst := listed_replicate hcolumns trivial
  bSecond := listed_replicate hcolumns valid_infinity
  h := by
    have hpos : 0 < UInt64.size := by decide
    exact listed_replicate (by omega) trivial
  l := listed_replicate (by omega) trivial

theorem Attestation.reread_of_valid {a : Attestation} (h : a.proof.Valid) : a.reread = .ok a := by
  have hdecode := Proof.faithful.decode_encode h []
  rw [List.append_nil] at hdecode
  exact except_bind_of_ok hdecode

/-- Proofs survive being written and read. -/
theorem reread_of_prove {key : ProvingKey} {a : Attestation}
    (h : (snark.prove key s).run () = .ok (a, ())) : a.reread = .ok a := by
  cases h
  exact Attestation.reread_of_valid ⟨trivial, valid_infinity, trivial⟩

end Ideal

end Groth16

end FieldCircuit
