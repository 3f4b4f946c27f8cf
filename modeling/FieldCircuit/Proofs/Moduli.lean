import FieldCircuit.Proofs.PrimeField
import Mathlib.Data.List.Prime
import Mathlib.NumberTheory.LucasPrimality
import Mathlib.Tactic.NormNum.Prime

/-!
# The moduli are prime

A number `n` is prime if a residue modulo `n` has order `n - 1`, which its powers by `n - 1` and by
the quotients of `n - 1` by prime factors tell. A `Certificate` names the residue and the factors. A
chain of certificates, in which a factor is small or certified before, ends in both moduli.
-/

namespace FieldCircuit

/-- A residue whose order modulo the number is one less than the number, and the prime factors of
that order with their multiplicity. -/
structure Certificate where
  number : Nat
  generator : Nat
  factors : List Nat

namespace Certificate

/-- The factors are among the known ones and multiply to the order, which is that of the
generator. -/
def holds (known : List Nat) (c : Certificate) : Bool :=
  if h : c.number = 0 then false
  else
    have : Nonzero c.number := ⟨h⟩
    let g : Residue c.number := .ofNat c.generator
    c.factors.all (known.contains ·) && c.factors.prod == c.number - 1 &&
      g.pow (c.number - 1) == 1 && c.factors.all fun f => g.pow ((c.number - 1) / f) != 1

theorem prime_of_holds {known : List Nat} {c : Certificate} (hk : ∀ f ∈ known, f.Prime)
    (h : c.holds known = true) : c.number.Prime := by
  unfold holds at h
  split at h
  · cases h
  · next hne =>
    have : Nonzero c.number := ⟨hne⟩
    simp only [Bool.and_eq_true, List.all_eq_true, List.contains_iff_mem, beq_iff_eq,
      bne_iff_ne] at h
    obtain ⟨⟨⟨hknown, hprod⟩, hone⟩, hpowers⟩ := h
    refine lucas_primality c.number (Residue.ofNat c.generator : Residue c.number).toZMod ?_ ?_
    · rw [← Residue.toZMod_pow, hone, Residue.toZMod_one]
    · intro q hq hdvd
      rw [← hprod] at hdvd
      have hmem :=
        mem_list_primes_of_dvd_prod hq.prime (fun f hf => (hk f (hknown f hf)).prime) hdvd
      rw [← Residue.toZMod_pow, ← Residue.toZMod_one]
      exact fun he => hpowers q hmem (Residue.toZMod_injective he)

/-- Each certificate holds by the known numbers and those certified before it. -/
def chain : List Nat → List Certificate → Bool
  | _, [] => true
  | known, c :: cs => c.holds known && chain (c.number :: known) cs

theorem prime_of_chain {known : List Nat} {cs : List Certificate} (hk : ∀ f ∈ known, f.Prime)
    (h : chain known cs = true) : ∀ n ∈ cs.map number, n.Prime := by
  induction cs generalizing known with
  | nil => simp
  | cons c cs ih =>
    obtain ⟨hc, hcs⟩ := Bool.and_eq_true_iff.1 h
    have hp := prime_of_holds hk hc
    exact List.forall_mem_cons.2 ⟨hp, ih (List.forall_mem_cons.2 ⟨hp, hk⟩) hcs⟩

end Certificate

/-! ## The chain -/

def smallPrimes : List Nat :=
  [2, 3, 5, 7, 11, 13, 19, 29, 41, 67, 73, 83, 89, 107, 229, 311, 379, 661, 823, 853, 911, 983,
    1637, 3557, 3691, 4999, 11003, 13327, 93001, 237073, 327599, 1593227, 1853641, 4562087]

theorem prime_of_mem_smallPrimes : ∀ f ∈ smallPrimes, f.Prime := by
  norm_num [smallPrimes]

def moduliCertificates : List Certificate :=
  [⟨405928799, 22, [2, 11, 3691, 4999]⟩,
    ⟨11465965001, 3, [2, 2, 2, 5, 5, 5, 5, 7, 327599]⟩,
    ⟨173171039, 13, [2, 73, 89, 13327]⟩,
    ⟨1263766531, 10, [2, 3, 5, 13, 911, 3557]⟩,
    ⟨35385462869, 2, [2, 2, 7, 1263766531]⟩,
    ⟨2480874801745591, 6, [2, 3, 3, 5, 19, 41, 35385462869]⟩,
    ⟨13427688667394608761327070753331941386769, 17,
      [2, 2, 2, 2, 3, 7, 11, 1853641, 4562087, 173171039, 2480874801745591]⟩,
    ⟨baseModulus, 3, [2, 3, 3, 13, 29, 67, 229, 311, 983, 11003, 405928799, 11465965001,
      13427688667394608761327070753331941386769]⟩,
    ⟨12048837557, 2, [2, 2, 7, 7, 661, 93001]⟩,
    ⟨5156902474397, 2, [2, 2, 107, 12048837557]⟩,
    ⟨1670836401704629, 2, [2, 2, 3, 3, 3, 3, 5156902474397]⟩,
    ⟨639533339, 2, [2, 229, 853, 1637]⟩,
    ⟨65865678001877903, 5, [2, 83, 379, 1637, 639533339]⟩,
    ⟨13818364434197438864469338081, 3, [2, 2, 2, 2, 2, 5, 823, 1593227, 65865678001877903]⟩,
    ⟨scalarModulus, 5, .replicate 28 2 ++ [3, 3, 13, 29, 983, 11003, 237073, 405928799,
      1670836401704629, 13818364434197438864469338081]⟩]

theorem chain_moduliCertificates : Certificate.chain smallPrimes moduliCertificates = true := by
  decide +kernel

theorem prime_baseModulus : baseModulus.Prime :=
  Certificate.prime_of_chain prime_of_mem_smallPrimes chain_moduliCertificates baseModulus
    (by decide)

/-- So what holds for prime moduli holds of the field in which a command computes. -/
theorem prime_scalarModulus : scalarModulus.Prime :=
  Certificate.prime_of_chain prime_of_mem_smallPrimes chain_moduliCertificates scalarModulus
    (by decide)

end FieldCircuit
