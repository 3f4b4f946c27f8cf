import FieldCircuit.Proofs.Faults

/-!
# Evaluation from below

`ascend` computes the wires in ascending order, each from the values of smaller wires. It knows
nothing of declared outputs and asks for no wire ahead of its turn, and still it finds the same
values as evaluation on demand: both succeed with the solution of the circuit and with nothing else.
-/

namespace FieldCircuit

variable {p : Nat} [Nonzero p]

namespace Circuit

open Evaluator

/-- The value of a wire, its gate computed from a table of the smaller wires. -/
def valueFrom (c : Circuit) (a : Assignment p) (t : Table p) (w : Wire) :
    Except Fault (Residue p) :=
  match c.gate? w with
  | none => .error (.missingWire w)
  | some g =>
    match g.checkMonotonic with
    | .error fault => .error fault
    | .ok () =>
      match gateValues ⟨c, a⟩ t g with
      | .error fault => .error fault
      | .ok xs =>
        match (g.outputs.zip xs).lookup w with
        | some x => .ok x
        | none => .error (.missingWire w)

/-- The values of the wires below `n`, in ascending order. -/
def ascendTo (c : Circuit) (a : Assignment p) : Nat → Except Fault (Table p)
  | 0 => .ok ∅
  | n + 1 => do
    let t ← c.ascendTo a n
    let x ← c.valueFrom a t n.toUInt64
    return t.insert n.toUInt64 x

/-- The values of all wires, in ascending order. -/
def ascend (c : Circuit) (a : Assignment p) : Except Fault (Table p) := c.ascendTo a c.total.toNat

variable {c : Circuit} {a : Assignment p} {t t' : Table p}

/-! ## One wire -/

theorem valueFrom_eq_ok_iff {w : Wire} {x : Residue p} :
    c.valueFrom a t w = .ok x ↔
      ∃ g xs, c.gate? w = some g ∧ g.checkMonotonic = .ok () ∧ gateValues ⟨c, a⟩ t g = .ok xs ∧
        (g.outputs.zip xs).lookup w = some x := by
  unfold valueFrom
  cases hg : c.gate? w with
  | none => simp
  | some g =>
    cases hm : g.checkMonotonic with
    | error fault => simp [hm]
    | ok u =>
      cases hx : gateValues ⟨c, a⟩ t g with
      | error fault => simp [hm, hx]
      | ok xs => cases hl : (g.outputs.zip xs).lookup w <;> simp [hm, hx, hl]

/-- A wire's value depends on smaller wires only. -/
theorem valueFrom_congr {n : Nat} {w : Wire} (hw : w.toNat ≤ n)
    (h : ∀ v : Wire, v.toNat < n → t[v]? = t'[v]?) : c.valueFrom a t w = c.valueFrom a t' w := by
  unfold valueFrom
  cases hg : c.gate? w with
  | none => rfl
  | some g =>
    cases hm : g.checkMonotonic with
    | error fault => simp only [hm]
    | ok u =>
      have hlt : ∀ v ∈ g.inputs, v.toNat < n := by
        intro v hv
        have := UInt64.lt_iff_toNat_lt.1 (Enters.lt (e := ⟨c, a⟩) ⟨hg, hm⟩ hv)
        omega
      simp only [gateValues_congr fun v hv => h v (hlt v hv)]

/-! ## The wires below a bound -/

/-- The table has a value for each wire below `n`, the one that follows from the smaller wires. -/
structure Ascended (c : Circuit) (a : Assignment p) (n : Nat) (t : Table p) : Prop where
  mem_iff : ∀ w : Wire, w ∈ t ↔ w.toNat < n
  value : ∀ w : Wire, w.toNat < n → ∃ x, c.valueFrom a t w = .ok x ∧ t[w]? = some x

theorem eq_toUInt64_iff {n : Nat} (hn : n < UInt64.size) {w : Wire} :
    n.toUInt64 = w ↔ w.toNat = n := by
  rw [← UInt64.toNat_inj, UInt64.toNat_ofNat_of_lt' hn, eq_comm]

theorem Ascended.insert {n : Nat} (hn : n < UInt64.size) (ht : c.Ascended a n t) {x : Residue p}
    (hx : c.valueFrom a t n.toUInt64 = .ok x) : c.Ascended a (n + 1) (t.insert n.toUInt64 x) := by
  have hother : ∀ v : Wire, v.toNat ≠ n → (t.insert n.toUInt64 x)[v]? = t[v]? := by
    intro v hv
    have hne : n.toUInt64 ≠ v := mt (eq_toUInt64_iff hn).1 hv
    simp [Std.ExtTreeMap.getElem?_insert, hne]
  have hsmall : ∀ w : Wire, w.toNat ≤ n →
      c.valueFrom a (t.insert n.toUInt64 x) w = c.valueFrom a t w :=
    fun w hw => valueFrom_congr hw fun v hv => hother v (by omega)
  refine ⟨fun w => ?_, fun w hw => ?_⟩
  · rw [Std.ExtTreeMap.mem_insert, Std.compare_eq_iff_eq, eq_toUInt64_iff hn, ht.mem_iff]
    omega
  · rw [hsmall w (by omega)]
    by_cases he : w.toNat = n
    · obtain rfl := (eq_toUInt64_iff hn).2 he
      exact ⟨x, hx, Std.ExtTreeMap.getElem?_insert_self⟩
    · rw [hother w he]
      exact ht.value w (by omega)

/-- Without its last wire the table is one of the smaller wires, from which the last one follows. -/
theorem Ascended.erase {n : Nat} (hn : n < UInt64.size) (ht : c.Ascended a (n + 1) t) :
    c.Ascended a n (t.erase n.toUInt64) ∧
      ∃ x, c.valueFrom a (t.erase n.toUInt64) n.toUInt64 = .ok x ∧
        (t.erase n.toUInt64).insert n.toUInt64 x = t := by
  have hto : n.toUInt64.toNat = n := UInt64.toNat_ofNat_of_lt' hn
  have hother : ∀ v : Wire, v.toNat ≠ n → (t.erase n.toUInt64)[v]? = t[v]? := by
    intro v hv
    have hne : n.toUInt64 ≠ v := mt (eq_toUInt64_iff hn).1 hv
    simp [Std.ExtTreeMap.getElem?_erase, hne]
  have hsmall : ∀ w : Wire, w.toNat ≤ n →
      c.valueFrom a (t.erase n.toUInt64) w = c.valueFrom a t w :=
    fun w hw => valueFrom_congr hw fun v hv => hother v (by omega)
  obtain ⟨x, hx, hlast⟩ := ht.value n.toUInt64 (by omega)
  refine ⟨⟨fun w => ?_, fun w hw => ?_⟩, x, ?_, ?_⟩
  · rw [Std.ExtTreeMap.mem_erase, ne_eq, Std.compare_eq_iff_eq, eq_toUInt64_iff hn, ht.mem_iff]
    omega
  · rw [hsmall w (by omega), hother w (by omega)]
    exact ht.value w (by omega)
  · rw [hsmall _ (by omega), hx]
  · apply Std.ExtTreeMap.ext_getElem?
    intro v
    by_cases he : v.toNat = n
    · obtain rfl := (eq_toUInt64_iff hn).2 he
      rw [Std.ExtTreeMap.getElem?_insert_self, hlast]
    · have hne : n.toUInt64 ≠ v := mt (eq_toUInt64_iff hn).1 he
      simp [Std.ExtTreeMap.getElem?_insert, Std.ExtTreeMap.getElem?_erase, hne]

theorem ascendTo_eq_ok_iff {n : Nat} (hn : n ≤ UInt64.size) :
    c.ascendTo a n = .ok t ↔ c.Ascended a n t := by
  induction n generalizing t with
  | zero =>
    constructor
    · intro h
      cases h
      exact ⟨fun w => by simp, fun w hw => by omega⟩
    · intro ht
      have hempty : t = ∅ := by
        apply Std.ExtTreeMap.ext_getElem?
        intro w
        have hw : w ∉ t := fun h => Nat.not_lt_zero _ ((ht.mem_iff w).1 h)
        rw [Std.ExtTreeMap.getElem?_eq_none hw, Std.ExtTreeMap.getElem?_empty]
      rw [hempty]
      rfl
  | succ n ih =>
    have ih : ∀ t, c.ascendTo a n = .ok t ↔ c.Ascended a n t := fun t => ih (by omega)
    constructor
    · intro h
      obtain ⟨t₀, ht₀, h⟩ := exists_ok_of_except_bind h
      obtain ⟨x, hx, h⟩ := exists_ok_of_except_bind h
      cases h
      exact ((ih t₀).1 ht₀).insert (by omega) hx
    · intro ht
      obtain ⟨ht₀, x, hx, hins⟩ := ht.erase (by omega)
      rw [ascendTo, (ih _).2 ht₀]
      show (do let y ← c.valueFrom a (t.erase n.toUInt64) n.toUInt64
               return (t.erase n.toUInt64).insert n.toUInt64 y : Except Fault (Table p)) = _
      rw [hx]
      exact congrArg Except.ok hins

/-! ## All wires -/

theorem solution_iff_ascended : c.Solution a t ↔ c.Ascended a c.total.toNat t := by
  constructor
  · intro ht
    refine ⟨fun w => by rw [ht.mem_iff, UInt64.lt_iff_toNat_lt], fun w hw => ?_⟩
    obtain ⟨g, hg, hwg⟩ := Circuit.exists_gate (UInt64.lt_iff_toNat_lt.2 hw)
    obtain ⟨xs, hx, ho⟩ := ht.explains g hg
    rw [← map_fst_zip_outputs hx] at hwg
    obtain ⟨q, hq, rfl⟩ := List.mem_map.1 hwg
    refine ⟨q.2, valueFrom_eq_ok_iff.2 ⟨g, xs, ?_, ht.monotonic g hg, hx, ?_⟩, ho q hq⟩
    · exact Circuit.gate?_eq_some_iff.2 ⟨hg, (List.of_mem_zip hq).1⟩
    · exact lookup_outputs (e := ⟨c, a⟩) hg hx hq
  · intro ht
    have hgate : ∀ g ∈ c.gates, ∀ w ∈ g.outputs, g.checkMonotonic = .ok () ∧
        ∃ xs x, gateValues ⟨c, a⟩ t g = .ok xs ∧ (g.outputs.zip xs).lookup w = some x ∧
          t[w]? = some x := by
      intro g hg w hw
      obtain ⟨x, hx, hwx⟩ := ht.value w (UInt64.lt_iff_toNat_lt.1 (Circuit.output_lt hg hw))
      obtain ⟨g', xs, hg', hmono, hxs, hl⟩ := valueFrom_eq_ok_iff.1 hx
      cases (Circuit.gate?_eq_some_iff.2 ⟨hg, hw⟩).symm.trans hg'
      exact ⟨hmono, xs, x, hxs, hl, hwx⟩
    refine ⟨fun w => by rw [ht.mem_iff, UInt64.lt_iff_toNat_lt], fun g hg => ?_, fun g hg => ?_⟩
    · obtain ⟨w, hw⟩ := g.exists_output
      exact (hgate g hg w hw).1
    · obtain ⟨w, hw⟩ := g.exists_output
      obtain ⟨-, xs, -, hxs, -⟩ := hgate g hg w hw
      refine ⟨xs, hxs, fun q hq => ?_⟩
      obtain ⟨-, ys, y, hys, hl, hy⟩ := hgate g hg q.1 (List.of_mem_zip hq).1
      cases hxs.symm.trans hys
      rw [hy, ← hl, lookup_outputs (e := ⟨c, a⟩) hg hxs hq]

theorem ascend_eq_ok_iff : c.ascend a = .ok t ↔ c.Solution a t := by
  rw [solution_iff_ascended]
  exact ascendTo_eq_ok_iff (Nat.le_of_lt c.total.toNat_lt)

/-- With a value for every input, evaluation on demand and from below succeed together and with the
same values, one for each wire, and a failed evaluation blames a gate of the circuit. -/
theorem evaluate_iff_ascend_and_blames (ha : c.CoveredBy a) :
    (∀ t, c.evaluate a = .ok t ↔ c.ascend a = .ok t) ∧
      (∀ t, c.evaluate a = .ok t → ∀ w, w ∈ t ↔ w < c.total) ∧
      ∀ fault, c.evaluate a = .error fault → c.Blames a fault := by
  refine ⟨fun t => ?_, fun t ht => ?_, fun fault h => ?_⟩
  · rw [evaluate_eq_ok_iff, ascend_eq_ok_iff]
  · exact (evaluate_eq_ok_iff.1 ht).mem_iff
  · exact .of_evaluate ha h

/-- Six over three, tested for zero: the wires in ascending order, their gates in another. Six over
zero fails either way, and for the quotient. -/
theorem ascend_six_over_three :
    quotientTest.CoveredBy (quotientInputs 6 3) ∧
      quotientTest.ascend (quotientInputs 6 3) = .ok (quotientTable 6 3 2 0 4 6) ∧
      quotientTest.CoveredBy (quotientInputs 6 0) ∧
      quotientTest.evaluate (quotientInputs 6 0) = .error (.divisionByZero 2) ∧
      (∀ t, quotientTest.ascend (quotientInputs 6 0) ≠ .ok t) ∧
      quotientTest.Blames (quotientInputs 6 0) (.divisionByZero 2) := by
  have hthree := coveredBy_quotientInputs 6 3
  have hzero := coveredBy_quotientInputs 6 0
  have he : quotientTest.evaluate (quotientInputs 6 0) = .error (.divisionByZero 2) := by
    have hrun : Evaluator.evaluate ⟨quotientTest, quotientInputs 6 0⟩ ⟨∅, []⟩ = _ :=
      Evaluator.evaluate_quotientByZero
    unfold evaluate solve
    rw [create_of_coveredBy hzero]
    simp only [hrun]
  obtain ⟨hiff, -, hblames⟩ := evaluate_iff_ascend_and_blames hzero
  refine ⟨hthree, ((evaluate_iff_ascend_and_blames hthree).1 _).1 evaluate_quotientByThree, hzero,
    he, fun t ht => ?_, hblames _ he⟩
  cases he.symm.trans ((hiff t).2 ht)

end Circuit

end FieldCircuit
