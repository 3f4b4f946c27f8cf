import FieldCircuit.Constraint
import FieldCircuit.Proofs.Computation
import FieldCircuit.Proofs.PrimeField

/-!
# Satisfied constraints

`Gate.Satisfied` says that a table satisfies all constraints of a gate, and `Gate.Relation` is the
relation between wire values that these constraints write down (`Gate.satisfied_iff`). A circuit has
no unsatisfied constraint exactly when the table satisfies all of its gates.
-/

namespace FieldCircuit

variable {p : Nat} [Nonzero p] {t : Table p}

omit [Nonzero p] in
@[simp] theorem Table.demand_eq_ok_iff {w : Wire} {x : Residue p} :
    t.demand w = .ok x ↔ t[w]? = some x := by
  unfold demand
  cases t[w]? <;> simp

/-! ## Combinations -/

namespace LinearCombination

@[simp] theorem evaluate_nil : evaluate t ([] : LinearCombination p) = .ok 0 := rfl

theorem evaluate_plus (l : LinearCombination p) (c : Residue p) (v : Variable) :
    evaluate t (l.plus c v) = do return (← evaluate t l) + c * (← v.value t) := by
  unfold evaluate plus
  rw [List.foldlM_append]
  simp only [List.foldlM_cons, List.foldlM_nil, bind_pure]

@[simp] theorem evaluate_plus_eq_ok_iff {l : LinearCombination p} {c z : Residue p} {v : Variable} :
    evaluate t (l.plus c v) = .ok z ↔
      ∃ x y, evaluate t l = .ok x ∧ v.value t = .ok y ∧ x + c * y = z := by
  rw [evaluate_plus]
  constructor
  · intro h
    obtain ⟨x, hx, h⟩ := exists_ok_of_except_bind h
    obtain ⟨y, hy, h⟩ := exists_ok_of_except_bind h
    exact ⟨x, y, hx, hy, Except.ok.inj h⟩
  · rintro ⟨x, y, hx, hy, rfl⟩
    rw [hx, hy]
    rfl

@[simp] theorem evaluate_ofWire_eq_ok_iff {w : Wire} {x : Residue p} :
    evaluate t (ofWire w) = .ok x ↔ t[w]? = some x := by
  change evaluate t (plus [] 1 (.wire w)) = _ ↔ _
  simp [evaluate_plus_eq_ok_iff, Variable.value, Table.demand_eq_ok_iff]

@[simp] theorem evaluate_ofConstant (c : Residue p) : evaluate t (ofConstant c) = .ok c := by
  change evaluate t (plus [] c .one) = _
  simp [evaluate_plus_eq_ok_iff, Variable.value]

end LinearCombination

theorem Constraint.isSatisfied_iff {k : Constraint p} :
    k.isSatisfied t = .ok true ↔
      ∃ x y z, k.a.evaluate t = .ok x ∧ k.b.evaluate t = .ok y ∧ k.c.evaluate t = .ok z ∧
        x * y = z := by
  unfold isSatisfied
  constructor
  · intro h
    obtain ⟨x, hx, h⟩ := exists_ok_of_except_bind h
    obtain ⟨y, hy, h⟩ := exists_ok_of_except_bind h
    obtain ⟨z, hz, h⟩ := exists_ok_of_except_bind h
    refine ⟨x, y, z, hx, hy, hz, ?_⟩
    simpa [pure, Except.pure] using h
  · rintro ⟨x, y, z, hx, hy, hz, h⟩
    simp [hx, hy, hz, h, bind, Except.bind, pure, Except.pure]

theorem firstUnsatisfiedFrom_eq_none_iff {n : Nat} {ks : List (Constraint p)} :
    firstUnsatisfiedFrom t n ks = .ok none ↔ ∀ k ∈ ks, k.isSatisfied t = .ok true := by
  induction ks generalizing n with
  | nil => simp [firstUnsatisfiedFrom]
  | cons k ks ih =>
    simp only [firstUnsatisfiedFrom, List.forall_mem_cons, bind, Except.bind]
    cases hk : k.isSatisfied t with
    | error fault => simp
    | ok b => cases b <;> simp [ih, pure, Except.pure]

/-! ## Gates -/

namespace Gate

def Satisfied (policy : ConstDiv) (t : Table p) (g : Gate) : Prop :=
  ∀ k ∈ (g.constraints policy : List (Constraint p)), k.isSatisfied t = .ok true

/-- What the constraints of a gate say of the values of its wires. -/
def Relation (policy : ConstDiv) (t : Table p) : Gate → Prop
  | input _ => True
  | add a b w => ∃ x y z, t[a]? = some x ∧ t[b]? = some y ∧ t[w]? = some z ∧ x + y = z
  | mul a b w => ∃ x y z, t[a]? = some x ∧ t[b]? = some y ∧ t[w]? = some z ∧ x * y = z
  | div a b w => ∃ z y x, t[w]? = some z ∧ t[b]? = some y ∧ t[a]? = some x ∧ z * y = x
  | constMul k a w => ∃ x z, t[a]? = some x ∧ t[w]? = some z ∧ x * .ofInt k = z
  | constDiv k a w =>
    policy = .enforce → ∃ z x, t[w]? = some z ∧ t[a]? = some x ∧ z * .ofInt k = x
  | zeroTest a i w => ∃ x y z, t[a]? = some x ∧ t[i]? = some y ∧ t[w]? = some z ∧
      x * z = 1 - y ∧ x * y = 0

theorem satisfied_iff {policy : ConstDiv} {g : Gate} :
    g.Satisfied policy t ↔ g.Relation policy t := by
  unfold Satisfied
  cases g with
  | input w => simp [constraints, Relation]
  | add a b w => simp [constraints, Relation, Constraint.isSatisfied_iff, Variable.value]
  | mul a b w | div a b w | constMul k a w =>
    simp [constraints, Relation, Constraint.isSatisfied_iff]
  | constDiv k a w => cases policy <;> simp [constraints, Relation, Constraint.isSatisfied_iff]
  | zeroTest a i w =>
    have hzero : (Constraint.mk (.ofWire a) (.ofWire i) [] : Constraint p).isSatisfied t =
        .ok true ↔ ∃ x y, t[a]? = some x ∧ t[i]? = some y ∧ x * y = 0 := by
      simp [Constraint.isSatisfied_iff, eq_comm (a := (0 : Residue p))]
    have hinverse : (Constraint.mk (.ofWire a) (.ofWire w)
        ((LinearCombination.ofConstant 1).plus (-1) (.wire i)) : Constraint p).isSatisfied t =
        .ok true ↔ ∃ x z y, t[a]? = some x ∧ t[w]? = some z ∧ t[i]? = some y ∧ 1 + -y = x * z := by
      simp [Constraint.isSatisfied_iff, Variable.value]
    simp only [constraints, Relation, List.forall_mem_cons, hzero, hinverse]
    constructor
    · rintro ⟨⟨x, z, y, hx, hz, hy, h1⟩, ⟨x', y', hx', hy', h2⟩, -⟩
      cases hx.symm.trans hx'
      cases hy.symm.trans hy'
      exact ⟨x, y, z, hx, hy, hz, by rw [← h1, sub_eq_add_neg], h2⟩
    · rintro ⟨x, y, z, hx, hy, hz, h1, h2⟩
      exact ⟨⟨x, z, y, hx, hz, hy, by rw [h1, sub_eq_add_neg]⟩, ⟨x, y, hx, hy, h2⟩, by simp⟩

end Gate

theorem Circuit.firstUnsatisfied_eq_none_iff {c : Circuit} {policy : ConstDiv} :
    firstUnsatisfied (c.constraints policy) t = .ok none ↔ ∀ g ∈ c.gates, g.Satisfied policy t := by
  unfold firstUnsatisfied
  rw [firstUnsatisfiedFrom_eq_none_iff]
  simp only [Circuit.constraints, Gate.Satisfied, List.mem_flatMap, Array.mem_toList_iff]
  exact ⟨fun h g hg k hk => h k ⟨g, hg, hk⟩, fun h k ⟨g, hg, hk⟩ => h g hg k hk⟩

end FieldCircuit
