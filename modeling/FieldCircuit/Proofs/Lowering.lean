import FieldCircuit.ConstraintSystem
import FieldCircuit.Proofs.Satisfaction
import FieldCircuit.Proofs.Validity
import Mathlib.Algebra.BigOperators.Group.List.Basic
import Mathlib.Data.List.Perm.Basic
import Mathlib.Data.List.Sort

/-!
# Lowering to columns

The rows of a constraint system, multiplied with the values of the columns, give what the linear
combinations of the circuit's constraints evaluate to (`Circuit.evaluate_of_lower`), so a system and
the constraints it comes from agree on the first constraint that fails.
-/

namespace FieldCircuit

variable {p : Nat} [Nonzero p]

/-! ## Rows -/

/-- The sum of the coefficients, each times the value of its column. -/
def weight (z : Nat → Residue p) (row : Std.ExtTreeMap Nat (Residue p)) : Residue p :=
  (row.toList.map fun q => q.2 * z q.1).sum

variable {z : Nat → Residue p}

theorem weight_empty : weight z ∅ = 0 := by
  rw [weight, Std.ExtTreeMap.toList_eq_nil_iff.2 rfl]
  rfl

omit [Nonzero p] in
theorem nodup_toList (row : Std.ExtTreeMap Nat (Residue p)) : row.toList.Nodup :=
  row.ordered_keys_toList.imp fun h he => by
    rw [he, Std.compare_self] at h
    cases h

omit [Nonzero p] in
theorem toList_insert_perm (row : Std.ExtTreeMap Nat (Residue p)) (j : Nat) (x : Residue p) :
    (row.insert j x).toList.Perm ((j, x) :: row.toList.filter (·.1 ≠ j)) := by
  have hnot : (j, x) ∉ row.toList.filter (·.1 ≠ j) := by simp
  refine (List.perm_ext_iff_of_nodup (nodup_toList _)
    (List.nodup_cons.2 ⟨hnot, (nodup_toList row).filter _⟩)).2 fun ⟨i, y⟩ => ?_
  rw [Std.ExtTreeMap.mem_toList_iff_getElem?_eq_some, Std.ExtTreeMap.getElem?_insert]
  by_cases hi : j = i
  · subst hi
    simp [eq_comm]
  · simp [hi, Ne.symm hi]

/-- Adding to the coefficient of a column adds that much times the value of the column. -/
theorem weight_insert (row : Std.ExtTreeMap Nat (Residue p)) (j : Nat) (c : Residue p) :
    weight z (row.insert j (row.getD j 0 + c)) = weight z row + c * z j := by
  have hinsert : ∀ x, weight z (row.insert j x) =
      x * z j + ((row.toList.filter (·.1 ≠ j)).map fun q => q.2 * z q.1).sum := by
    intro x
    unfold weight
    rw [((toList_insert_perm row j x).map _).sum_eq, List.map_cons, List.sum_cons]
  have hrow : weight z row =
      row.getD j 0 * z j + ((row.toList.filter (·.1 ≠ j)).map fun q => q.2 * z q.1).sum := by
    by_cases hj : j ∈ row
    · rw [← hinsert]
      congr 1
      apply Std.ExtTreeMap.ext_getElem?
      intro i
      rw [Std.ExtTreeMap.getElem?_insert]
      by_cases hi : j = i
      · subst hi
        simp [Std.ExtTreeMap.getD_eq_getD_getElem?, hj]
      · simp [hi]
    · have hall : row.toList.filter (·.1 ≠ j) = row.toList := by
        rw [List.filter_eq_self]
        rintro ⟨i, x⟩ hq
        have hi : i ∈ row := by
          rw [Std.ExtTreeMap.mem_toList_iff_getElem?_eq_some] at hq
          exact mem_iff_exists_getElem?.2 ⟨x, hq⟩
        simpa using fun h : i = j => hj (h ▸ hi)
      rw [hall, Std.ExtTreeMap.getD_eq_fallback hj, zero_mul, zero_add, weight]
  rw [hinsert, hrow]
  ring

theorem dot_eq_sum (z : Array (Residue p)) (row : Row p) :
    ConstraintSystem.dot z row = (row.map fun q => q.1 * z.getD q.2 0).sum := by
  have hfold : ∀ (row : Row p) (s : Residue p),
      row.foldl (fun sum q => sum + q.1 * z.getD q.2 0) s =
        s + (row.map fun q => q.1 * z.getD q.2 0).sum := by
    intro row
    induction row with
    | nil => simp
    | cons q row ih =>
      intro s
      rw [List.foldl_cons, ih, List.map_cons, List.sum_cons, add_assoc]
  show row.foldl (fun sum q => sum + q.1 * z.getD q.2 0) 0 = _
  rw [hfold, zero_add]

/-- The zero coefficients that a row leaves out do not count. -/
theorem dot_filterMap (z : Array (Residue p)) (row : Std.ExtTreeMap Nat (Residue p)) :
    ConstraintSystem.dot z
      (row.toList.filterMap fun (j, x) => if x = 0 then none else some (x, j)) =
      weight (z.getD · 0) row := by
  rw [dot_eq_sum, weight]
  induction row.toList with
  | nil => rfl
  | cons q l ih =>
    obtain ⟨j, x⟩ := q
    by_cases hx : x = 0
    · simp only [List.filterMap_cons, hx, ↓reduceIte, List.map_cons, List.sum_cons, zero_mul,
        zero_add, ih]
    · simp only [List.filterMap_cons, hx, ↓reduceIte, List.map_cons, List.sum_cons, ih]

/-! ## Combinations -/

namespace Circuit

variable {columns : Std.ExtTreeMap Wire Nat} {t : Table p} {z : Array (Residue p)}

theorem exists_column_of_addTerm {row row' : Std.ExtTreeMap Nat (Residue p)} {term : Term p}
    (h : addTerm columns row term = .ok row') :
    ∃ j, columnOf columns term.var = .ok j ∧
      row' = row.insert j (row.getD j 0 + term.coefficient) := by
  obtain ⟨j, hj, h⟩ := exists_ok_of_except_bind h
  exact ⟨j, hj, (Except.ok.inj h).symm⟩

/-- A row gives the value of its combination where each column has the value of its variable. -/
theorem evaluate_of_lower (hz : ∀ v j, columnOf columns v = .ok j → v.value t = .ok (z.getD j 0))
    {l : LinearCombination p} {row : Row p} (h : lower columns l = .ok row) :
    l.evaluate t = .ok (ConstraintSystem.dot z row) := by
  have hfold : ∀ (l : LinearCombination p) (row row' : Std.ExtTreeMap Nat (Residue p)),
      l.foldlM (addTerm columns) row = .ok row' →
      l.foldlM (fun (sum : Residue p) term => do
          return sum + term.coefficient * (← term.var.value t) : _ → _ → Except Fault (Residue p))
        (weight (z.getD · 0) row) = .ok (weight (z.getD · 0) row') := by
    intro l
    induction l with
    | nil =>
      intro row row' h
      cases h
      rfl
    | cons term l ih =>
      intro row row' h
      rw [List.foldlM_cons] at h ⊢
      obtain ⟨row₁, h1, h2⟩ := exists_ok_of_except_bind h
      obtain ⟨j, hj, rfl⟩ := exists_column_of_addTerm h1
      rw [hz _ j hj, ← ih _ row' h2, weight_insert]
      rfl
  obtain ⟨row', hrow, h⟩ := exists_ok_of_except_bind h
  cases h
  rw [dot_filterMap, ← hfold l ∅ row' hrow, weight_empty, LinearCombination.evaluate]

theorem exists_lower {l : LinearCombination p}
    (h : ∀ term ∈ l, ∃ j, columnOf columns term.var = .ok j) :
    ∃ row, lower columns l = .ok row := by
  have hfold : ∀ (l : LinearCombination p) (row : Std.ExtTreeMap Nat (Residue p)),
      (∀ term ∈ l, ∃ j, columnOf columns term.var = .ok j) →
      ∃ row', l.foldlM (addTerm columns) row = .ok row' := by
    intro l
    induction l with
    | nil => exact fun row _ => ⟨row, rfl⟩
    | cons term l ih =>
      intro row h
      obtain ⟨j, hj⟩ := h term List.mem_cons_self
      obtain ⟨row', hrow⟩ := ih (row.insert j (row.getD j 0 + term.coefficient))
        fun term hterm => h term (List.mem_cons_of_mem _ hterm)
      refine ⟨row', ?_⟩
      rw [List.foldlM_cons, addTerm, hj]
      exact hrow
  obtain ⟨row, hrow⟩ := hfold l ∅ h
  rw [lower, hrow]
  exact ⟨_, rfl⟩

end Circuit

/-! ## Constraints -/

/-- The row of a constraint gives the values of its three combinations. -/
def Constraint.Lowered (t : Table p) (z : Array (Residue p)) (k : Constraint p)
    (row : Row p × Row p × Row p) : Prop :=
  k.a.evaluate t = .ok (ConstraintSystem.dot z row.1) ∧
    k.b.evaluate t = .ok (ConstraintSystem.dot z row.2.1) ∧
    k.c.evaluate t = .ok (ConstraintSystem.dot z row.2.2)

variable {t : Table p} {z : Array (Residue p)}

theorem Constraint.Lowered.isSatisfied {k : Constraint p} {row : Row p × Row p × Row p}
    (h : k.Lowered t z row) : k.isSatisfied t = .ok (ConstraintSystem.holds z row) := by
  obtain ⟨ha, hb, hc⟩ := h
  unfold Constraint.isSatisfied
  rw [ha, hb, hc]
  rfl

/-- Rows and constraints agree on the first that does not hold. -/
theorem firstUnsatisfiedFrom_eq_findIdx? {ks : List (Constraint p)}
    {rows : List (Row p × Row p × Row p)} (h : List.Forall₂ (Constraint.Lowered t z) ks rows)
    (n : Nat) :
    firstUnsatisfiedFrom t n ks =
      .ok ((rows.findIdx? (!ConstraintSystem.holds z ·)).map (· + n)) := by
  induction h generalizing n with
  | nil => rfl
  | @cons k row ks rows hk _ ih =>
    rw [firstUnsatisfiedFrom, hk.isSatisfied, List.findIdx?_cons]
    change (if ConstraintSystem.holds z row then firstUnsatisfiedFrom t (n + 1) ks
      else Except.ok (some n)) = _
    cases ConstraintSystem.holds z row with
    | false => simp
    | true => simp [ih, Function.comp_def, Nat.add_assoc, Nat.add_comm 1]

/-- Every wire of the combination has the property. -/
def LinearCombination.Over (P : Wire → Prop) (l : LinearCombination p) : Prop :=
  ∀ term ∈ l, ∀ w, term.var = .wire w → P w

namespace LinearCombination

variable {P : Wire → Prop}

omit [Nonzero p] in
@[simp] theorem over_nil : Over P ([] : LinearCombination p) := fun _ h => absurd h List.not_mem_nil

@[simp] theorem over_ofWire {w : Wire} : Over P (ofWire w : LinearCombination p) ↔ P w := by
  simp [Over, ofWire]

omit [Nonzero p] in
@[simp] theorem over_ofConstant {x : Residue p} : Over P (ofConstant x) := by
  simp [Over, ofConstant]

omit [Nonzero p] in
@[simp] theorem over_plus_wire {l : LinearCombination p} {x : Residue p} {w : Wire} :
    Over P (l.plus x (.wire w)) ↔ Over P l ∧ P w := by
  simp [Over, plus, or_imp, forall_and]

end LinearCombination

/-- The constraints of a gate are over the wires that it reads and those that it makes. -/
theorem Gate.over_of_mem_constraints {P : Wire → Prop} {g : Gate} (hin : ∀ w ∈ g.inputs, P w)
    (hout : ∀ w ∈ g.outputs, P w) {policy : ConstDiv} {k : Constraint p}
    (hk : k ∈ g.constraints policy) :
    k.a.Over P ∧ k.b.Over P ∧ k.c.Over P := by
  cases g with
  | input w => cases hk
  | zeroTest a i w =>
    simp only [inputs, outputs, List.forall_mem_cons] at hin hout
    simp only [constraints, List.mem_cons, List.not_mem_nil, or_false] at hk
    rcases hk with rfl | rfl <;> simp [hin.1, hout.1, hout.2.1]
  | constDiv c a w => cases policy <;> simp_all [inputs, outputs, constraints]
  | _ => simp_all [inputs, outputs, constraints]

namespace ConstraintSystem

variable {s : ConstraintSystem p}

theorem check_of_firstUnsatisfied {i : Option Nat} (h : s.firstUnsatisfied = .ok i) :
    s.check = i.elim (.ok ()) fun i => .error (.unsatisfied i) := by
  rw [check, h]
  cases i <;> rfl

theorem isSatisfied_of_firstUnsatisfied (h : s.firstUnsatisfied = .ok none) :
    s.isSatisfied = true := by
  rw [isSatisfied, h]

end ConstraintSystem

/-! ## Columns -/

theorem Table.demand_of_mem {w : Wire} (h : w ∈ t) : t.demand w = .ok (t.getD w 0) := by
  rw [Table.demand_eq_ok_iff, Std.ExtTreeMap.getD_eq_getD_getElem?]
  obtain ⟨x, hx⟩ := mem_iff_exists_getElem?.1 h
  rw [hx]
  rfl

theorem Table.mapM_demand_of_mem {ws : List Wire} (h : ∀ w ∈ ws, w ∈ t) :
    ws.mapM t.demand = .ok (ws.map (t.getD · 0)) := by
  induction ws with
  | nil => rfl
  | cons w ws ih =>
    rw [List.forall_mem_cons] at h
    rw [List.mapM_cons, demand_of_mem h.1, ih h.2]
    rfl

/-- Wires asked for in ascending order fail at the smallest that has no value. -/
theorem Table.exists_least_missing {ws : List Wire} (hs : ws.Pairwise (· < ·))
    (h : ∃ w ∈ ws, w ∉ t) :
    ∃ w ∈ ws, w ∉ t ∧ (∀ v ∈ ws, v < w → v ∈ t) ∧
      ws.mapM t.demand = .error (.incompleteTable w) := by
  induction ws with
  | nil => simp at h
  | cons v ws ih =>
    rw [List.pairwise_cons] at hs
    by_cases hv : v ∈ t
    · obtain ⟨w, hw, hwt, hmin, herr⟩ := ih hs.2 (by simpa [hv] using h)
      refine ⟨w, List.mem_cons_of_mem v hw, hwt, ?_, ?_⟩
      · exact List.forall_mem_cons.2 ⟨fun _ => hv, hmin⟩
      · rw [List.mapM_cons, demand_of_mem hv, herr]
        rfl
    · refine ⟨v, List.mem_cons_self, hv, ?_, ?_⟩
      · refine List.forall_mem_cons.2 ⟨fun h => absurd h (UInt64.lt_irrefl v), fun u hu huv => ?_⟩
        exact absurd (UInt64.lt_trans huv (hs.1 u hu)) (UInt64.lt_irrefl u)
      · rw [List.mapM_cons, demand, Std.ExtTreeMap.getElem?_eq_none hv]
        rfl

namespace Circuit

variable {c : Circuit}

/-- Walking the wires in ascending order meets the outputs in the order of their set. -/
theorem publicWires_eq : c.publicWires = c.outputs.toList := by
  have hwires : c.publicWires.Pairwise (· < ·) := (pairwise_wires c).filter _
  have houtputs : c.outputs.toList.Pairwise (· < ·) :=
    c.outputs.ordered_toList.imp Std.compare_eq_lt.1
  refine hwires.eq_of_mem_iff houtputs fun w => ?_
  simp only [publicWires, List.mem_filter, mem_wires, decide_eq_true_eq, Std.ExtTreeSet.mem_toList]
  exact and_iff_right_of_imp (Circuit.outputs_lt _ w)

/-- The wires in the order of their columns. -/
def columnWires (c : Circuit) : List Wire := c.outputs.toList ++ c.secretWires

theorem mem_columnWires {w : Wire} : w ∈ c.columnWires ↔ w < c.total := by
  simp only [columnWires, secretWires, List.mem_append, Std.ExtTreeSet.mem_toList, List.mem_filter,
    mem_wires, decide_eq_true_eq]
  have := c.outputs_lt w
  tauto

theorem nodup_columnWires (c : Circuit) : c.columnWires.Nodup := by
  unfold columnWires
  rw [List.nodup_append]
  refine ⟨?_, ?_, ?_⟩
  · refine c.outputs.ordered_toList.imp fun h he => ?_
    rw [he, Std.compare_self] at h
    cases h
  · have hd : c.wires.Nodup := (pairwise_wires c).imp fun h => UInt64.ne_of_lt h
    exact hd.filter _
  · rintro w hw v hv rfl
    have hv := (List.mem_filter.1 hv).2
    exact (of_decide_eq_true hv) (Std.ExtTreeSet.mem_toList.1 hw)

theorem columns_eq : c.columns = .ofList (c.columnWires.zipIdx 1) := by
  rw [columns, publicWires_eq, columnWires]

theorem getElem?_columns {i : Nat} {w : Wire} (h : c.columnWires[i]? = some w) :
    c.columns[w]? = some (i + 1) := by
  rw [columns_eq]
  refine Std.ExtTreeMap.getElem?_ofList_of_mem Std.compare_self ?_ ?_
  · have hd := c.nodup_columnWires
    rw [← List.zipIdx_map_fst 1 c.columnWires, List.Nodup, List.pairwise_map] at hd
    exact hd.imp fun h he => h (Std.compare_eq_iff_eq.1 he)
  · exact List.mk_mem_zipIdx_iff_le_and_getElem?_sub.2 ⟨Nat.le_add_left 1 i, h⟩

theorem exists_of_columns {w : Wire} {j : Nat} (h : c.columns[w]? = some j) :
    ∃ i, c.columnWires[i]? = some w ∧ j = i + 1 := by
  have hw : w ∈ c.columnWires := by
    have hmem : w ∈ c.columns := mem_iff_exists_getElem?.2 ⟨j, h⟩
    rw [columns_eq, Std.ExtTreeMap.mem_ofList, List.zipIdx_map_fst] at hmem
    exact List.contains_iff_mem.1 hmem
  obtain ⟨i, hi⟩ := List.mem_iff_getElem?.1 hw
  exact ⟨i, hi, Option.some.inj (h.symm.trans (getElem?_columns hi))⟩

theorem exists_columnOf {w : Wire} (hw : w < c.total) :
    ∃ j, columnOf c.columns (.wire w) = .ok j := by
  obtain ⟨i, hi⟩ := List.mem_iff_getElem?.1 (mem_columnWires.2 hw)
  exact ⟨i + 1, by rw [columnOf, getElem?_columns hi]⟩

/-- The values of the columns: one, then the wires in the order of their columns. -/
def columnValues (c : Circuit) (t : Table p) : Array (Residue p) :=
  (1 :: c.columnWires.map (t.getD · 0)).toArray

theorem value_of_columnOf (ht : ∀ w, w < c.total → w ∈ t) {v : Variable} {j : Nat}
    (h : columnOf c.columns v = .ok j) : v.value t = .ok ((c.columnValues t).getD j 0) := by
  cases v with
  | one =>
    cases h
    rfl
  | wire w =>
    rw [columnOf] at h
    split at h
    · next j' hj =>
      cases h
      obtain ⟨i, hi, rfl⟩ := exists_of_columns hj
      have hw : w < c.total := mem_columnWires.1 (List.mem_of_getElem? hi)
      rw [Variable.value, Table.demand_of_mem (ht w hw)]
      simp [columnValues, hi]
    · cases h

/-! ## Systems -/

/-- The values of a complete table, as a system holds them. -/
def systemValues (c : Circuit) (t : Table p) : Values p :=
  ⟨1 :: c.outputs.toList.map (t.getD · 0), c.secretWires.map (t.getD · 0)⟩

theorem toArray_systemValues (c : Circuit) (t : Table p) :
    ((c.systemValues t).publics ++ (c.systemValues t).secrets).toArray = c.columnValues t := by
  simp [systemValues, columnValues, columnWires]

theorem allocate_of_mem (ht : ∀ w, w < c.total → w ∈ t) :
    c.allocate t = .ok (c.systemValues t) := by
  have hall : ∀ w ∈ c.columnWires, w ∈ t := fun w hw => ht w (mem_columnWires.1 hw)
  rw [columnWires, List.forall_mem_append] at hall
  unfold allocate
  rw [Table.mapM_demand_of_mem fun w hw => ht w (mem_wires.1 hw), publicWires_eq,
    Table.mapM_demand_of_mem hall.1, Table.mapM_demand_of_mem hall.2]
  rfl

theorem exists_least_unallocated (h : ¬∀ w, w < c.total → w ∈ t) :
    ∃ w, w < c.total ∧ w ∉ t ∧ (∀ v, v < w → v ∈ t) ∧
      c.allocate t = .error (.incompleteTable w) := by
  have hmiss : ∃ w ∈ c.wires, w ∉ t := by
    simp only [mem_wires]
    push Not at h
    exact h
  obtain ⟨w, hw, hwt, hmin, herr⟩ := Table.exists_least_missing (pairwise_wires c) hmiss
  have hw := mem_wires.1 hw
  refine ⟨w, hw, hwt, fun v hv => hmin v (mem_wires.2 (UInt64.lt_trans hv hw)) hv, ?_⟩
  rw [allocate, herr]
  rfl

/-- Every constrained gate reads wires of the circuit. -/
def ReadsWires (p : Nat) [Nonzero p] (c : Circuit) (policy : ConstDiv) : Prop :=
  ∀ g ∈ c.gates, (g.constraints policy : List (Constraint p)) ≠ [] → ∀ w ∈ g.inputs, w < c.total

theorem exists_rows {policy : ConstDiv} (hr : c.ReadsWires p policy) :
    ∃ rows, (c.constraints policy : List (Constraint p)).mapM (lowerConstraint c.columns) =
      .ok rows := by
  refine exists_mapM fun k hk => ?_
  obtain ⟨g, hg, hk⟩ := List.mem_flatMap.1 hk
  have hg : g ∈ c.gates := Array.mem_toList_iff.1 hg
  have hcol : ∀ l : LinearCombination p, l.Over (· < c.total) →
      ∃ row, lower c.columns l = .ok row := by
    refine fun l hl => exists_lower fun term hterm => ?_
    cases hv : term.var with
    | one => exact ⟨0, rfl⟩
    | wire w => exact exists_columnOf (hl term hterm w hv)
  obtain ⟨hka, hkb, hkc⟩ := Gate.over_of_mem_constraints (hr g hg (List.ne_nil_of_mem hk))
    (fun w hw => Circuit.output_lt hg hw) hk
  obtain ⟨a, ha⟩ := hcol k.a hka
  obtain ⟨b, hb⟩ := hcol k.b hkb
  obtain ⟨c', hc'⟩ := hcol k.c hkc
  refine ⟨(a, b, c'), ?_⟩
  rw [lowerConstraint, ha, hb, hc']
  rfl

theorem lowered_of_lowerConstraint (ht : ∀ w, w < c.total → w ∈ t) {k : Constraint p}
    {row : Row p × Row p × Row p} (h : lowerConstraint c.columns k = .ok row) :
    k.Lowered t (c.columnValues t) row := by
  obtain ⟨a, ha, h⟩ := exists_ok_of_except_bind h
  obtain ⟨b, hb, h⟩ := exists_ok_of_except_bind h
  obtain ⟨d, hd, h⟩ := exists_ok_of_except_bind h
  cases h
  have hz : ∀ v j, columnOf c.columns v = .ok j → v.value t = .ok ((c.columnValues t).getD j 0) :=
    fun v j => value_of_columnOf ht
  exact ⟨evaluate_of_lower hz ha, evaluate_of_lower hz hb, evaluate_of_lower hz hd⟩

/-- The system of a circuit with the given rows and values. -/
def systemOf (c : Circuit) (rows : List (Row p × Row p × Row p)) (values : Option (Values p)) :
    ConstraintSystem p :=
  ⟨c.publicWires.length + 1, c.secretWires.length, rows, values⟩

section

variable {policy : ConstDiv} {rows : List (Row p × Row p × Row p)}
  (h : (c.constraints policy : List (Constraint p)).mapM (lowerConstraint c.columns) = .ok rows)

include h

theorem synthesize_none_of_rows : c.synthesize none policy = .ok (c.systemOf rows none) := by
  simp only [synthesize]
  rw [h]
  rfl

theorem synthesize_some_of_rows (ht : ∀ w, w < c.total → w ∈ t) :
    c.synthesize (some t) policy = .ok (c.systemOf rows (some (c.systemValues t))) := by
  simp only [synthesize]
  rw [allocate_of_mem ht, h]
  rfl

end

/-- Every wire having a value, the system holds the rows of all constraints and the values of all
columns. -/
theorem exists_synthesize {policy : ConstDiv} (hr : c.ReadsWires p policy)
    (ht : ∀ w, w < c.total → w ∈ t) : ∃ s, c.synthesize (some t) policy = .ok s ∧
      s.values = some (c.systemValues t) ∧
      List.Forall₂ (Constraint.Lowered t (c.columnValues t)) (c.constraints policy) s.rows := by
  obtain ⟨rows, hrows⟩ := exists_rows hr
  refine ⟨_, synthesize_some_of_rows hrows ht, rfl, ?_⟩
  exact (mapM_eq_ok_iff.1 hrows).imp fun k row => lowered_of_lowerConstraint ht

theorem exists_synthesize_error (policy : ConstDiv) (h : ¬∀ w, w < c.total → w ∈ t) :
    ∃ w, w < c.total ∧ w ∉ t ∧ (∀ v, v < w → v ∈ t) ∧
      c.synthesize (some t) policy = .error (.circuit (.incompleteTable w)) := by
  obtain ⟨w, hw, hwt, hmin, herr⟩ := exists_least_unallocated h
  refine ⟨w, hw, hwt, hmin, ?_⟩
  simp only [synthesize]
  rw [herr]
  rfl

/-- A system and the constraints that it comes from agree on the first that does not hold. -/
theorem firstUnsatisfied_of_lowered {s : ConstraintSystem p} {policy : ConstDiv}
    (hv : s.values = some (c.systemValues t))
    (h : List.Forall₂ (Constraint.Lowered t (c.columnValues t)) (c.constraints policy) s.rows) :
    ∃ i, firstUnsatisfied (c.constraints policy) t = .ok i ∧ s.firstUnsatisfied = .ok i := by
  refine ⟨s.rows.findIdx? (!ConstraintSystem.holds (c.columnValues t) ·), ?_, ?_⟩
  · rw [FieldCircuit.firstUnsatisfied, firstUnsatisfiedFrom_eq_findIdx? h]
    simp
  · rw [ConstraintSystem.firstUnsatisfied, hv]
    simp only [toArray_systemValues]

/-- Synthesis from a table refines the constraints of the circuit. It succeeds if every wire has a
value, and else it names the smallest wire without one. The rows of a system, multiplied with the
values of the columns, are the values of the combinations, and the system fails its check at the
constraint that is the first unsatisfied one. -/
theorem synthesize_refines_constraints (policy : ConstDiv) (t : Table p)
    (hr : c.ReadsWires p policy) :
    ((∃ s, c.synthesize (some t) policy = .ok s) ↔ ∀ w, w < c.total → w ∈ t) ∧
    (∀ fault, c.synthesize (some t) policy = .error fault ↔
      ∃ w, w < c.total ∧ w ∉ t ∧ (∀ v, v < w → v ∈ t) ∧ fault = .circuit (.incompleteTable w)) ∧
    ∀ s, c.synthesize (some t) policy = .ok s →
      s.values = some (c.systemValues t) ∧
      List.Forall₂ (Constraint.Lowered t (c.columnValues t)) (c.constraints policy) s.rows ∧
      (s.check = .ok () ↔ firstUnsatisfied (c.constraints policy) t = .ok none) ∧
      ∀ i, s.check = .error (.unsatisfied i) ↔
        firstUnsatisfied (c.constraints policy) t = .ok (some i) := by
  by_cases ht : ∀ w, w < c.total → w ∈ t
  · obtain ⟨s, hs, hvalues, hrows⟩ := exists_synthesize hr ht
    obtain ⟨i, hk, hi⟩ := firstUnsatisfied_of_lowered hvalues hrows
    refine ⟨⟨fun _ => ht, fun _ => ⟨s, hs⟩⟩, fun fault => ⟨fun h => ?_, ?_⟩, fun s' hs' => ?_⟩
    · rw [hs] at h
      cases h
    · rintro ⟨w, hw, hwt, -⟩
      exact absurd (ht w hw) hwt
    · cases hs.symm.trans hs'
      rw [ConstraintSystem.check_of_firstUnsatisfied hi, hk]
      refine ⟨hvalues, hrows, ?_, fun j => ?_⟩ <;> cases i <;> simp
  · obtain ⟨w, hw, hwt, hmin, herr⟩ := exists_synthesize_error policy ht
    refine ⟨⟨?_, fun h => absurd h ht⟩, fun fault => ⟨fun h => ?_, ?_⟩, ?_⟩
    · rintro ⟨s, hs⟩
      cases herr.symm.trans hs
    · exact ⟨w, hw, hwt, hmin, (Except.error.inj (herr.symm.trans h)).symm⟩
    · rintro ⟨v, -, hvt, hvmin, rfl⟩
      -- both wires are the smallest missing one
      have hle : ¬w < v := fun h => hwt (hvmin w h)
      have hge : ¬v < w := fun h => hvt (hmin v h)
      have hwv : w = v := UInt64.le_antisymm (UInt64.not_lt.1 hge) (UInt64.not_lt.1 hle)
      rw [herr, hwv]
    · intro s hs
      cases herr.symm.trans hs

/-- The rows of the zero test, the quotient and the quotient by minus two. The outputs, wires 3 and
5, have columns 1 and 2, and wires 0, 1, 2 and 4 the columns from 3 on. -/
def quotientRows (p : Nat) [Nonzero p] : List (Row p × Row p × Row p) :=
  [([(1, 5)], [(1, 6)], [(1, 0), (-1, 1)]), ([(1, 5)], [(1, 1)], []),
    ([(1, 5)], [(1, 4)], [(1, 3)]), ([(1, 2)], [(-2, 0)], [(1, 5)])]

/-- One over three is not zero: the constraint of the quotient, the third, fails. -/
theorem check_synthesize_quotientTable :
    quotientTest.ReadsWires 7 .omit ∧
      quotientTest.synthesize (some (quotientTable 1 3 0 1 0 0)) .omit =
        .ok ⟨3, 4, (quotientRows 7).take 3, some ⟨[1, 1, 0], [1, 3, 0, 0]⟩⟩ ∧
      ConstraintSystem.check
        ⟨3, 4, (quotientRows 7).take 3, some ⟨[1, 1, 0], [1, 3, 0, 0]⟩⟩ =
          .error (.unsatisfied 2) := by
  have hr : quotientTest.ReadsWires 7 .omit := by
    intro g hg _ w hw
    have hall : ∀ g ∈ quotientTest.gates, g.inputs.all (· < quotientTest.total) := by decide +kernel
    exact of_decide_eq_true (List.all_eq_true.1 (hall g hg) w hw)
  have h : quotientTest.synthesize (some (quotientTable 1 3 0 1 0 0)) .omit =
      .ok ⟨3, 4, (quotientRows 7).take 3, some ⟨[1, 1, 0], [1, 3, 0, 0]⟩⟩ := by decide +kernel
  obtain ⟨-, -, hs⟩ := synthesize_refines_constraints .omit (quotientTable 1 3 0 1 0 0) hr
  exact ⟨hr, h, ((hs _ h).2.2.2 2).2 (by decide +kernel)⟩

end Circuit

end FieldCircuit
