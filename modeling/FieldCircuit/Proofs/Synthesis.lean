import FieldCircuit.Proofs.Completeness

/-!
# Synthesis for setup and for proving

Keys are made from a system without values and proofs from one with values. Both have the same rows
and columns, and the public values of the second, met on a walk through the wires, are those that a
verifier reads off the set of outputs. No row can be made for a gate that reads a wire without a
column (`Circuit.exists_rows_iff`); a circuit whose gates read only smaller wires has no such gate.
-/

namespace FieldCircuit

variable {p : Nat} [Nonzero p]

/-! ## Rows that cannot be made -/

/-- Every wire that a constrained gate reads is in one of its constraints. -/
theorem Gate.forall_inputs_of_over {P : Wire → Prop} {g : Gate} {policy : ConstDiv}
    (hne : (g.constraints policy : List (Constraint p)) ≠ [])
    (h : ∀ k ∈ (g.constraints policy : List (Constraint p)), k.a.Over P ∧ k.b.Over P ∧ k.c.Over P) :
    ∀ w ∈ g.inputs, P w := by
  cases g with
  | input w => exact absurd rfl hne
  | constDiv k a w => cases policy <;> simp_all [inputs, constraints]
  | _ => simp_all [inputs, constraints]

theorem Gate.constraints_eq_nil_iff {g : Gate} {policy : ConstDiv} :
    (g.constraints policy : List (Constraint p)) = [] ↔
      (∃ w, g = .input w) ∨ policy = .omit ∧ ∃ k a w, g = .constDiv k a w := by
  cases g with
  | constDiv k a w => cases policy <;> simp [constraints]
  | _ => simp [constraints]

namespace Circuit

section

variable {columns : Std.ExtTreeMap Wire Nat}

theorem columnOf_eq_error {v : Variable} {fault : SystemFault}
    (h : columnOf columns v = .error fault) :
    ∃ w, fault = .unallocated w := by
  unfold columnOf at h
  split at h
  · cases h
  · next w =>
    split at h <;> cases h
    exact ⟨w, rfl⟩

theorem mem_of_columnOf {w : Wire} {j : Nat} (h : columnOf columns (.wire w) = .ok j) :
    w ∈ columns := by
  simp only [columnOf] at h
  split at h
  · next hw => exact mem_iff_exists_getElem?.2 ⟨_, hw⟩
  · cases h

/-- Only wires without a column keep a combination from being lowered. -/
theorem lower_eq_error {l : LinearCombination p} {fault : SystemFault}
    (h : lower columns l = .error fault) :
    ∃ w, fault = .unallocated w := by
  have hfold : ∀ (l : LinearCombination p) (row : Std.ExtTreeMap Nat (Residue p)),
      l.foldlM (addTerm columns) row = .error fault → ∃ w, fault = .unallocated w := by
    intro l
    induction l with
    | nil =>
      intro row h
      cases h
    | cons term l ih =>
      intro row h
      rw [List.foldlM_cons] at h
      rcases error_or_of_except_bind h with h | ⟨row', -, h⟩
      · rcases error_or_of_except_bind h with h | ⟨j, -, h⟩
        · exact columnOf_eq_error h
        · cases h
      · exact ih row' h
  rcases error_or_of_except_bind h with h | ⟨row, -, h⟩
  · exact hfold l ∅ h
  · cases h

theorem lowerConstraint_eq_error {k : Constraint p} {fault : SystemFault}
    (h : lowerConstraint columns k = .error fault) : ∃ w, fault = .unallocated w := by
  rcases error_or_of_except_bind h with h | ⟨a, -, h⟩
  · exact lower_eq_error h
  rcases error_or_of_except_bind h with h | ⟨b, -, h⟩
  · exact lower_eq_error h
  rcases error_or_of_except_bind h with h | ⟨d, -, h⟩
  · exact lower_eq_error h
  · cases h

theorem over_of_lower {l : LinearCombination p} {row : Row p} (h : lower columns l = .ok row) :
    l.Over (· ∈ columns) := by
  have hfold : ∀ (l : LinearCombination p) (row row' : Std.ExtTreeMap Nat (Residue p)),
      l.foldlM (addTerm columns) row = .ok row' → l.Over (· ∈ columns) := by
    intro l
    induction l with
    | nil => exact fun _ _ _ => LinearCombination.over_nil
    | cons term l ih =>
      intro row row' h
      rw [List.foldlM_cons] at h
      obtain ⟨row₁, h1, h2⟩ := exists_ok_of_except_bind h
      obtain ⟨j, hj, -⟩ := exists_column_of_addTerm h1
      refine List.forall_mem_cons.2 ⟨fun w hw => ?_, ih row₁ row' h2⟩
      rw [hw] at hj
      exact mem_of_columnOf hj
  obtain ⟨row', hrow, -⟩ := exists_ok_of_except_bind h
  exact hfold l ∅ row' hrow

theorem over_of_lowerConstraint {k : Constraint p} {row : Row p × Row p × Row p}
    (h : lowerConstraint columns k = .ok row) :
    k.a.Over (· ∈ columns) ∧ k.b.Over (· ∈ columns) ∧ k.c.Over (· ∈ columns) := by
  obtain ⟨a, ha, h⟩ := exists_ok_of_except_bind h
  obtain ⟨b, hb, h⟩ := exists_ok_of_except_bind h
  obtain ⟨d, hd, -⟩ := exists_ok_of_except_bind h
  exact ⟨over_of_lower ha, over_of_lower hb, over_of_lower hd⟩

end

variable {c : Circuit} {t : Table p} {policy : ConstDiv}

theorem lt_of_mem_columns {w : Wire} (h : w ∈ c.columns) : w < c.total := by
  obtain ⟨j, hj⟩ := mem_iff_exists_getElem?.1 h
  obtain ⟨i, hi, -⟩ := exists_of_columns hj
  exact mem_columnWires.1 (List.mem_of_getElem? hi)

/-- All rows can be made exactly when constrained gates read wires of the circuit. -/
theorem exists_rows_iff :
    (∃ rows,
      (c.constraints policy : List (Constraint p)).mapM (lowerConstraint c.columns) = .ok rows) ↔
      c.ReadsWires p policy := by
  refine ⟨?_, exists_rows⟩
  rintro ⟨rows, hrows⟩ g hg hne
  refine Gate.forall_inputs_of_over hne fun k hk => ?_
  have hmem : k ∈ c.constraints policy := List.mem_flatMap.2 ⟨g, Array.mem_toList_iff.2 hg, hk⟩
  obtain ⟨row, -, hrow⟩ := exists_of_mem_left (mapM_eq_ok_iff.1 hrows) hmem
  have hlt : ∀ l : LinearCombination p, l.Over (· ∈ c.columns) → l.Over (· < c.total) :=
    fun l hl term hterm w hw => lt_of_mem_columns (hl term hterm w hw)
  exact (over_of_lowerConstraint hrow).imp (hlt _) (.imp (hlt _) (hlt _))

/-! ## Wires without a column -/

/-- All columns can be filled: no table is given, or one with a value for every wire. -/
def Allocates (c : Circuit) (table : Option (Table p)) : Prop :=
  ∀ t, table = some t → ∀ w, w < c.total → w ∈ t

theorem synthesize_of_readsWires {table : Option (Table p)} (ht : c.Allocates table)
    (hr : c.ReadsWires p policy) : ∃ s, c.synthesize table policy = .ok s := by
  obtain ⟨rows, hrows⟩ := exists_rows hr
  cases table with
  | none => exact ⟨_, synthesize_none_of_rows hrows⟩
  | some t => exact ⟨_, synthesize_some_of_rows hrows (ht t rfl)⟩

theorem exists_unallocated {table : Option (Table p)} (ht : c.Allocates table)
    (hr : ¬c.ReadsWires p policy) : ∃ w, c.synthesize table policy = .error (.unallocated w) := by
  cases hrows : (c.constraints policy : List (Constraint p)).mapM (lowerConstraint c.columns) with
  | ok rows => exact absurd (exists_rows_iff.1 ⟨rows, hrows⟩) hr
  | error fault =>
    obtain ⟨_, k, _, -, -, hk⟩ := mapM_eq_error_iff.1 hrows
    obtain ⟨w, rfl⟩ := lowerConstraint_eq_error hk
    refine ⟨w, ?_⟩
    cases table with
    | none =>
      simp only [synthesize]
      rw [hrows]
      rfl
    | some t =>
      simp only [synthesize]
      rw [allocate_of_mem (ht t rfl), hrows]
      rfl

theorem allocates_of_unallocated {table : Option (Table p)} {w : Wire}
    (h : c.synthesize table policy = .error (.unallocated w)) : c.Allocates table := by
  rintro t rfl
  by_contra hmiss
  obtain ⟨v, -, -, -, herr⟩ := exists_synthesize_error policy hmiss
  cases h.symm.trans herr

/-- Synthesis finds a wire without a column exactly when the columns can be filled and a constrained
gate reads a wire that the circuit does not have. Inputs are not constrained, nor are quotients by a
constant if these are omitted. Where gates read smaller wires only, and so where some inputs can be
evaluated, every wire has one. -/
theorem synthesize_unallocated_iff (policy : ConstDiv) (table : Option (Table p)) :
    ((∃ w, c.synthesize table policy = .error (.unallocated w)) ↔
      c.Allocates table ∧ ∃ g ∈ c.gates, (g.constraints policy : List (Constraint p)) ≠ [] ∧
        ∃ w ∈ g.inputs, c.total ≤ w) ∧
    (∀ g : Gate, (g.constraints policy : List (Constraint p)) = [] ↔
      (∃ w, g = .input w) ∨ policy = .omit ∧ ∃ k a w, g = .constDiv k a w) ∧
    ((∀ g ∈ c.gates, g.checkMonotonic = .ok ()) →
      ∀ w, c.synthesize table policy ≠ .error (.unallocated w)) ∧
    ((∃ (a : Assignment p) (t : Table p), c.evaluate a = .ok t) →
      ∀ w, c.synthesize table policy ≠ .error (.unallocated w)) := by
  have hmono : (∀ g ∈ c.gates, g.checkMonotonic = .ok ()) →
      ∀ w, c.synthesize table policy ≠ .error (.unallocated w) := by
    intro hm w h
    obtain ⟨s, hs⟩ := synthesize_of_readsWires (allocates_of_unallocated h)
      (readsWires_of_monotonic hm policy)
    cases h.symm.trans hs
  refine ⟨⟨?_, ?_⟩, fun g => Gate.constraints_eq_nil_iff, hmono, ?_⟩
  · rintro ⟨w, h⟩
    have ht := allocates_of_unallocated h
    refine ⟨ht, ?_⟩
    by_contra hnone
    have hr : c.ReadsWires p policy := fun g hg hne v hv =>
      UInt64.not_le.1 fun hle => hnone ⟨g, hg, hne, v, hv, hle⟩
    obtain ⟨s, hs⟩ := synthesize_of_readsWires ht hr
    cases h.symm.trans hs
  · rintro ⟨ht, g, hg, hne, v, hv, hle⟩
    exact exists_unallocated ht fun hr => UInt64.not_lt.2 hle (hr g hg hne v hv)
  · rintro ⟨a, t, he⟩
    exact hmono (evaluate_eq_ok_iff.1 he).monotonic

open Builder in
/-- A quotient by two of a wire that is not there. -/
def danglingBuilder : Builder :=
  (stateAfter (push (.constDiv 2 9 1)) (stateAfter (push (.input 0)) (withTotal 2))).declareOutput 1

theorem checked_danglingBuilder : danglingBuilder.Checked 2 := by
  apply Builder.checked_of_check
  rw [Builder.check, Builder.extent, Std.ExtTreeMap.maxKey?_eq_getLast?_keys]
  decide +kernel

def danglingTest : Circuit := danglingBuilder.circuit 2 checked_danglingBuilder

/-- The quotient has no row where it is constrained, and does no harm where it is not. -/
theorem synthesize_danglingTest :
    (∃ w, danglingTest.synthesize (none : Option (Table 7)) .enforce = .error (.unallocated w)) ∧
      ¬∃ w, danglingTest.synthesize (none : Option (Table 7)) .omit = .error (.unallocated w) := by
  have hgates : danglingTest.gates = #[.input 0, .constDiv 2 9 1] := rfl
  have hnone : danglingTest.Allocates (none : Option (Table 7)) := fun t ht => by cases ht
  refine ⟨?_, ?_⟩
  · refine (synthesize_unallocated_iff .enforce none).1.2 ⟨hnone, ?_⟩
    exact ⟨.constDiv 2 9 1, by simp [hgates], by simp [Gate.constraints], 9, by simp [Gate.inputs],
      by decide⟩
  · intro h
    obtain ⟨-, g, hg, hne, -⟩ := (synthesize_unallocated_iff .omit none).1.1 h
    rw [hgates] at hg
    simp only [List.mem_toArray, List.mem_cons, List.not_mem_nil, or_false] at hg
    rcases hg with rfl | rfl <;> exact hne rfl

/-! ## The same system twice -/

/-- How many wires are public and how many secret. -/
theorem length_publicWires (c : Circuit) :
    c.publicWires.length = c.outputs.size ∧
      c.outputs.size + c.secretWires.length = c.total.toNat := by
  have hpublic : c.publicWires.length = c.outputs.size := by
    rw [publicWires_eq, Std.ExtTreeSet.length_toList]
  have hwires : c.wires.length = c.total.toNat := by simp [wires]
  have hsplit : c.wires.length = c.publicWires.length + c.secretWires.length := by
    simpa [publicWires, secretWires] using
      List.length_eq_length_filter_add (l := c.wires) fun w => decide (w ∈ c.outputs)
  omega

theorem size_systemOf {rows : List (Row p × Row p × Row p)}
    (h : (c.constraints policy : List (Constraint p)).mapM (lowerConstraint c.columns) = .ok rows)
    (values : Option (Values p)) : (c.systemOf rows values).size = c.size p policy := by
  obtain ⟨hpublic, hsecret⟩ := c.length_publicWires
  have hrows : rows.length = (c.constraints policy : List (Constraint p)).length :=
    (mapM_eq_ok_iff.1 h).length_eq.symm
  have hsub : c.secretWires.length = c.total.toNat - c.outputs.size := by omega
  simp only [ConstraintSystem.size, systemOf, size, hrows, hpublic, hsub, Nat.add_sub_cancel]

theorem publicInput_of_mem (ht : ∀ w, w < c.total → w ∈ t) :
    c.publicInput t = .ok (c.outputs.toList.map (t.getD · 0)) :=
  Table.mapM_demand_of_mem fun w hw =>
    ht w (Circuit.outputs_lt _ w (Std.ExtTreeSet.mem_toList.1 hw))

/-- With a value for every wire, setup and proving give systems with the same rows and the size that
is counted from the circuit alone, in which every wire is public or secret. The public values of the
second are the constant one and the verifier's input. -/
theorem synthesize_setup_and_proving (policy : ConstDiv) (t : Table p)
    (ht : ∀ w, w < c.total → w ∈ t) (hr : c.ReadsWires p policy) :
    ∃ (setup proving : ConstraintSystem p) (values : Values p) (input : List (Residue p)),
      c.synthesize none policy = .ok setup ∧ c.synthesize (some t) policy = .ok proving ∧
      proving.rows = setup.rows ∧ setup.size = c.size p policy ∧ proving.size = c.size p policy ∧
      c.outputs.size ≤ c.total.toNat ∧
      (c.size p policy).publics + (c.size p policy).secrets = c.total.toNat ∧
      proving.values = some values ∧ c.publicInput t = .ok input ∧ values.publics = 1 :: input := by
  obtain ⟨rows, hrows⟩ := exists_rows hr
  obtain ⟨-, hsecret⟩ := c.length_publicWires
  have hle : c.outputs.size ≤ c.total.toNat := by omega
  refine ⟨c.systemOf rows none, c.systemOf rows (some (c.systemValues t)), c.systemValues t, _,
    synthesize_none_of_rows hrows, synthesize_some_of_rows hrows ht, rfl, size_systemOf hrows _,
    size_systemOf hrows _, hle, ?_, rfl, publicInput_of_mem ht, rfl⟩
  simp only [size]
  omega

/-- Six over three: the indicator and the quotient by minus two are public, the other four wires
secret. -/
theorem synthesize_quotientTest_twice :
    (∀ w, w < quotientTest.total → w ∈ quotientTable 6 3 2 0 4 6) ∧
      quotientTest.ReadsWires 7 .enforce ∧
      quotientTest.synthesize (none : Option (Table 7)) .enforce =
        .ok ⟨3, 4, quotientRows 7, none⟩ ∧
      quotientTest.synthesize (some (quotientTable 6 3 2 0 4 6)) .enforce =
        .ok ⟨3, 4, quotientRows 7, some ⟨[1, 0, 6], [6, 3, 2, 4]⟩⟩ ∧
      quotientTest.size 7 .enforce = ⟨4, 2, 4⟩ ∧
      ConstraintSystem.size (⟨3, 4, quotientRows 7, none⟩ : ConstraintSystem 7) = ⟨4, 2, 4⟩ ∧
      quotientTest.publicInput (quotientTable 6 3 2 0 4 6) = .ok [0, 6] := by
  have ht : ∀ w, w < quotientTest.total → w ∈ quotientTable 6 3 2 0 4 6 :=
    fun w => (mem_quotientTable w).2
  have hr : quotientTest.ReadsWires 7 .enforce := by
    refine readsWires_of_monotonic ?_ _
    decide +kernel
  have hsize : quotientTest.size 7 .enforce = ⟨4, 2, 4⟩ := by decide +kernel
  have hnone : quotientTest.synthesize (none : Option (Table 7)) .enforce =
      .ok ⟨3, 4, quotientRows 7, none⟩ := by decide +kernel
  have hsome : quotientTest.synthesize (some (quotientTable 6 3 2 0 4 6)) .enforce =
      .ok ⟨3, 4, quotientRows 7, some ⟨[1, 0, 6], [6, 3, 2, 4]⟩⟩ := by decide +kernel
  obtain ⟨setup, proving, values, input, hsetup, hproving, -, hmeasure, -, -, -, hvalues, hinput,
    hpublics⟩ := synthesize_setup_and_proving .enforce (quotientTable 6 3 2 0 4 6) ht hr
  cases hnone.symm.trans hsetup
  cases hsome.symm.trans hproving
  cases hvalues
  cases hpublics
  exact ⟨ht, hr, hnone, hsome, hsize, hmeasure.trans hsize, hinput⟩

end Circuit

end FieldCircuit
