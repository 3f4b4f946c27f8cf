import FieldCircuit.Proofs.FinalCheck
import FieldCircuit.Proofs.Solution
import Mathlib.Data.List.Find

/-!
# Inputs without a value

An evaluator is refused when an input of the circuit has no value. The input that is named is the
first one in the order of the gates. It is the smallest one whenever the input gates stand in
ascending order of their wires, and for no other circuits: where a smaller input stands behind a
larger one, an assignment that lacks just these two is refused for the larger.
-/

namespace FieldCircuit

/-! ## Searches that find the smallest -/

/-- A list of different wires in which every search finds the smallest wire sought is ascending. -/
theorem pairwise_lt_of_find? {ws : List Wire} (hd : ws.Nodup)
    (h : ∀ (q : Wire → Bool) (w : Wire), ws.find? q = some w → ∀ v ∈ ws, q v = true → w ≤ v) :
    ws.Pairwise (· < ·) := by
  induction ws with
  | nil => exact .nil
  | cons u ws ih =>
    obtain ⟨hu, hd⟩ := List.nodup_cons.1 hd
    refine .cons (fun v hv => ?_) (ih hd fun q w hw v hv hq => ?_)
    · have hle : u ≤ v := h (fun _ => true) u rfl v (List.mem_cons_of_mem u hv) rfl
      exact UInt64.lt_of_le_of_ne hle fun he => hu (he ▸ hv)
    · -- a search in the rest is one in the whole list that leaves out the head
      have hne : ∀ {x}, x ∈ ws → (x != u) = true := fun hx => bne_iff_ne.2 fun he => hu (he ▸ hx)
      refine h (fun x => x != u && q x) w ?_ v (List.mem_cons_of_mem u hv) (by simp [hne hv, hq])
      rw [List.find?_cons_of_neg (by simp), ← hw]
      exact List.find?_congr fun x hx => by simp [hne hx]

namespace Circuit

variable {p : Nat} {c : Circuit} {a : Assignment p} {w : Wire}

theorem nodup_inputWires : c.inputWires.Nodup := by
  refine List.pairwise_filterMap.2
    ((List.nodup_flatMap.1 (Circuit.nodup_flatMap_outputs _)).2.imp ?_)
  intro g g' hdisjoint v hv v' hv' he
  subst he
  cases g with
  | input u =>
    cases g' with
    | input u' =>
      cases hv
      cases hv'
      exact hdisjoint List.mem_cons_self List.mem_cons_self
    | _ => cases hv'
  | _ => cases hv

/-! ## The first check -/

/-- The inputs without a value. -/
def unassigned (c : Circuit) (a : Assignment p) : Set Wire := {w | Gate.input w ∈ c.gates ∧ w ∉ a}

/-- The input has no value, and those whose gates stand before its own have one. -/
def FirstUnassigned (c : Circuit) (a : Assignment p) (w : Wire) : Prop :=
  w ∉ a ∧ ∃ before after, c.gates.toList = before ++ .input w :: after ∧
    ∀ v, Gate.input v ∈ before → v ∈ a

theorem not_contains_iff : (!a.contains w) = true ↔ w ∉ a := by
  rw [Std.ExtTreeMap.mem_iff_contains, Bool.not_eq_true', Bool.not_eq_true]

/-- The search among the wires of input gates is one among the gates. -/
theorem find?_inputWires_eq_some_iff :
    c.inputWires.find? (!a.contains ·) = some w ↔ c.FirstUnassigned a w := by
  rw [List.find?_eq_some_iff_append, not_contains_iff]
  refine and_congr_right fun _ => ⟨?_, ?_⟩
  · rintro ⟨ws, vs, hsplit, hws⟩
    obtain ⟨gs, gs', hgates, rfl, hgs'⟩ := List.filterMap_eq_append_iff.1 hsplit
    obtain ⟨skipped, g, after, rfl, hskipped, hg, -⟩ := List.filterMap_eq_cons_iff.1 hgs'
    cases g with
    | input u =>
      cases hg
      refine ⟨gs ++ skipped, after, by simp [hgates], fun v hv => ?_⟩
      rcases List.mem_append.1 hv with hv | hv
      · simpa using hws v (List.mem_filterMap.2 ⟨_, hv, rfl⟩)
      · cases hskipped _ hv
    | _ => cases hg
  · rintro ⟨before, after, hgates, hbefore⟩
    refine ⟨_, _, by rw [inputWires, hgates, List.filterMap_append]; rfl, fun v hv => ?_⟩
    obtain ⟨g, hg, hv⟩ := List.mem_filterMap.1 hv
    cases g with
    | input u =>
      cases hv
      simpa using hbefore v hg
    | _ => cases hv

theorem create_eq_error_iff {fault : Fault} :
    Evaluator.create c a = .error fault ↔
      ∃ w, fault = .unassignedInput w ∧ c.FirstUnassigned a w := by
  simp only [← find?_inputWires_eq_some_iff]
  unfold Evaluator.create
  cases c.inputWires.find? (!a.contains ·) with
  | some w => simp [eq_comm]
  | none => simp

theorem exists_create_error_iff :
    (∃ fault, Evaluator.create c a = .error fault) ↔ (c.unassigned a).Nonempty := by
  constructor
  · rintro ⟨fault, h⟩
    obtain ⟨w, -, hw, before, after, hgates, -⟩ := create_eq_error_iff.1 h
    exact ⟨w, by simp [← Array.mem_toList_iff, hgates], hw⟩
  · rintro ⟨w, hg, hw⟩
    obtain ⟨v, -, -, h⟩ := exists_create_error fun ha : c.CoveredBy a => hw (ha w hg)
    exact ⟨_, h⟩

/-! ## The smallest input without a value -/

theorem create_eq_unassignedInput_iff :
    Evaluator.create c a = .error (.unassignedInput w) ↔
      c.inputWires.find? (!a.contains ·) = some w := by
  simp [create_eq_error_iff, find?_inputWires_eq_some_iff]

theorem setOf_inputWires_eq_unassigned :
    {v | v ∈ c.inputWires ∧ (!a.contains v) = true} = c.unassigned a := by
  ext v
  rw [Set.mem_ofPred_eq, not_contains_iff, mem_inputWires]
  rfl

/-- Some assignment lacks exactly the wires that are sought. -/
theorem exists_lacking [Nonzero p] (ws : List Wire) (q : Wire → Bool) :
    ∃ a : Assignment p, ∀ w ∈ ws, (!a.contains w) = q w := by
  refine ⟨.ofList ((ws.filter (!q ·)).map fun w => (w, (0 : Residue p))), fun w hw => ?_⟩
  rw [Std.ExtTreeMap.contains_ofList, List.map_map]
  simp [hw, Function.comp_def]

theorem isLeast_unassigned_iff [Nonzero p] :
    (∀ (a : Assignment p) (w : Wire), Evaluator.create c a = .error (.unassignedInput w) →
      IsLeast (c.unassigned a) w) ↔ c.inputWires.Pairwise (· < ·) := by
  simp only [create_eq_unassignedInput_iff, ← setOf_inputWires_eq_unassigned]
  constructor
  · intro h
    refine pairwise_lt_of_find? nodup_inputWires fun q w hw v hv hq => ?_
    obtain ⟨a, ha⟩ := exists_lacking (p := p) c.inputWires q
    exact (h a w ((List.find?_congr ha).trans hw)).2 ⟨hv, (ha v hv).trans hq⟩
  · intro h a w hw
    exact (Builder.find?_eq_some_iff_isLeast h).1 hw

/-- An evaluator is refused exactly when an input has no value, with a fault that names the first
such input in the order of the gates. This is always the smallest one in the circuits whose input
gates ascend, and in these only. -/
theorem create_names_first_unassigned [Nonzero p] :
    (∀ a : Assignment p,
        (∃ fault, Evaluator.create c a = .error fault) ↔ (c.unassigned a).Nonempty) ∧
      (∀ (a : Assignment p) (fault : Fault), Evaluator.create c a = .error fault ↔
        ∃ w, fault = .unassignedInput w ∧ c.FirstUnassigned a w) ∧
      ((∀ (a : Assignment p) (w : Wire), Evaluator.create c a = .error (.unassignedInput w) →
        IsLeast (c.unassigned a) w) ↔ c.inputWires.Pairwise (· < ·)) :=
  ⟨fun _ => exists_create_error_iff, fun _ _ => create_eq_error_iff, isLeast_unassigned_iff⟩

/-- The sum of two inputs, the second of which is declared first. -/
def swappedSum : List Gate := [.input 1, .add 0 1 2, .input 0]

theorem exists_swappedSum :
    ∃ c : Circuit, c.total = 3 ∧ c.gates.toList = swappedSum ∧ ∀ w, w ∈ c.outputs ↔ w ∈ [2] :=
  exists_of_perm (by decide) (by simp)

/-- Neither input has a value, and the larger one is named. -/
theorem create_swappedSum_not_least :
    ∃ c : Circuit, c.total = 3 ∧ c.gates.toList = swappedSum ∧
      Evaluator.create c (∅ : Assignment scalarModulus) = .error (.unassignedInput 1) ∧
      IsLeast (c.unassigned (∅ : Assignment scalarModulus)) 0 := by
  obtain ⟨c, htotal, hgates, -⟩ := exists_swappedSum
  refine ⟨c, htotal, hgates, create_eq_error_iff.2 ⟨1, rfl, by simp, [], _, hgates, by simp⟩,
    ⟨?_, ?_⟩, ?_⟩
  · rw [← Array.mem_toList_iff, hgates]
    decide
  · simp
  · exact fun v _ => UInt64.le_iff_toNat_le.2 (Nat.zero_le _)

/-- The input that is declared last is named once the other has a value. The inputs do not ascend,
and so the smallest is not always the one that is named. -/
theorem create_swappedSum :
    ∃ c : Circuit, c.gates.toList = swappedSum ∧
      (∃ fault, Evaluator.create c (∅ : Assignment scalarModulus) = .error fault) ∧
      Evaluator.create c (.ofList ([(1, .ofNat 3)] : List (Wire × Residue scalarModulus))) =
        .error (.unassignedInput 0) ∧
      ¬∀ (a : Assignment scalarModulus) (w : Wire),
        Evaluator.create c a = .error (.unassignedInput w) →
        IsLeast (c.unassigned a) w := by
  obtain ⟨c, -, hgates, -⟩ := exists_swappedSum
  obtain ⟨hfails, hnames, hleast⟩ :=
    create_names_first_unassigned (c := c) (p := scalarModulus)
  have hinputs : c.inputWires = [1, 0] := by
    rw [inputWires, hgates]
    rfl
  refine ⟨c, hgates, (hfails ∅).2 ⟨0, ?_, by simp⟩, ?_, fun h => ?_⟩
  · rw [← Array.mem_toList_iff, hgates]
    decide
  · refine (hnames _ _).2 ⟨0, rfl, ?_, [.input 1, .add 0 1 2], [], hgates, fun v hv => ?_⟩
    · rw [Std.ExtTreeMap.mem_ofList]
      decide
    · obtain rfl : v = 1 := by simpa using hv
      rw [Std.ExtTreeMap.mem_ofList]
      rfl
  · have hascend := hleast.1 h
    rw [hinputs] at hascend
    exact absurd hascend (by decide)

end Circuit

end FieldCircuit
