import FieldCircuit.Program.Rebuild
import FieldCircuit.Proofs.Assembly
import FieldCircuit.Proofs.ProgramText
import FieldCircuit.Proofs.Soundness

/-!
# Flattening a circuit

The text of a circuit's program reads back as a circuit that computes the same values
(`Circuit.exists_ofProgramText_flatten`). Its gates are those of the first with the constants
folded, the inputs moved to the front; what it declares as outputs are all wires from the first
output on.
-/

namespace FieldCircuit

variable {p : Nat}

/-! ## Programs as circuits -/

theorem Operation.outputs_toGate (op : Operation p) : op.toGate.outputs = op.outputs := by
  cases op <;> rfl

namespace Program

theorem mem_wiresFrom {start stop w : UInt64} :
    w ∈ wiresFrom start stop ↔ start ≤ w ∧ w < stop := by
  simp only [wiresFrom, List.mem_map, List.mem_range'_1, UInt64.le_iff_toNat_le,
    UInt64.lt_iff_toNat_lt]
  constructor
  · rintro ⟨n, hn, rfl⟩
    have := stop.toNat_lt
    rw [UInt64.toNat_ofNat']
    omega
  · intro h
    exact ⟨w.toNat, by omega, by simp⟩

theorem pairwise_wiresFrom (start stop : UInt64) : (wiresFrom start stop).Pairwise (· < ·) := by
  refine Circuit.pairwise_map_toUInt64 List.pairwise_lt_range' fun n hn => ?_
  have hstop := stop.toNat_lt_size
  rw [List.mem_range'_1] at hn
  omega

theorem nodup_wiresFrom (start stop : UInt64) : (wiresFrom start stop).Nodup :=
  (pairwise_wiresFrom start stop).imp UInt64.ne_of_lt

variable {s : Program p}

theorem mem_produced {w : Wire} : w ∈ s.produced ↔ w ∈ s.operations.flatMap Operation.outputs := by
  rw [produced, Std.ExtTreeSet.mem_ofList, List.contains_iff_mem]

theorem flatMap_outputs_gates (s : Program p) : s.gates.flatMap Gate.outputs =
    (wiresFrom 0 s.total).filter (· ∉ s.produced) ++ s.operations.flatMap Operation.outputs := by
  simp only [gates, List.flatMap_append, List.flatMap_map, Operation.outputs_toGate]
  congr 1
  exact List.flatMap_singleton' _

/-- Operations that produce different wires below the total make a circuit. -/
theorem exists_toCircuit (hn : s.total ≤ maxWires)
    (hd : (s.operations.flatMap Operation.outputs).Nodup)
    (hlt : ∀ w ∈ s.operations.flatMap Operation.outputs, w < s.total) :
    ∃ c, s.toCircuit = .ok c ∧ c.total = s.total ∧ c.gates.toList = s.gates ∧
      ∀ w, w ∈ c.outputs ↔ s.outStart ≤ w ∧ w < s.total := by
  have hnodup : (s.gates.flatMap Gate.outputs).Nodup := by
    rw [flatMap_outputs_gates, List.nodup_append]
    refine ⟨(nodup_wiresFrom 0 s.total).filter _, hd, fun v hv w hw he => ?_⟩
    have hv := (List.mem_filter.1 hv).2
    simp [mem_produced, he, hw] at hv
  have hcover : ∀ w, w ∈ s.gates.flatMap Gate.outputs ↔ w < s.total := by
    intro w
    rw [flatMap_outputs_gates, List.mem_append, List.mem_filter, mem_wiresFrom, decide_eq_true_eq,
      mem_produced]
    constructor
    · rintro (⟨⟨-, hw⟩, -⟩ | hw)
      · exact hw
      · exact hlt w hw
    · intro hw
      by_cases hp : w ∈ s.operations.flatMap Operation.outputs
      · exact .inr hp
      · exact .inl ⟨⟨UInt64.zero_le, hw⟩, hp⟩
  obtain ⟨b, c, hrun, hfinish, htotal, hgates, houtputs⟩ :=
    Builder.exists_assemble hnodup hcover fun w hw => (mem_wiresFrom.1 hw).2
  have hbuild : toCircuit.build s = .ok c := by
    unfold toCircuit.build
    rw [EStateM.run, declareAll, hrun]
    exact hfinish
  refine ⟨c, ?_, htotal, hgates, fun w => (houtputs w).trans mem_wiresFrom⟩
  unfold toCircuit
  rw [if_neg (UInt64.not_lt.2 hn)]
  split
  · next w hw =>
    have hmem := mem_produced.1 (Std.ExtTreeSet.max?_mem hw)
    rw [if_neg (UInt64.not_le.2 (hlt w hmem)), hbuild]
  · exact hbuild

end Program

/-! ## The operation of a gate -/

namespace Operation

variable {g : Gate} {op : Operation p}

section

variable [Nonzero p]

/-- The operation of a gate is that gate, but for a gate with a constant: there it multiplies by the
constant or by its inverse. -/
theorem eq_or_of_ofGate? (h : ofGate? g = .ok (some op)) :
    op.toGate = g ∨ (∃ k a w, g = .constMul k a w ∧ op = .constMul (.ofInt k) a w) ∨
      ∃ k a w x, g = .constDiv k a w ∧ (.ofInt k : Residue p).inverse? = some x ∧
        op = .constMul x a w := by
  cases g with
  | input w => cases h
  | constMul k a w =>
    cases h
    exact .inr (.inl ⟨k, a, w, rfl, rfl⟩)
  | constDiv k a w =>
    simp only [ofGate?] at h
    split at h
    · next x hx =>
      cases h
      exact .inr (.inr ⟨k, a, w, x, rfl, hx, rfl⟩)
    · cases h
  | _ =>
    cases h
    exact .inl rfl

theorem eq_input_of_ofGate? (h : (ofGate? g : Except Fault (Option (Operation p))) = .ok none) :
    ∃ w, g = .input w := by
  cases g with
  | input w => exact ⟨w, rfl⟩
  | constDiv k a w =>
    simp only [ofGate?] at h
    split at h <;> cases h
  | _ => cases h

theorem outputs_of_ofGate? (h : ofGate? g = .ok (some op)) : op.outputs = g.outputs := by
  rcases eq_or_of_ofGate? h with rfl | ⟨k, a, w, rfl, rfl⟩ | ⟨k, a, w, x, rfl, -, rfl⟩
  · exact op.outputs_toGate.symm
  · rfl
  · rfl

theorem checkMonotonic_toGate (h : ofGate? g = .ok (some op)) :
    op.toGate.checkMonotonic = g.checkMonotonic := by
  rcases eq_or_of_ofGate? h with rfl | ⟨k, a, w, rfl, rfl⟩ | ⟨k, a, w, x, rfl, -, rfl⟩ <;> rfl

/-- Folding the constant of a gate changes none of the values it computes. -/
theorem gateValues_toGate (h : ofGate? g = .ok (some op)) {e : Evaluator p} {t : Table p} :
    e.gateValues t op.toGate = e.gateValues t g := by
  have hfold : ∀ x : Residue p, Residue.ofInt x.val = x := Residue.ofNat_val
  rcases eq_or_of_ofGate? h with rfl | ⟨k, a, w, rfl, rfl⟩ | ⟨k, a, w, x, rfl, hx, rfl⟩
  · rfl
  · simp only [toGate, Evaluator.gateValues, Gate.evaluate, hfold]
  · simp only [toGate, Evaluator.gateValues, Gate.evaluate, hfold, hx, mul_comm]

theorem explains_toGate (h : ofGate? g = .ok (some op)) {e : Evaluator p} {t : Table p} :
    e.Explains t op.toGate ↔ e.Explains t g := by
  unfold Evaluator.Explains
  rw [gateValues_toGate h, outputs_toGate, outputs_of_ofGate? h]

end

end Operation

/-! ## The program of a circuit -/

section

variable [Nonzero p]

/-- The operations are those of the gates, in order, inputs left out. -/
inductive Flattens : List Gate → List (Operation p) → Prop where
  | nil : Flattens [] []
  | input {gs : List Gate} {ops : List (Operation p)} (w : Wire) :
      Flattens gs ops → Flattens (.input w :: gs) ops
  | operation {g : Gate} {op : Operation p} {gs : List Gate} {ops : List (Operation p)} :
      Operation.ofGate? g = .ok (some op) → Flattens gs ops → Flattens (g :: gs) (op :: ops)

theorem flattens_of_mapM {gs : List Gate} {os : List (Option (Operation p))}
    (h : gs.mapM Operation.ofGate? = .ok os) : Flattens gs (os.filterMap id) := by
  replace h := mapM_eq_ok_iff.1 h
  induction h with
  | nil => exact .nil
  | @cons g o gs os hg _ ih =>
    cases o with
    | some op => exact .operation hg ih
    | none =>
      obtain ⟨w, rfl⟩ := Operation.eq_input_of_ofGate? hg
      exact .input w ih

namespace Flattens

variable {gs : List Gate} {ops : List (Operation p)}

theorem mem_iff (h : Flattens gs ops) {op : Operation p} :
    op ∈ ops ↔ ∃ g ∈ gs, Operation.ofGate? g = .ok (some op) := by
  induction h with
  | nil => simp
  | input w _ ih => simp [ih, Operation.ofGate?]
  | operation hg _ ih => simp [ih, hg, eq_comm]

theorem exists_of_mem (h : Flattens gs ops) {g : Gate} (hg : g ∈ gs) :
    (∃ w, g = .input w) ∨ ∃ op ∈ ops, Operation.ofGate? g = .ok (some op) := by
  induction h with
  | nil => cases hg
  | input w _ ih =>
    rcases List.mem_cons.1 hg with rfl | hg
    · exact .inl ⟨w, rfl⟩
    · exact ih hg
  | operation hop _ ih =>
    rcases List.mem_cons.1 hg with rfl | hg
    · exact .inr ⟨_, List.mem_cons_self, hop⟩
    · exact (ih hg).imp_right fun ⟨op, hmem, h⟩ => ⟨op, List.mem_cons_of_mem _ hmem, h⟩

theorem outputs_sublist (h : Flattens gs ops) :
    (ops.flatMap Operation.outputs).Sublist (gs.flatMap Gate.outputs) := by
  induction h with
  | nil => exact .slnil
  | input w _ ih => exact ih.cons w
  | operation hg _ ih =>
    rw [List.flatMap_cons, List.flatMap_cons, Operation.outputs_of_ofGate? hg]
    exact ih.append_left _

end Flattens

namespace Program

variable {c : Circuit} {s : Program p}

theorem flattens_of_ofCircuit (h : ofCircuit c = .ok s) :
    s.total = c.total ∧ s.outStart = c.firstOutput?.getD c.total ∧
      Flattens c.gates.toList s.operations := by
  obtain ⟨os, hos, h⟩ := exists_ok_of_except_bind h
  cases h
  exact ⟨rfl, rfl, flattens_of_mapM hos⟩

theorem exists_gate_of_mem_produced (h : Flattens c.gates.toList s.operations) {w : Wire}
    (hw : w ∈ s.produced) : ∃ g op, g ∈ c.gates ∧ w ∈ g.outputs ∧
      Operation.ofGate? g = .ok (some op) ∧ op ∈ s.operations := by
  obtain ⟨op, hop, hw⟩ := List.mem_flatMap.1 (mem_produced.1 hw)
  obtain ⟨g, hg, hgo⟩ := h.mem_iff.1 hop
  exact ⟨g, op, Array.mem_toList_iff.1 hg, Operation.outputs_of_ofGate? hgo ▸ hw, hgo, hop⟩

/-- The wires left to inputs are the input wires of the circuit. -/
theorem input_mem_gates_iff (ht : s.total = c.total)
    (h : Flattens c.gates.toList s.operations) {w : Wire} :
    Gate.input w ∈ s.gates ↔ Gate.input w ∈ c.gates := by
  have hgates : Gate.input w ∈ s.gates ↔ w < c.total ∧ w ∉ s.produced := by
    have hop : ∀ op : Operation p, op.toGate ≠ .input w := by
      intro op h
      cases op <;> cases h
    simp [gates, mem_wiresFrom, ht, hop]
  rw [hgates]
  constructor
  · rintro ⟨hlt, hnot⟩
    obtain ⟨g, hg, hw⟩ := Circuit.exists_gate hlt
    rcases h.exists_of_mem (Array.mem_toList_iff.2 hg) with ⟨v, rfl⟩ | ⟨op, hop, hgo⟩
    · obtain rfl : w = v := by simpa [Gate.outputs] using hw
      exact hg
    · rw [← Operation.outputs_of_ofGate? hgo] at hw
      exact absurd (mem_produced.2 (List.mem_flatMap.2 ⟨op, hop, hw⟩)) hnot
  · intro hg
    have hw : w ∈ (Gate.input w).outputs := List.mem_cons_self
    refine ⟨Circuit.output_lt hg hw, fun hmem => ?_⟩
    obtain ⟨g, op, hg', hw', hgo, -⟩ := exists_gate_of_mem_produced h hmem
    cases Circuit.eq_of_mem_outputs hg hg' hw hw'
    cases hgo

/-- What folding constants does not change about a gate holds of all gates of the program when it
holds of all gates of the circuit. -/
theorem forall_mem_gates_iff (ht : s.total = c.total) (h : Flattens c.gates.toList s.operations)
    {P : Gate → Prop}
    (hP : ∀ (g : Gate) (op : Operation p), Operation.ofGate? g = .ok (some op) →
      (P op.toGate ↔ P g)) :
    (∀ g ∈ s.gates, P g) ↔ ∀ g ∈ c.gates, P g := by
  constructor
  · intro hs g hg
    rcases h.exists_of_mem (Array.mem_toList_iff.2 hg) with ⟨w, rfl⟩ | ⟨op, hop, hgo⟩
    · exact hs _ ((input_mem_gates_iff ht h).2 hg)
    · exact (hP g op hgo).1 (hs _ (List.mem_append_right _ (List.mem_map_of_mem hop)))
  · intro hs g hg
    rcases List.mem_append.1 hg with hi | ho
    · obtain ⟨w, -, rfl⟩ := List.mem_map.1 hi
      exact hs _ ((input_mem_gates_iff ht h).1 hg)
    · obtain ⟨op, hop, rfl⟩ := List.mem_map.1 ho
      obtain ⟨g, hg, hgo⟩ := h.mem_iff.1 hop
      exact (hP g op hgo).2 (hs g (Array.mem_toList_iff.1 hg))

end Program

end

/-! ## Reading a program back -/

namespace Circuit

variable {c c' : Circuit}

section

variable [Nonzero p] {s : Program p}

theorem exists_flatten_iff {journal : Journal} :
    (∃ journal', (c.flatten : Journaled Fault (Program p)) journal = .ok s journal') ↔
      Program.ofCircuit c = .ok s :=
  exists_report_iff fun s : Program p => .flattened s.operations.length s.outStart

theorem ofCircuit_of_flatten {journal journal' : Journal}
    (h : (c.flatten : Journaled Fault (Program p)) journal = .ok s journal') :
    Program.ofCircuit c = .ok s :=
  exists_flatten_iff.1 ⟨journal', h⟩

theorem ofProgramText_text (s : Program p) : ofProgramText p s.text = s.toCircuit := by
  unfold ofProgramText Program.parse
  rw [Program.declareLines_text]
  rfl

theorem solution_iff_of_flattens (ht : s.total = c.total)
    (h : Flattens c.gates.toList s.operations) (ht' : c'.total = c.total)
    (hg' : c'.gates.toList = s.gates) {a : Assignment p} {t : Table p} :
    c.Solution a t ↔ c'.Solution a t := by
  -- a solution asks for two things of every gate, and folding constants changes neither
  have hgates : ∀ P : Gate → Prop, (∀ g ∈ c'.gates, P g) ↔ ∀ g ∈ s.gates, P g := by
    intro P
    simp only [← hg', Array.mem_toList_iff]
  have hmono := Program.forall_mem_gates_iff ht h (P := fun g => g.checkMonotonic = .ok ())
    fun g op hgo => by rw [Operation.checkMonotonic_toGate hgo]
  have hexpl := Program.forall_mem_gates_iff ht h (P := Evaluator.Explains ⟨c, a⟩ t)
    fun g op hgo => Operation.explains_toGate hgo
  have hcirc : ∀ g, Evaluator.Explains ⟨c', a⟩ t g ↔ Evaluator.Explains ⟨c, a⟩ t g := by
    intro g
    have hvalues : (⟨c', a⟩ : Evaluator p).gateValues t g = (⟨c, a⟩ : Evaluator p).gateValues t g :=
      Evaluator.gateValues_congr_inputs fun _ _ => rfl
    unfold Evaluator.Explains
    rw [hvalues]
  constructor
  · intro hs
    refine ⟨ht' ▸ hs.mem_iff, (hgates _).2 (hmono.2 hs.monotonic), (hgates _).2 fun g hg => ?_⟩
    exact (hcirc g).2 (hexpl.2 hs.explains g hg)
  · intro hs
    refine ⟨ht' ▸ hs.mem_iff, hmono.1 ((hgates _).1 hs.monotonic), hexpl.1 fun g hg => ?_⟩
    exact (hcirc g).1 ((hgates _).1 hs.explains g hg)

end

variable [Fact p.Prime] {s : Program p}

/-- The text of a circuit's program reads back as a circuit with the same wires and inputs, with all
wires from the first output on as outputs, that evaluates to the same tables. -/
theorem exists_ofProgramText_flatten (hn : c.total ≤ Program.maxWires)
    {journal journal' : Journal}
    (h : (c.flatten : Journaled Fault (Program p)) journal = .ok s journal') :
    ∃ c', ofProgramText p s.text = .ok c' ∧ c'.total = c.total ∧
      (∀ w, Gate.input w ∈ c'.gates ↔ Gate.input w ∈ c.gates) ∧
      (∀ w, w ∈ c'.outputs ↔ ∃ v, c.firstOutput? = some v ∧ v ≤ w ∧ w < c.total) ∧
      ∀ (a : Assignment p) (t : Table p), c.evaluate a = .ok t ↔ c'.evaluate a = .ok t := by
  obtain ⟨htotal, hstart, hflat⟩ := Program.flattens_of_ofCircuit (ofCircuit_of_flatten h)
  have hlt : ∀ w ∈ s.operations.flatMap Operation.outputs, w < s.total := by
    intro w hw
    obtain ⟨g, -, hg, hw, -⟩ :=
      Program.exists_gate_of_mem_produced hflat (Program.mem_produced.2 hw)
    exact htotal ▸ Circuit.output_lt hg hw
  obtain ⟨c', hc', htotal', hgates', houtputs'⟩ := Program.exists_toCircuit (htotal ▸ hn)
    ((Circuit.nodup_flatMap_outputs _).sublist hflat.outputs_sublist) hlt
  rw [htotal] at htotal'
  refine ⟨c', (ofProgramText_text s).trans hc', htotal', fun w => ?_, fun w => ?_, fun a t => ?_⟩
  · rw [← Array.mem_toList_iff, hgates']
    exact Program.input_mem_gates_iff htotal hflat
  · rw [houtputs', hstart, htotal]
    cases c.firstOutput? with
    | some v => simp
    | none =>
      simp only [Option.getD_none, reduceCtorEq, false_and, exists_false, iff_false, not_and]
      exact fun hw => UInt64.not_lt.2 hw
  · rw [evaluate_eq_ok_iff, evaluate_eq_ok_iff]
    exact solution_iff_of_flattens htotal hflat htotal' hgates'

/-- The quotient by minus two is a product with three. -/
def quotientProgram : Program 7 :=
  ⟨6, 3, [.zeroTest 2 3 4, .div 0 1 2, .constMul ⟨3, by decide⟩ 2 5]⟩

theorem firstOutput?_quotientTest : quotientTest.firstOutput? = some 3 := by
  rw [firstOutput?, Std.ExtTreeSet.min?_eq_head?_toList]
  decide +kernel

theorem flatten_quotientTest : (quotientTest.flatten : Journaled Fault (Program 7)) [] =
    .ok quotientProgram [.flattened 3 3] := by
  have hs : Program.ofCircuit quotientTest = .ok quotientProgram := by
    rw [Program.ofCircuit, firstOutput?_quotientTest, gates_quotientTest]
    decide +kernel
  rw [flatten, hs]
  rfl

/-- Six over three, and over minus two. -/
theorem exists_ofProgramText_quotientProgram :
    quotientTest.total ≤ Program.maxWires ∧
      (quotientTest.flatten : Journaled Fault (Program 7)) [] =
        .ok quotientProgram [.flattened 3 3] ∧
      ∃ c', ofProgramText 7 quotientProgram.text = .ok c' ∧
        (∀ w, w ∈ c'.outputs ↔ 3 ≤ w ∧ w < 6) ∧
        c'.evaluate (quotientInputs 6 3) = .ok (quotientTable 6 3 2 0 4 6) := by
  have hn : quotientTest.total ≤ Program.maxWires := by decide
  refine ⟨hn, flatten_quotientTest, ?_⟩
  obtain ⟨c', hc', -, -, houtputs, heval⟩ :=
    exists_ofProgramText_flatten hn flatten_quotientTest
  refine ⟨c', hc', fun w => ?_, (heval _ _).1 (evaluate_quotientTest (by decide))⟩
  have htotal : quotientTest.total = 6 := rfl
  simp [houtputs, firstOutput?_quotientTest, htotal]

end Circuit

end FieldCircuit
