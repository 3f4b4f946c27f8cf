import FieldCircuit.Proofs.History

/-!
# The cone of a wire

The gates that feed a wire are its own gate and, with each of them, the gates of the wires that it
reads (`Circuit.Feeds`); the wires that they produce are the cone. A request for a wire computes
gates that feed it and no others, and a known wire comes with its whole cone, so that a successful
request knows the cone and nothing else. What is outside, values and gates alike, makes no
difference to it (`Evaluator.valueOf_congr`).
-/

namespace FieldCircuit

namespace Circuit

/-- The gate of the wire, and the gates that produce what these gates read. -/
inductive Feeds (c : Circuit) (w : Wire) : Gate → Prop where
  | own {g : Gate} : g ∈ c.gates → w ∈ g.outputs → Feeds c w g
  | input {g g' : Gate} {v : Wire} : Feeds c w g → v ∈ g.inputs → g' ∈ c.gates → v ∈ g'.outputs →
      Feeds c w g'

/-- The wires that the gates of a wire produce, both outputs of a zero test included. -/
def Cone (c : Circuit) (w : Wire) : Set Wire := {v | ∃ g, c.Feeds w g ∧ v ∈ g.outputs}

variable {c : Circuit} {v w : Wire} {g g' : Gate}

theorem Feeds.mem (h : c.Feeds w g) : g ∈ c.gates := by
  cases h with
  | own hg => exact hg
  | input _ _ hg => exact hg

theorem Feeds.trans (h : c.Feeds w g) (hv : v ∈ g.inputs) (h' : c.Feeds v g') : c.Feeds w g' := by
  induction h' with
  | own hg hw => exact .input h hv hg hw
  | input _ hu hg hw ih => exact .input ih hu hg hw

end Circuit

namespace Evaluator

variable {p : Nat} [Nonzero p] {e e' : Evaluator p} {m m' : Memory p} {t : Table p} {v w : Wire}
  {g : Gate}

/-! ## What a request knows in the end -/

omit [Nonzero p] in
theorem feeds_of_gate? (h : e.circuit.gate? w = some g) :
    e.circuit.Feeds w g := by
  obtain ⟨hg, hw⟩ := Circuit.gate?_eq_some_iff.1 h
  exact .own hg hw

/-- Whether it succeeds or fails, a request leaves the wires outside the cone as they were. -/
theorem mem_or_cone_of_valueOf (hv : v ∈ (stateAfter (e.valueOf w) m).table) :
    v ∈ m.table ∨ v ∈ e.circuit.Cone w := by
  rw [← descend_eq_valueOf] at hv
  -- the descent stays among wires that only gates of `w` feed
  refine stateAfter_descend_of_closed
    (P := fun s => ∀ v ∈ s.table, v ∈ m.table ∨ v ∈ e.circuit.Cone w)
    (D := fun u => ∀ g, e.circuit.Feeds u g → e.circuit.Feeds w g) (fun u g hu hg x hx g' hg' => ?_)
    (fun s u g xs hu hg hs v hv => ?_) (fun g hg => hg) (fun v hv => .inl hv) v hv
  · exact hu g' ((feeds_of_gate? hg.gate).trans hx hg')
  · rcases Memory.mem_storeAll.1 hv with hv | hv
    · exact hs v hv
    · obtain ⟨q, hq, rfl⟩ := List.mem_map.1 hv
      exact .inr ⟨g, hu g (feeds_of_gate? hg), (List.of_mem_zip hq).1⟩

/-- A consistent table that knows a wire knows what the gates of the wire read and produce. -/
theorem Consistent.mem_of_feeds (ht : e.Consistent t) (hw : w ∈ t)
    (h : e.circuit.Feeds w g) : (∀ u ∈ g.inputs, u ∈ t) ∧ ∀ u ∈ g.outputs, u ∈ t := by
  have hknown : ∀ u g, u ∈ t → g ∈ e.circuit.gates → u ∈ g.outputs →
      (∀ x ∈ g.inputs, x ∈ t) ∧ ∀ x ∈ g.outputs, x ∈ t := by
    intro u g hu hg hug
    obtain ⟨g', hg', -, hi, he⟩ := ht u hu
    cases (Circuit.gate?_eq_some_iff.2 ⟨hg, hug⟩).symm.trans hg'
    exact ⟨hi, fun x hx => he.mem hx⟩
  induction h with
  | own hg hwg => exact hknown _ _ hw hg hwg
  | input _ hv hg hvg ih => exact hknown _ _ (ih.1 _ hv) hg hvg

theorem Consistent.mem_of_cone (ht : e.Consistent t) (hw : w ∈ t)
    (hv : v ∈ e.circuit.Cone w) : v ∈ t := by
  obtain ⟨g, hg, hvg⟩ := hv
  exact (ht.mem_of_feeds hw hg).2 v hvg

theorem mem_iff_of_valueOf (hm : e.Consistent m.table) {x : Residue p}
    (h : e.valueOf w m = .ok x m') : v ∈ m'.table ↔ v ∈ m.table ∨ v ∈ e.circuit.Cone w := by
  have hr := (traced_valueOf w).reaches h
  refine ⟨fun hv => ?_, fun hv => ?_⟩
  · rw [← stateAfter_of_ok h] at hv
    exact mem_or_cone_of_valueOf hv
  · rcases hv with hv | hv
    · exact hr.within.mem hv
    · have hw : w ∈ m'.table := mem_iff_exists_getElem?.2 ⟨x, getElem?_of_valueOf h⟩
      exact (hm.reaches hr).mem_of_cone hw hv

/-- Wires asked for one after the other are known with their cones. -/
theorem mem_iff_of_forM_valueOf {ws : List Wire} (hm : e.Consistent m.table)
    (h : ws.forM (fun w => discard (e.valueOf w)) m = .ok () m') :
    v ∈ m'.table ↔ v ∈ m.table ∨ ∃ w ∈ ws, v ∈ e.circuit.Cone w := by
  induction ws generalizing m with
  | nil =>
    cases h
    simp
  | cons w ws ih =>
    obtain ⟨⟨⟩, m₁, h1, h2⟩ := exists_ok_of_bind (x := discard (e.valueOf w))
      (f := fun _ => ws.forM fun w => discard (e.valueOf w)) h
    obtain ⟨x, m₁, hx, h1⟩ := exists_ok_of_bind h1
    cases h1
    rw [ih (hm.reaches ((traced_valueOf w).reaches hx)) h2, mem_iff_of_valueOf hm hx, or_assoc]
    simp only [List.mem_cons, exists_eq_or_imp]

theorem mem_iff_of_evaluateOutputs (hm : e.Consistent m.table)
    (h : e.evaluateOutputs m = .ok () m') :
    v ∈ m'.table ↔ v ∈ m.table ∨ ∃ w ∈ e.circuit.outputs, v ∈ e.circuit.Cone w := by
  obtain ⟨⟨⟩, m₁, hloop, hlog⟩ := exists_ok_of_bind h
  cases hlog
  simpa only [Std.ExtTreeSet.mem_toList] using mem_iff_of_forM_valueOf hm hloop

/-! ## What a request depends on -/

/-- The evaluators agree on the cone of a wire: the second has the gates of the wire too, and the
same values for the inputs among them. -/
structure AgreeOn (e e' : Evaluator p) (w : Wire) : Prop where
  lt_total : w < e'.circuit.total → w < e.circuit.total
  gates : ∀ g, e.circuit.Feeds w g → g ∈ e'.circuit.gates
  inputs : ∀ v ∈ e.circuit.Cone w, .input v ∈ e.circuit.gates → e.inputs[v]? = e'.inputs[v]?

namespace AgreeOn

variable (h : e.AgreeOn e' w)

include h

omit [Nonzero p] in
theorem of_input (hg : e.Enters w g) (hv : v ∈ g.inputs) : e.AgreeOn e' v := by
  have hfeeds : ∀ g', e.circuit.Feeds v g' → e.circuit.Feeds w g' := fun g' hg' =>
    (feeds_of_gate? hg.gate).trans hv hg'
  refine ⟨fun _ => ?_, fun g' hg' => h.gates g' (hfeeds g' hg'), ?_⟩
  · exact UInt64.lt_trans (hg.lt hv) (Circuit.lt_of_gate? hg.gate)
  · rintro u ⟨g', hg', hu⟩
    exact h.inputs u ⟨g', hfeeds g' hg', hu⟩

omit [Nonzero p] in
theorem gate?_eq (hg : e.circuit.gate? w = some g) : e'.circuit.gate? w = some g :=
  Circuit.gate?_eq_some_iff.2 ⟨h.gates g (feeds_of_gate? hg), (Circuit.gate?_eq_some_iff.1 hg).2⟩

omit [Nonzero p] in
theorem refuses {fault : Fault} (hr : e.Refuses w fault) : e'.Refuses w fault := by
  cases hr with
  | backward hg hm => exact .backward (h.gate?_eq hg) hm
  | missing hn =>
    refine .missing (Circuit.gate?_eq_none_iff.2 (UInt64.not_lt.1 fun hw => ?_))
    exact UInt64.not_lt.2 (Circuit.gate?_eq_none_iff.1 hn) (h.lt_total hw)

theorem collapse_eq (hg : e.circuit.gate? w = some g) : e.collapse g = e'.collapse g := by
  have hvalues : ∀ t, e.gateValues t g = e'.gateValues t g := by
    refine fun t => gateValues_congr_inputs fun v hv => ?_
    subst hv
    have hf := feeds_of_gate? hg
    exact h.inputs v ⟨.input v, hf, List.mem_cons_self⟩ hf.mem
  unfold collapse
  simp only [hvalues]

end AgreeOn

theorem descendAll_congr {ws : List Wire} (h : ∀ w ∈ ws, e.descend w = e'.descend w) :
    e.descendAll ws = e'.descendAll ws := by
  induction ws with
  | nil => rfl
  | cons w ws ih =>
    rw [descendAll_cons, descendAll_cons, h w List.mem_cons_self,
      ih fun v hv => h v (List.mem_cons_of_mem w hv)]

theorem descend_congr (h : e.AgreeOn e' w) :
    e.descend w = e'.descend w := by
  -- on the wire: a gate that may be entered reads smaller wires only
  induction w using wire_induction with
  | h w ih =>
    funext m
    cases hk : m.table[w]? with
    | some x => rw [descend_of_getElem? hk, descend_of_getElem? hk]
    | none =>
      have hw : w ∉ m.table := by simpa using hk
      rcases e.enters_or_refuses w with ⟨g, hg⟩ | ⟨fault, hr⟩
      · have hg' : e'.Enters w g := ⟨h.gate?_eq hg.gate, hg.monotonic⟩
        have hinputs := descendAll_congr fun v hv => ih v (hg.lt hv) (h.of_input hg hv)
        rw [descend_of_enters hw hg, descend_of_enters hw hg', hinputs, h.collapse_eq hg.gate]
      · rw [descend_of_refuses hw hr, descend_of_refuses hw (h.refuses hr)]

/-- Evaluators that agree on the cone of a wire answer a request for it alike, from whatever is
known: the same value or fault, the same wires known in the end and the same events. -/
theorem valueOf_congr (h : e.AgreeOn e' w) :
    e.valueOf w = e'.valueOf w := by
  rw [← descend_eq_valueOf, ← descend_eq_valueOf, descend_congr h]

/-- Evaluators of circuits with the same wires and outputs that answer requests for a wire alike
evaluate alike, by each of the passes. -/
theorem passes_congr (hv : ∀ w, e.valueOf w = e'.valueOf w)
    (ht : e.circuit.total = e'.circuit.total) (ho : e.circuit.outputs = e'.circuit.outputs) :
    e.evaluateOutputs = e'.evaluateOutputs ∧ e.fillGaps = e'.fillGaps ∧
      e.evaluate = e'.evaluate := by
  have houtputs : e.evaluateOutputs = e'.evaluateOutputs := by
    simp only [evaluateOutputs, hv, ho]
  have hgaps : e.fillGaps = e'.fillGaps := by
    simp only [fillGaps, hv, Circuit.wires, ht]
  refine ⟨houtputs, hgaps, ?_⟩
  rw [evaluate, evaluate, houtputs, hgaps]

/-- A successful request for a wire knows the cone of the wire and nothing else, and a successful
evaluation of the outputs the cones of these. The answer is the same with another assignment that
has the same values for the inputs of the cone, and even in another circuit that has its gates,
whatever fails outside. -/
theorem valueOf_knows_cone :
    (∀ w x m, e.valueOf w .empty = .ok x m → ∀ v, v ∈ m.table ↔ v ∈ e.circuit.Cone w) ∧
      (∀ m, e.evaluateOutputs .empty = .ok () m →
        ∀ v, v ∈ m.table ↔ ∃ w ∈ e.circuit.outputs, v ∈ e.circuit.Cone w) ∧
      ∀ (e' : Evaluator p) (w : Wire), e.AgreeOn e' w →
        e.valueOf w .empty = e'.valueOf w .empty := by
  have hstart : e.Consistent (Memory.empty : Memory p).table := consistent_empty
  have hnone : ∀ v, v ∉ (Memory.empty : Memory p).table := by simp [Memory.empty]
  refine ⟨fun w x m h v => ?_, fun m h v => ?_, fun e' w h => ?_⟩
  · rw [mem_iff_of_valueOf hstart h, or_iff_right (hnone v)]
  · rw [mem_iff_of_evaluateOutputs hstart h, or_iff_right (hnone v)]
  · rw [valueOf_congr h]

open Circuit in
/-- Six over three: with the indicator of the zero test its witness is found, and the quotient by
minus two is not. Six over zero: the divisor is found whatever it is to divide. -/
theorem valueOf_knows_cone_quotientTest :
    quotientByThree.valueOf 3 .empty =
        .ok 0 (Memory.empty.storeAll [(0, 6), (1, 3), (2, 2), (3, 0), (4, 4)]) ∧
      4 ∈ quotientTest.Cone 3 ∧ 5 ∉ quotientTest.Cone 3 ∧
      quotientByThree.evaluateOutputs .empty =
        .ok () ⟨quotientTable 6 3 2 0 4 6, quotientEvents⟩ ∧
      (∀ v, v ∈ quotientTable 6 3 2 0 4 6 ↔
        ∃ w ∈ quotientTest.outputs, v ∈ quotientTest.Cone w) ∧
      quotientByZero.AgreeOn ⟨quotientTest, quotientInputs 5 0⟩ 1 ∧
      quotientByZero.valueOf 1 .empty = .ok 0 (Memory.empty.store 1 0) ∧
      (⟨quotientTest, quotientInputs 5 0⟩ : Evaluator 7).valueOf 1 .empty =
        .ok 0 (Memory.empty.store 1 0) := by
  obtain ⟨hvalue, houtputs, -⟩ := valueOf_knows_cone (e := quotientByThree)
  obtain ⟨-, -, hagree⟩ := valueOf_knows_cone (e := quotientByZero)
  have hcone := hvalue 3 _ _ valueOf_quotientByThree
  have hone : ∀ g, quotientTest.Feeds 1 g → g = .input 1 := by
    intro g hg
    induction hg with
    | own hg h1 =>
      have hproduced : ∀ g ∈ quotientTest.gates, 1 ∈ g.outputs → g = .input 1 := by decide +kernel
      exact hproduced _ hg h1
    | input _ hv _ _ ih =>
      subst ih
      cases hv
  have hsame : quotientByZero.AgreeOn ⟨quotientTest, quotientInputs 5 0⟩ 1 := by
    refine ⟨fun h => h, fun g hg => hg.mem, ?_⟩
    rintro v ⟨g, hg, hv⟩ -
    obtain rfl := hone g hg
    obtain rfl : v = 1 := by simpa [Gate.outputs] using hv
    decide +kernel
  have hdivisor : quotientByZero.valueOf 1 .empty = .ok 0 (Memory.empty.store 1 0) :=
    valueOf_of_resolveWithin_ok (n := 2) (by decide +kernel) (by decide +kernel) (by decide +kernel)
  refine ⟨valueOf_quotientByThree, (hcone 4).1 (by decide +kernel), ?_,
    evaluateOutputs_quotientByThree, houtputs _ evaluateOutputs_quotientByThree, hsame, hdivisor,
    (hagree _ 1 hsame).symm.trans hdivisor⟩
  exact fun h => absurd ((hcone 5).2 h) (by decide +kernel)

end Evaluator

end FieldCircuit
