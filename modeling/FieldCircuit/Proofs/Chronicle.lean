import FieldCircuit.Proofs.History

/-!
# The journal tells of every wire once

Whatever is asked of an evaluator, its journal tells of each known wire once, with its value, and of
no other wire. The outputs of a gate follow one another in the order of the gate, and the inputs of
the gate come before them (`Chronicled`). Only the computation of a gate adds such events, and a
gate is computed when its inputs are known and none of its outputs is, so this holds along every
run.
-/

namespace FieldCircuit

variable {p : Nat}

theorem Memory.journal_storeAll (m : Memory p) (values : List (Wire × Residue p)) :
    (m.storeAll values).journal = m.journal ++ values.map fun v => .collapsed v.1 v.2.val := by
  induction values generalizing m with
  | nil => simp [storeAll]
  | cons v vs ih =>
    change ((m.store v.1 v.2).storeAll vs).journal = _
    rw [ih]
    simp [store]

/-- The value that a table has for a wire, as the journal tells it. -/
def Table.told (t : Table p) (w : Wire) : Option Nat := t[w]?.map Residue.val

/-- Values that are told of, the wires being different. -/
theorem count_collapsed {values : List (Wire × Residue p)} (h : (values.map Prod.fst).Nodup)
    (w : Wire) (n : Nat) :
    (values.map fun v => Event.collapsed v.1 v.2.val).count (.collapsed w n) =
      if (values.lookup w).map Residue.val = some n then 1 else 0 := by
  induction values with
  | nil => simp
  | cons v vs ih =>
    obtain ⟨hv, hd⟩ := List.nodup_cons.1 h
    rw [List.map_cons, List.count_cons, ih hd, List.lookup_cons]
    by_cases hw : w = v.1
    · subst hw
      have hnone : vs.lookup v.1 = none := by
        rw [List.lookup_eq_none_iff]
        intro u hu
        rw [bne_iff_ne]
        exact fun he => hv (List.mem_map.2 ⟨u, hu, he.symm⟩)
      simp [hnone]
    · have hb : (w == v.1) = false := beq_false_of_ne hw
      simp [hb, Ne.symm hw]

namespace Evaluator

variable {e : Evaluator p} {m m' : Memory p}

/-- The journal tells of each known wire once, with its value, and of no other. With a known output
of a gate it tells of all outputs of the gate in their order, and before them of the inputs. -/
structure Chronicled (e : Evaluator p) (m : Memory p) : Prop where
  count : ∀ w n, m.journal.count (.collapsed w n) = if m.table.told w = some n then 1 else 0
  together : ∀ g ∈ e.circuit.gates, ∀ w ∈ g.outputs, w ∈ m.table → ∃ before values after,
    m.journal = before ++ List.zipWith .collapsed g.outputs values ++ after ∧
      values.length = g.outputs.length ∧ ∀ v ∈ g.inputs, ∃ n, .collapsed v n ∈ before

theorem chronicled_empty : e.Chronicled .empty where
  count w n := by simp [Memory.empty, Table.told]
  together g _ w _ hw := by simp [Memory.empty] at hw

theorem Chronicled.collapsed_mem_iff (h : e.Chronicled m) {w : Wire} {n : Nat} :
    .collapsed w n ∈ m.journal ↔ m.table.told w = some n := by
  rw [← List.count_pos_iff, h.count]
  by_cases hw : m.table.told w = some n <;> simp [hw]

theorem Chronicled.exists_collapsed_iff (h : e.Chronicled m) {w : Wire} :
    (∃ n, .collapsed w n ∈ m.journal) ↔ w ∈ m.table := by
  simp only [h.collapsed_mem_iff, mem_iff_exists_getElem?, Table.told, Option.map_eq_some_iff]
  exact ⟨fun ⟨_, x, hx, _⟩ => ⟨x, hx⟩, fun ⟨x, hx⟩ => ⟨_, x, hx, rfl⟩⟩

/-! ## What one step and a run keep -/

theorem Chronicled.report (h : e.Chronicled m) {event : Event}
    (hn : ∀ w n, event ≠ .collapsed w n) :
    e.Chronicled { m with journal := m.journal ++ [event] } where
  count w n := by
    rw [← h.count w n, List.count_append, List.count_singleton]
    simp [hn w n]
  together g hg w hw hk := by
    obtain ⟨before, values, after, hj, hlength, hin⟩ := h.together g hg w hw hk
    exact ⟨before, values, after ++ [event], by simp [hj], hlength, hin⟩

variable [Nonzero p]

theorem Chronicled.compute (hm : e.Consistent m.table)
    (h : e.Chronicled m) {w : Wire} {g : Gate} {xs : List (Residue p)} (hr : e.Ready m w g xs) :
    e.Chronicled (m.storeAll (g.outputs.zip xs)) := by
  have hg := Circuit.gate?_eq_some_iff.1 hr.gate
  have hfst := map_fst_zip_outputs hr.values
  have hjournal := Memory.journal_storeAll m (g.outputs.zip xs)
  refine ⟨fun v n => ?_, fun g' hg' v hv hk => ?_⟩
  · have hnodup : ((g.outputs.zip xs).map Prod.fst).Nodup := by
      rw [hfst]
      exact Circuit.outputs_nodup hg.1
    rw [hjournal, List.count_append, h.count, count_collapsed hnodup, Table.told, Table.told,
      Memory.getElem?_storeAll]
    cases hk : m.table[v]? with
    | none => simp
    | some y =>
      have hnone : (g.outputs.zip xs).lookup v = none := by
        rw [List.lookup_eq_none_iff]
        intro u hu
        rw [bne_iff_ne]
        intro he
        have hmem : v ∈ (g.outputs.zip xs).map Prod.fst := List.mem_map.2 ⟨u, hu, he.symm⟩
        rw [hfst] at hmem
        exact hr.output_unknown hm hmem (mem_iff_exists_getElem?.2 ⟨y, hk⟩)
      simp [hnone]
  · rw [hjournal]
    rcases Memory.mem_storeAll.1 hk with hk | hvg
    · obtain ⟨before, values, after, hj, hlength, hin⟩ := h.together g' hg' v hv hk
      exact ⟨before, values, after ++ _, by rw [hj, List.append_assoc], hlength, hin⟩
    · -- the gate is the one that is computed, and what it reads is known already
      obtain rfl := Circuit.eq_of_mem_outputs hg' hg.1 hv (hfst ▸ hvg)
      refine ⟨m.journal, xs.map Residue.val, [], ?_, ?_, fun u hu => ?_⟩
      · rw [List.append_nil, List.zipWith_map_right, List.zip, List.map_zipWith]
      · rw [List.length_map, gateValues_length hr.values]
      · exact h.exists_collapsed_iff.2 (hr.inputs u hu)

theorem Chronicled.advance (hm : e.Consistent m.table) (h : e.Chronicled m)
    (ha : e.Advance m m') : e.Chronicled m' := by
  cases ha with
  | compute hr => exact h.compute hm hr
  | report event hn => exact h.report hn

theorem Chronicled.reaches (hm : e.Consistent m.table) (h : e.Chronicled m)
    (hr : e.Reaches m m') : e.Chronicled m' := by
  induction hr with
  | refl => exact h
  | tail hr ha ih => exact ih.advance (hm.reaches hr) ha

theorem chronicled_serve (rs : List Request) :
    e.Chronicled (e.serve rs .empty) :=
  chronicled_empty.reaches consistent_empty (reaches_serve rs .empty)

/-- Whatever was asked of an evaluator, and however that ended, the journal tells of each known wire
exactly once, with the value that is known, and of no other wire. The events of a gate stand
together in the order of its outputs, after those of all of its inputs. -/
theorem serve_computes_once_in_order (rs : List Request) :
    (∀ w n, (e.serve rs .empty).journal.count (.collapsed w n) =
        if (e.serve rs .empty).table.told w = some n then 1 else 0) ∧
      ∀ g ∈ e.circuit.gates, ∀ w ∈ g.outputs, ∀ n, .collapsed w n ∈ (e.serve rs .empty).journal →
        ∃ before values after, (e.serve rs .empty).journal =
            before ++ List.zipWith .collapsed g.outputs values ++ after ∧
          values.length = g.outputs.length ∧ ∀ v ∈ g.inputs, ∃ n, .collapsed v n ∈ before := by
  have h := chronicled_serve (e := e) rs
  refine ⟨h.count, fun g hg w hw n hj => ?_⟩
  exact h.together g hg w hw (h.exists_collapsed_iff.1 ⟨n, hj⟩)

open Circuit in
/-- Six over three, after a request for a wire that is not there and before one for the quotient:
the zero test and its witness are told of once, one after the other, and the quotient before
them. -/
theorem serve_computes_once_quotientTest :
    quotientByThree.serve [.valueOf 9, .evaluate, .valueOf 2] .empty =
        ⟨quotientTable 6 3 2 0 4 6, quotientEvents ++ [Event.filledGaps 0]⟩ ∧
      (quotientEvents ++ [Event.filledGaps 0]).count (.collapsed 3 0) = 1 ∧
      ∃ before values after, quotientEvents ++ [Event.filledGaps 0] =
          before ++ List.zipWith .collapsed [3, 4] values ++ after ∧
        values.length = 2 ∧ ∃ n, .collapsed 2 n ∈ before := by
  have hnine : quotientByThree.valueOf 9 .empty = .error (.missingWire 9) .empty :=
    valueOf_of_resolveWithin_error (n := 1) (by decide +kernel) (by decide +kernel)
  have hgaps : quotientByThree.fillGaps ⟨quotientTable 6 3 2 0 4 6, quotientEvents⟩ =
      .ok () ⟨quotientTable 6 3 2 0 4 6, quotientEvents ++ [Event.filledGaps 0]⟩ := by
    decide +kernel
  have hevaluate := answer_evaluate_of_ok evaluateOutputs_quotientByThree hgaps
  have hserve : quotientByThree.serve [.valueOf 9, .evaluate, .valueOf 2] .empty =
      ⟨quotientTable 6 3 2 0 4 6, quotientEvents ++ [Event.filledGaps 0]⟩ := by
    rw [serve_cons, stateAfter_of_error (answer_valueOf_of_error hnine), serve_cons,
      stateAfter_of_ok hevaluate]
    rfl
  obtain ⟨hcount, htogether⟩ := serve_computes_once_in_order (e := quotientByThree)
    [.valueOf 9, .evaluate, .valueOf 2]
  rw [hserve] at hcount htogether
  have hone := (hcount 3 0).trans (if_pos (by decide +kernel))
  obtain ⟨before, values, after, hj, hlength, hin⟩ :=
    htogether (.zeroTest 2 3 4) (by decide +kernel) 3 (by decide) 0 (by decide)
  exact ⟨hserve, hone, before, values, after, hj, hlength, hin 2 (by decide)⟩

end Evaluator

end FieldCircuit
