import FieldCircuit.Proofs.Run

/-!
# Solutions of a circuit

A table explains a gate when the gate's values, computed from the table, are the ones the table has
for its outputs. A solution gives a value to every wire and explains every gate. Evaluation finds
the solution of a circuit whenever there is one: `Circuit.evaluate_eq_ok_iff`.
-/

namespace FieldCircuit

variable {p : Nat} [Nonzero p]

namespace Evaluator

variable {e : Evaluator p} {t t' : Table p} {g : Gate}

theorem gateValues_congr (h : ∀ v ∈ g.inputs, t[v]? = t'[v]?) :
    e.gateValues t g = e.gateValues t' g := by
  cases g with
  | input w => rfl
  | add a b w | mul a b w | div a b w =>
    have ha := h a (by simp [Gate.inputs])
    have hb := h b (by simp [Gate.inputs])
    simp only [gateValues, Gate.evaluate, ha, hb]
  | constMul k a w | constDiv k a w | zeroTest a i w =>
    have ha := h a (by simp [Gate.inputs])
    simp only [gateValues, Gate.evaluate, ha]

/-- Of the assignment only the value of an input gate's own wire is used. -/
theorem gateValues_congr_inputs {e' : Evaluator p}
    (h : ∀ w, g = .input w → e.inputs[w]? = e'.inputs[w]?) :
    e.gateValues t g = e'.gateValues t g := by
  cases g with
  | input w => simp only [gateValues, h w rfl]
  | _ => rfl

/-- The values of the gate, computed from the table, are those the table has for its outputs. -/
def Explains (e : Evaluator p) (t : Table p) (g : Gate) : Prop :=
  ∃ xs, e.gateValues t g = .ok xs ∧ ∀ q ∈ g.outputs.zip xs, t[q.1]? = some q.2

theorem Explains.mem (h : e.Explains t g) {w : Wire} (hw : w ∈ g.outputs) : w ∈ t := by
  obtain ⟨xs, hx, ho⟩ := h
  rw [← map_fst_zip_outputs hx] at hw
  obtain ⟨q, hq, rfl⟩ := List.mem_map.1 hw
  exact mem_iff_exists_getElem?.2 ⟨q.2, ho q hq⟩

theorem Explains.mono (h : e.Explains t g) (hi : ∀ v ∈ g.inputs, v ∈ t) (ht : t.Within t') :
    e.Explains t' g := by
  obtain ⟨xs, hx, ho⟩ := h
  refine ⟨xs, ?_, fun q hq => ht q.1 q.2 (ho q hq)⟩
  rw [← hx]
  exact (gateValues_congr fun v hv => ht.getElem?_eq (hi v hv)).symm

/-! ## Consistent tables -/

/-- Each known wire has a gate that may be computed, with known inputs, and that the table
explains. -/
def Consistent (e : Evaluator p) (t : Table p) : Prop :=
  ∀ w ∈ t, ∃ g, e.circuit.gate? w = some g ∧ g.checkMonotonic = .ok () ∧
    (∀ v ∈ g.inputs, v ∈ t) ∧ e.Explains t g

theorem consistent_empty : e.Consistent ∅ := fun w hw => by simp at hw

/-- No output of a gate that is ready is known yet. -/
theorem Ready.output_unknown {m : Memory p} (hm : e.Consistent m.table)
    {w : Wire} {xs : List (Residue p)} (hr : e.Ready m w g xs) {v : Wire} (hv : v ∈ g.outputs) :
    v ∉ m.table := by
  intro hk
  obtain ⟨g', hg', -, -, he⟩ := hm v hk
  obtain ⟨hmem, hw⟩ := Circuit.gate?_eq_some_iff.1 hr.gate
  obtain ⟨hmem', hv'⟩ := Circuit.gate?_eq_some_iff.1 hg'
  obtain rfl := Circuit.eq_of_mem_outputs hmem hmem' hv hv'
  exact hr.unknown (he.mem hw)

/-- Among keys that are all different, an entry is found under its key. -/
theorem lookup_of_nodup {α β : Type} [BEq α] [LawfulBEq α] {l : List (α × β)}
    (hd : (l.map Prod.fst).Nodup) {q : α × β} (hq : q ∈ l) : l.lookup q.1 = some q.2 := by
  rw [List.lookup_eq_some_iff]
  obtain ⟨l₁, l₂, hl⟩ := List.append_of_mem hq
  refine ⟨l₁, l₂, hl, fun r hr => ?_⟩
  rw [hl, List.map_append, List.nodup_append] at hd
  simpa using (hd.2.2 r.1 (List.mem_map_of_mem hr) q.1 (by simp)).symm

theorem lookup_outputs (hg : g ∈ e.circuit.gates) {xs : List (Residue p)}
    (hx : e.gateValues t g = .ok xs) {q : Wire × Residue p} (hq : q ∈ g.outputs.zip xs) :
    (g.outputs.zip xs).lookup q.1 = some q.2 := by
  refine lookup_of_nodup ?_ hq
  rw [map_fst_zip_outputs hx]
  exact Circuit.outputs_nodup hg

theorem Ready.getElem?_storeAll {m : Memory p}
    (hm : e.Consistent m.table) {w : Wire} {xs : List (Residue p)} (hr : e.Ready m w g xs)
    {q : Wire × Residue p} (hq : q ∈ g.outputs.zip xs) :
    (m.storeAll (g.outputs.zip xs)).table[q.1]? = some q.2 := by
  have hn : m.table[q.1]? = none :=
    Std.ExtTreeMap.getElem?_eq_none (hr.output_unknown hm (List.of_mem_zip hq).1)
  rw [Memory.getElem?_storeAll, hn, Option.none_or]
  exact lookup_outputs (Circuit.gate?_eq_some_iff.1 hr.gate).1 hr.values hq

theorem Consistent.advance {m m' : Memory p} (hm : e.Consistent m.table)
    (h : e.Advance m m') : e.Consistent m'.table := by
  cases h with
  | report event => exact hm
  | @compute w g xs hr =>
    have hin := Memory.within_storeAll m (g.outputs.zip xs)
    intro v hv
    rw [Memory.mem_storeAll] at hv
    rcases hv with hv | hv
    · obtain ⟨g', hg', hmono, hi, he⟩ := hm v hv
      exact ⟨g', hg', hmono, fun u hu => hin.mem (hi u hu), he.mono hi hin⟩
    · rw [map_fst_zip_outputs hr.values] at hv
      refine ⟨g, ?_, hr.monotonic, fun u hu => hin.mem (hr.inputs u hu), xs, ?_, ?_⟩
      · exact Circuit.gate?_eq_some_iff.2 ⟨(Circuit.gate?_eq_some_iff.1 hr.gate).1, hv⟩
      · rw [← hr.values]
        exact (gateValues_congr fun u hu => hin.getElem?_eq (hr.inputs u hu)).symm
      · intro q hq
        exact hr.getElem?_storeAll hm hq

theorem Consistent.reaches {m m' : Memory p}
    (hm : e.Consistent m.table) (h : e.Reaches m m') : e.Consistent m'.table := by
  induction h with
  | refl => exact hm
  | tail _ ha ih => exact ih.advance ha

/-! ## Successful requests -/

/-- A loop that makes each wire of a list known makes all of them known. -/
theorem mem_of_forM {ws : List Wire} {f : Wire → Eval p Unit} (hf : ∀ w ∈ ws, e.Traced (f w))
    (hk : ∀ w m m', f w m = .ok () m' → w ∈ m'.table) {m m' : Memory p}
    (h : ws.forM f m = .ok () m') : ∀ w ∈ ws, w ∈ m'.table := by
  induction ws generalizing m with
  | nil => simp
  | cons v ws ih =>
    obtain ⟨⟨⟩, m₁, h1, h2⟩ := exists_ok_of_bind (x := f v) (f := fun _ => ws.forM f) h
    have hws : ∀ w ∈ ws, e.Traced (f w) := fun w hw => hf w (List.mem_cons_of_mem v hw)
    intro w hw
    rcases List.mem_cons.1 hw with rfl | hw
    · exact ((Traced.forM ws hws).reaches h2).within.mem (hk w m m₁ h1)
    · exact ih hws h2 w hw

theorem mem_of_evaluate {m m' : Memory p} (h : e.evaluate m = .ok () m') {w : Wire}
    (hw : w < e.circuit.total) : w ∈ m'.table := by
  obtain ⟨⟨⟩, m₁, -, hgaps⟩ := exists_ok_of_bind h
  obtain ⟨known, m₂, -, hgaps⟩ := exists_ok_of_bind hgaps
  obtain ⟨⟨⟩, m₃, hloop, hlog⟩ := exists_ok_of_bind hgaps
  cases hlog
  exact mem_of_forM (fun v _ => traced_fillGap v) (fun _ _ _ hv => mem_of_fillGap hv) hloop w
    (Circuit.mem_wires.2 hw)

/-- From a memory with `P` the computation succeeds, and leaves a memory with `P`. -/
def Succeeds {α : Type} (P : Memory p → Prop) (x : Eval p α) : Prop :=
  ∀ m, P m → ∃ a m', x m = .ok a m' ∧ P m'

section Succeeds

omit [Nonzero p]

variable {P : Memory p → Prop}

theorem Succeeds.bind {α β : Type} {x : Eval p α} {f : α → Eval p β} (hx : Succeeds P x)
    (hf : ∀ a, Succeeds P (f a)) : Succeeds P (x >>= f) := by
  intro m hm
  obtain ⟨a, m₁, h1, hm₁⟩ := hx m hm
  obtain ⟨b, m₂, h2, hm₂⟩ := hf a m₁ hm₁
  refine ⟨b, m₂, ?_, hm₂⟩
  simp only [Bind.bind, EStateM.bind, h1, h2]

theorem Succeeds.pure {α : Type} (a : α) : Succeeds P (Pure.pure a : Eval p α) :=
  fun m hm => ⟨a, m, rfl, hm⟩

theorem Succeeds.get : Succeeds P (MonadState.get : Eval p (Memory p)) :=
  fun m hm => ⟨m, m, rfl, hm⟩

theorem Succeeds.forM {α : Type} {f : α → Eval p Unit} (xs : List α)
    (hf : ∀ x ∈ xs, Succeeds P (f x)) : Succeeds P (xs.forM f) := by
  induction xs with
  | nil => exact Succeeds.pure ()
  | cons x xs ih =>
    exact (hf x List.mem_cons_self).bind fun _ => ih fun y hy => hf y (List.mem_cons_of_mem x hy)

end Succeeds

end Evaluator

omit [Nonzero p] in
theorem Evaluator.eq_of_create {c : Circuit} {a : Assignment p} {e : Evaluator p}
    (h : Evaluator.create c a = .ok e) : e = ⟨c, a⟩ := by
  unfold Evaluator.create at h
  split at h
  · cases h
  · cases h
    rfl

/-- Every input of the circuit has a value. -/
def Circuit.CoveredBy (c : Circuit) (a : Assignment p) : Prop := ∀ w, Gate.input w ∈ c.gates → w ∈ a

omit [Nonzero p] in
theorem Circuit.create_of_coveredBy {c : Circuit} {a : Assignment p} (h : c.CoveredBy a) :
    Evaluator.create c a = .ok ⟨c, a⟩ := by
  unfold Evaluator.create
  have hn : c.inputWires.find? (!a.contains ·) = none := by
    rw [List.find?_eq_none]
    intro w hw
    simpa using h w (mem_inputWires.1 hw)
  rw [hn]

omit [Nonzero p] in
/-- An input without a value is found before anything is computed. -/
theorem Circuit.exists_create_error {c : Circuit} {a : Assignment p} (h : ¬c.CoveredBy a) :
    ∃ w, Gate.input w ∈ c.gates ∧ w ∉ a ∧ Evaluator.create c a = .error (.unassignedInput w) := by
  cases hf : c.inputWires.find? (!a.contains ·) with
  | some w =>
    refine ⟨w, mem_inputWires.1 (List.mem_of_find?_eq_some hf), fun hw => ?_,
      by rw [Evaluator.create, hf]⟩
    have hn : a.contains w = false := by simpa using List.find?_some hf
    rw [Std.ExtTreeMap.mem_iff_contains, hn] at hw
    cases hw
  | none =>
    refine absurd (fun w hw => ?_) h
    simpa using List.find?_eq_none.1 hf w (mem_inputWires.2 hw)

omit [Nonzero p] in
theorem Circuit.coveredBy_of_create {c : Circuit} {a : Assignment p} {e : Evaluator p}
    (h : Evaluator.create c a = .ok e) : c.CoveredBy a := by
  by_contra hn
  obtain ⟨w, -, -, hw⟩ := exists_create_error hn
  cases hw.symm.trans h

/-! ## Solutions -/

/-- A value for every wire that explains every gate, no gate reading a wire from its outputs on. -/
structure Circuit.Solution (c : Circuit) (a : Assignment p) (t : Table p) : Prop where
  mem_iff : ∀ w, w ∈ t ↔ w < c.total
  monotonic : ∀ g ∈ c.gates, g.checkMonotonic = .ok ()
  explains : ∀ g ∈ c.gates, Evaluator.Explains ⟨c, a⟩ t g

theorem Gate.exists_output (g : Gate) : ∃ w, w ∈ g.outputs := by
  cases g <;> exact ⟨_, List.mem_cons_self⟩

namespace Circuit

variable {c : Circuit} {a : Assignment p} {t : Table p}

/-- A consistent table with a value for every wire is a solution. -/
theorem solution_of_consistent (ht : Evaluator.Consistent ⟨c, a⟩ t)
    (hm : ∀ w, w < c.total → w ∈ t) : c.Solution a t := by
  have hgate : ∀ g ∈ c.gates, g.checkMonotonic = .ok () ∧ Evaluator.Explains ⟨c, a⟩ t g := by
    intro g hg
    obtain ⟨w, hw⟩ := g.exists_output
    obtain ⟨g', hg', hmono, -, he⟩ := ht w (hm w (Circuit.output_lt hg hw))
    obtain ⟨hmem', hw'⟩ := Circuit.gate?_eq_some_iff.1 hg'
    obtain rfl := Circuit.eq_of_mem_outputs hg hmem' hw hw'
    exact ⟨hmono, he⟩
  refine ⟨fun w => ⟨fun hw => ?_, hm w⟩, fun g hg => (hgate g hg).1, fun g hg => (hgate g hg).2⟩
  obtain ⟨g, hg, -⟩ := ht w hw
  exact Circuit.lt_of_gate? hg

namespace Solution

open Evaluator

variable (ht : c.Solution a t)

include ht

theorem input_lt {g : Gate} (hg : g ∈ c.gates) {v w : Wire} (hv : v ∈ g.inputs)
    (hw : w ∈ g.outputs) : v < w :=
  UInt64.lt_of_lt_of_le (Gate.lt_firstOutput (ht.monotonic g hg) hv) (Gate.firstOutput_le hw)


/-- From part of a solution, a gate that is ready gives the values of the solution. -/
theorem within_advance {m m' : Memory p} (hm : m.table.Within t)
    (h : Advance (⟨c, a⟩ : Evaluator p) m m') : m'.table.Within t := by
  cases h with
  | report event => exact hm
  | @compute w g xs hr =>
    intro v x hv
    rw [Memory.getElem?_storeAll] at hv
    cases hk : m.table[v]? with
    | some y =>
      rw [hk, Option.some_or] at hv
      exact hm v x (hk.trans hv)
    | none =>
      rw [hk, Option.none_or, List.lookup_eq_some_iff] at hv
      obtain ⟨l₁, l₂, hl, -⟩ := hv
      obtain ⟨ys, hy, ho⟩ := ht.explains g (Circuit.gate?_eq_some_iff.1 hr.gate).1
      have hxs := hr.values
      rw [gateValues_congr fun u hu => hm.getElem?_eq (hr.inputs u hu), hy] at hxs
      cases hxs
      exact ho (v, x) (hl ▸ by simp)

theorem within_reaches {m m' : Memory p} (hm : m.table.Within t)
    (h : Reaches (⟨c, a⟩ : Evaluator p) m m') : m'.table.Within t := by
  induction h with
  | refl => exact hm
  | tail _ ha ih => exact ht.within_advance ih ha

theorem not_stuck {m : Memory p} (hm : m.table.Within t) {stack : List Wire}
    (hs : ∀ w ∈ stack, w < c.total) {fault : Fault} :
    ¬Stuck (⟨c, a⟩ : Evaluator p) m stack fault := by
  intro h
  cases h with
  | missing _ hn =>
    exact UInt64.not_lt.2 (Circuit.gate?_eq_none_iff.1 hn) (hs _ List.mem_cons_self)
  | backward _ hg hmono =>
    rw [ht.monotonic _ (Circuit.gate?_eq_some_iff.1 hg).1] at hmono
    cases hmono
  | undefined _ hg _ hi hx =>
    obtain ⟨ys, hy, -⟩ := ht.explains _ (Circuit.gate?_eq_some_iff.1 hg).1
    rw [gateValues_congr fun u hu => hm.getElem?_eq (hi u hu), hy] at hx
    cases hx

theorem step_stack {m m' : Memory p} {stack stack' : List Wire} (hs : ∀ w ∈ stack, w < c.total)
    (h : Step (⟨c, a⟩ : Evaluator p) stack m stack' m') : ∀ w ∈ stack', w < c.total := by
  intro v hv
  cases h with
  | known => exact hs v (List.mem_cons_of_mem _ hv)
  | compute => exact hs v (List.mem_cons_of_mem _ hv)
  | enter _ hg =>
    rcases List.mem_append.1 hv with hv | hv
    · obtain ⟨hmem, hw⟩ := Circuit.gate?_eq_some_iff.1 hg
      exact UInt64.lt_trans (ht.input_lt hmem (List.mem_filter.1 hv).1 hw) (hs _ List.mem_cons_self)
    · exact hs v hv

theorem resolve_ok {m : Memory p} {stack : List Wire} (hm : m.table.Within t)
    (hs : ∀ w ∈ stack, w < c.total) :
    ∃ m', (⟨c, a⟩ : Evaluator p).resolve stack m = .ok () m' := by
  fun_induction resolve (⟨c, a⟩ : Evaluator p) stack m with
  | case1 stack m => exact ⟨m, rfl⟩
  | case2 stack m fault h => exact absurd (stuck_of_turn h) (ht.not_stuck hm hs)
  | case3 stack m stack' m' h ih =>
    have hstep := step_of_turn h
    exact ih (ht.within_reaches hm hstep.reaches) (ht.step_stack hs hstep)

theorem valueOf_succeeds {w : Wire} (hw : w < c.total) :
    Succeeds (·.table.Within t) ((⟨c, a⟩ : Evaluator p).valueOf w) := by
  intro m hm
  cases hk : m.table[w]? with
  | some x => exact ⟨x, m, by simp only [valueOf, hk], hm⟩
  | none =>
    have hs : ∀ v ∈ [w], v < c.total := by simpa using hw
    obtain ⟨m', hr⟩ := ht.resolve_ok hm hs
    obtain ⟨x, hx⟩ := mem_iff_exists_getElem?.1 (mem_of_resolve hr w List.mem_cons_self)
    refine ⟨x, m', ?_, ht.within_reaches hm ((traced_resolve [w]).reaches hr)⟩
    simp only [valueOf, hk, hr, hx]

theorem evaluate_succeeds : Succeeds (·.table.Within t) (⟨c, a⟩ : Evaluator p).evaluate := by
  have hlog : ∀ event, Succeeds (·.table.Within t) (log event : Eval p Unit) :=
    fun event m hm => ⟨(), _, rfl, hm⟩
  have hvalue : ∀ w, w < c.total →
      Succeeds (·.table.Within t) (discard ((⟨c, a⟩ : Evaluator p).valueOf w)) :=
    fun w hw => (ht.valueOf_succeeds hw).bind fun _ => Succeeds.pure ()
  have houtputs : Succeeds (·.table.Within t) (⟨c, a⟩ : Evaluator p).evaluateOutputs := by
    refine (Succeeds.forM _ fun w hw => hvalue w ?_).bind fun _ => Succeeds.get.bind fun _ => hlog _
    exact Circuit.outputs_lt _ w (Std.ExtTreeSet.mem_toList.1 hw)
  have hgaps : Succeeds (·.table.Within t) (⟨c, a⟩ : Evaluator p).fillGaps := by
    refine Succeeds.get.bind fun _ =>
      (Succeeds.forM _ fun w hw => Succeeds.get.bind fun m => ?_).bind fun _ =>
        Succeeds.get.bind fun _ => hlog _
    split
    · exact Succeeds.pure ()
    · exact hvalue w (mem_wires.1 hw)
  exact houtputs.bind fun _ => hgaps


theorem create_eq : Evaluator.create c a = .ok ⟨c, a⟩ := by
  refine create_of_coveredBy fun w hw => ?_
  obtain ⟨xs, hx, -⟩ := ht.explains _ hw
  simp only [gateValues] at hx
  split at hx
  · next x ha => exact mem_iff_exists_getElem?.2 ⟨x, ha⟩
  · cases hx

end Solution

theorem solution_of_solve {journal journal' : Journal}
    (h : c.solve a journal = .ok t journal') : c.Solution a t := by
  unfold solve at h
  cases he : Evaluator.create c a with
  | error fault =>
    rw [he] at h
    cases h
  | ok e =>
    obtain rfl := Evaluator.eq_of_create he
    rw [he] at h
    simp only at h
    cases hm : Evaluator.evaluate ⟨c, a⟩ ⟨∅, journal⟩ with
    | error fault m =>
      rw [hm] at h
      cases h
    | ok u m =>
      rw [hm] at h
      cases h
      exact solution_of_consistent
        (Evaluator.consistent_empty.reaches (Evaluator.traced_evaluate.reaches hm))
        fun w hw => Evaluator.mem_of_evaluate hm hw

theorem Solution.exists_solve (ht : c.Solution a t) (journal : Journal) :
    ∃ journal', c.solve a journal = .ok t journal' := by
  obtain ⟨⟨⟩, m, hm, hin⟩ := ht.evaluate_succeeds ⟨∅, journal⟩ (.empty t)
  have heq : m.table = t :=
    hin.antisymm fun w hw => Evaluator.mem_of_evaluate hm ((ht.mem_iff w).1 hw)
  refine ⟨m.journal, ?_⟩
  simp only [solve, ht.create_eq, hm, heq]

/-- Evaluation succeeds with the solution of the circuit, and only with that. -/
theorem evaluate_eq_ok_iff : c.evaluate a = .ok t ↔ c.Solution a t := by
  unfold evaluate
  constructor
  · intro h
    cases hs : c.solve a [] with
    | error fault journal =>
      rw [hs] at h
      cases h
    | ok t' journal =>
      rw [hs] at h
      cases h
      exact solution_of_solve hs
  · intro ht
    obtain ⟨journal, hs⟩ := ht.exists_solve []
    rw [hs]

/-- A solution is also one for its own values as the assignment, whatever it was computed from. -/
theorem Solution.self (ht : c.Solution a t) : c.Solution t t := by
  refine ⟨ht.mem_iff, ht.monotonic, fun g hg => ?_⟩
  obtain ⟨xs, hx, ho⟩ := ht.explains g hg
  refine ⟨xs, ?_, ho⟩
  rw [← hx]
  refine Evaluator.gateValues_congr_inputs fun w hw => ?_
  subst hw
  -- the assignment gave the input the value that the table has for it
  simp only [Evaluator.gateValues] at hx
  split at hx
  · next x ha =>
    cases hx
    exact (ho (w, x) List.mem_cons_self).trans ha.symm
  · cases hx

end Circuit

end FieldCircuit
