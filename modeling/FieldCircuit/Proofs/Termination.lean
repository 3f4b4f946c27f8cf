import FieldCircuit.Proofs.Assembly
import FieldCircuit.Proofs.Faults
import Mathlib.Data.Finset.Card

/-!
# The loop on the stack ends

`Turns` counts turns of the loop and `Ends` says after how many it ends, and with what. Circuits may
contain gates that read themselves or one another, or wires that are not there; none of these is
entered. A gate that is entered reads smaller wires only, so the loop comes back to it with its
inputs known, and computes it. Thus every wire that is not known is entered once at most and pays
for three turns, which bounds their number (`exists_ends_le`).
-/

namespace FieldCircuit

namespace Evaluator

variable {p : Nat} [Nonzero p]

/-- `n` turns lead from one stack and memory to another. -/
inductive Turns (e : Evaluator p) : Nat → List Wire → Memory p → List Wire → Memory p → Prop where
  | refl (stack : List Wire) (m : Memory p) : Turns e 0 stack m stack m
  | step {n : Nat} {stack stack₁ stack' : List Wire} {m m₁ m' : Memory p} :
      e.turn m stack = .next stack₁ m₁ → Turns e n stack₁ m₁ stack' m' →
        Turns e (n + 1) stack m stack' m'

/-- The loop ends after `n` turns, on an empty stack or with a turn that fails. -/
inductive Ends (e : Evaluator p) :
    Nat → List Wire → Memory p → EStateM.Result Fault (Memory p) Unit → Prop where
  | done {n : Nat} {stack : List Wire} {m m' : Memory p} : Turns e n stack m [] m' →
      Ends e n stack m (.ok () m')
  | failed {n : Nat} {stack stack' : List Wire} {m m' : Memory p} {fault : Fault} :
      Turns e n stack m stack' m' → e.turn m' stack' = .failed fault →
        Ends e (n + 1) stack m (.error fault m')

variable {e : Evaluator p} {k n : Nat} {stack stack' rest : List Wire} {m m' m₁ : Memory p}
  {fault : Fault}

/-! ## Turns from steps -/

theorem turn_of_step (h : Step e stack m stack' m') : e.turn m stack = .next stack' m' := by
  cases h with
  | known hw => simp only [turn, hw, if_true]
  | @enter w rest m g hw hg hm hp =>
    simp only [turn, hw, if_false, hg, hm]
  | @compute w rest m g xs hr =>
    have hp : g.inputs.filter (· ∉ m.table) = [] := by simpa using hr.inputs
    simp only [turn, hr.unknown, if_false, hr.gate, hr.monotonic, hp, hr.values]

theorem turn_of_stuck (h : Stuck e m stack fault) : e.turn m stack = .failed fault := by
  cases h with
  | missing hw hg => simp only [turn, hw, if_false, hg]
  | backward hw hg hm => simp only [turn, hw, if_false, hg, hm]
  | @undefined w rest g fault hw hg hm hi hx =>
    have hp : g.inputs.filter (· ∉ m.table) = [] := by simpa using hi
    simp only [turn, hw, if_false, hg, hm, hp, hx]

theorem Step.append (h : Step e stack m stack' m') (rest : List Wire) :
    Step e (stack ++ rest) m (stack' ++ rest) m' := by
  cases h with
  | known hw => exact .known hw
  | enter hw hg hm hp =>
    rw [List.append_assoc]
    exact .enter hw hg hm hp
  | compute hr => exact .compute hr

theorem Stuck.append (h : Stuck e m stack fault) (rest : List Wire) :
    Stuck e m (stack ++ rest) fault := by
  cases h with
  | missing hw hg => exact .missing hw hg
  | backward hw hg hm => exact .backward hw hg hm
  | undefined hw hg hm hi hx => exact .undefined hw hg hm hi hx

/-! ## One run after the other -/

theorem Turns.single (h : Step e stack m stack' m') : e.Turns 1 stack m stack' m' :=
  .step (turn_of_step h) (.refl _ _)

theorem Turns.trans (h : e.Turns n stack m rest m₁) (h' : e.Turns k rest m₁ stack' m') :
    e.Turns (n + k) stack m stack' m' := by
  induction h with
  | refl => simpa using h'
  | step ht _ ih =>
    rw [Nat.add_right_comm]
    exact .step ht (ih h')

/-- What stands below on the stack waits. -/
theorem Turns.append (h : e.Turns n stack m stack' m') (rest : List Wire) :
    e.Turns n (stack ++ rest) m (stack' ++ rest) m' := by
  induction h with
  | refl => exact .refl _ _
  | step ht _ ih => exact .step (turn_of_step ((step_of_turn ht).append rest)) ih

theorem Ends.of_stuck (h : Stuck e m stack fault) : e.Ends 1 stack m (.error fault m) :=
  .failed (.refl _ _) (turn_of_stuck h)

theorem Ends.append (h : e.Ends n stack m (.error fault m')) (rest : List Wire) :
    e.Ends n (stack ++ rest) m (.error fault m') := by
  cases h with
  | failed ht hf => exact .failed (ht.append rest) (turn_of_stuck ((stuck_of_turn hf).append rest))

theorem Ends.of_turns {r : EStateM.Result Fault (Memory p) Unit} (h : e.Turns n stack m rest m₁)
    (h' : e.Ends k rest m₁ r) : e.Ends (n + k) stack m r := by
  cases h' with
  | done ht => exact .done (h.trans ht)
  | failed ht hf => exact .failed (h.trans ht) hf

theorem resolve_of_turns (h : e.Turns n stack m stack' m') :
    e.resolve stack m = e.resolve stack' m' := by
  induction h with
  | refl => rfl
  | step ht _ ih => rw [resolve_of_turn ht, ih]

theorem Ends.resolve_eq {r : EStateM.Result Fault (Memory p) Unit} (h : e.Ends n stack m r) :
    e.resolve stack m = r := by
  cases h with
  | done ht =>
    rw [resolve_of_turns ht, resolve]
    rfl
  | failed ht hf =>
    rw [resolve_of_turns ht, resolve_of_turn_failed hf]

/-! ## What the turns cost -/

section

omit [Nonzero p]

/-- The wires of the circuit below `n` that are not known. -/
def unknownBelow (e : Evaluator p) (t : Table p) (n : Nat) : Finset Wire :=
  e.circuit.wires.toFinset.filter fun w => w.toNat < n ∧ w ∉ t

variable {t t' : Table p} {w : Wire}

theorem mem_unknownBelow : w ∈ e.unknownBelow t n ↔ w < e.circuit.total ∧ w.toNat < n ∧ w ∉ t := by
  rw [unknownBelow, Finset.mem_filter, List.mem_toFinset, Circuit.mem_wires]

theorem card_unknownBelow_le : (e.unknownBelow t n).card ≤ e.circuit.total.toNat := by
  have hwires : e.circuit.wires.length = e.circuit.total.toNat := by simp [Circuit.wires]
  rw [← hwires]
  exact (Finset.card_filter_le _ _).trans e.circuit.wires.toFinset_card_le

/-- A wire that becomes known is one less to pay. -/
theorem card_unknownBelow_lt (hw : w < e.circuit.total) (hn : w.toNat < n) (ht : w ∉ t)
    (ht' : w ∈ t') (hsub : ∀ v ∈ t, v ∈ t') :
    (e.unknownBelow t' n).card < (e.unknownBelow t n).card := by
  refine Finset.card_lt_card (Finset.ssubset_iff_of_subset (fun v hv => ?_) |>.2 ⟨w, ?_, ?_⟩)
  · obtain ⟨hv, hvn, hvt⟩ := mem_unknownBelow.1 hv
    exact mem_unknownBelow.2 ⟨hv, hvn, fun h => hvt (hsub v h)⟩
  · exact mem_unknownBelow.2 ⟨hw, hn, ht⟩
  · exact fun h => (mem_unknownBelow.1 h).2.2 ht'

/-- A wire that is not known is not among those below it. -/
theorem card_unknownBelow_self_lt (hw : w < e.circuit.total) (hn : w.toNat < n) (ht : w ∉ t) :
    (e.unknownBelow t w.toNat).card < (e.unknownBelow t n).card := by
  refine Finset.card_lt_card (Finset.ssubset_iff_of_subset (fun v hv => ?_) |>.2 ⟨w, ?_, ?_⟩)
  · obtain ⟨hv, hvw, hvt⟩ := mem_unknownBelow.1 hv
    exact mem_unknownBelow.2 ⟨hv, hvw.trans hn, hvt⟩
  · exact mem_unknownBelow.2 ⟨hw, hn, ht⟩
  · exact fun h => Nat.lt_irrefl _ (mem_unknownBelow.1 h).2.1

end

/-- The loop ends on the stack. For any bound on the wires of the stack, each of these pays for one
turn, and each unknown wire below the bound for three. If all are found, the wires that are still
unknown have paid nothing. -/
inductive Affords (e : Evaluator p) (stack : List Wire) (m : Memory p) : Prop where
  | found {k : Nat} {m' : Memory p} : e.Turns k stack m [] m' →
      (∀ n, (∀ w ∈ stack, w.toNat < n) →
        k + 3 * (e.unknownBelow m'.table n).card ≤
          stack.length + 3 * (e.unknownBelow m.table n).card) →
      Affords e stack m
  | failed {k : Nat} {m' : Memory p} {fault : Fault} : e.Ends k stack m (.error fault m') →
      (∀ n, (∀ w ∈ stack, w.toNat < n) → k ≤ stack.length + 3 * (e.unknownBelow m.table n).card) →
      Affords e stack m

theorem affords_of_forall (h : ∀ w ∈ stack, ∀ m, e.Affords [w] m) (m : Memory p) :
    e.Affords stack m := by
  induction stack generalizing m with
  | nil => exact .found (.refl [] m) fun n _ => by simp
  | cons w ws ih =>
    cases h w List.mem_cons_self m with
    | @failed k m₁ fault ht hk =>
      refine .failed (ht.append ws) fun n hn => ?_
      have := hk n (by simpa using hn w List.mem_cons_self)
      simp only [List.length_cons, List.length_nil] at this ⊢
      omega
    | @found k m₁ ht hk =>
      cases ih (fun v hv => h v (List.mem_cons_of_mem w hv)) m₁ with
      | @found k' m₂ ht' hk' =>
        refine .found ((ht.append ws).trans ht') fun n hn => ?_
        have h1 := hk n (by simpa using hn w List.mem_cons_self)
        have h2 := hk' n fun v hv => hn v (List.mem_cons_of_mem w hv)
        simp only [List.length_cons, List.length_nil] at h1 ⊢
        omega
      | @failed k' m₂ fault ht' hk' =>
        refine .failed (.of_turns (ht.append ws) ht') fun n hn => ?_
        have h1 := hk n (by simpa using hn w List.mem_cons_self)
        have h2 := hk' n fun v hv => hn v (List.mem_cons_of_mem w hv)
        simp only [List.length_cons, List.length_nil] at h1 ⊢
        omega

/-! ## One wire -/

section

variable {w : Wire} {g : Gate}

theorem Ready.card_unknownBelow_lt {xs : List (Residue p)} (hr : e.Ready m w g xs)
    (hn : w.toNat < n) :
    (e.unknownBelow (m.storeAll (g.outputs.zip xs)).table n).card <
      (e.unknownBelow m.table n).card := by
  refine Evaluator.card_unknownBelow_lt (Circuit.lt_of_gate? hr.gate) hn hr.unknown ?_ fun v hv =>
    Memory.mem_storeAll.2 (.inl hv)
  rw [Memory.mem_storeAll, map_fst_zip_outputs hr.values]
  exact .inr (Circuit.gate?_eq_some_iff.1 hr.gate).2

theorem affords_of_stuck (h : Stuck e m [w] fault) : e.Affords [w] m := by
  refine .failed (.of_stuck h) fun n _ => ?_
  simp only [List.length_cons, List.length_nil]
  omega

/-- A gate that was entered, its inputs being found, is computed in one more turn. -/
theorem affords_of_enters (hw : w ∉ m.table) (hg : e.Enters w g)
    (hp : g.inputs.filter (· ∉ m.table) ≠ []) (h : e.Affords (g.inputs.filter (· ∉ m.table)) m) :
    e.Affords [w] m := by
  have htotal : w < e.circuit.total := Circuit.lt_of_gate? hg.gate
  have henter : e.Turns 1 [w] m (g.inputs.filter (· ∉ m.table) ++ [w]) m :=
    .single (.enter hw hg.gate hg.monotonic hp)
  have hbelow : ∀ v ∈ g.inputs.filter (· ∉ m.table), v.toNat < w.toNat := fun v hv =>
    UInt64.lt_iff_toNat_lt.1 (hg.lt (List.mem_filter.1 hv).1)
  have htwo : (g.inputs.filter (· ∉ m.table)).length ≤ 2 := by
    refine (List.length_filter_le _ _).trans ?_
    cases g <;> simp [Gate.inputs]
  cases h with
  | @failed k m₁ fault ht hk =>
    refine .failed (.of_turns henter (ht.append [w])) fun n hn => ?_
    have hk := hk w.toNat hbelow
    have hlt := card_unknownBelow_self_lt htotal (hn w List.mem_cons_self) hw
    omega
  | @found k m₁ ht hk =>
    have hinputs : e.descendAll g.inputs m = .ok () m₁ := by
      rw [← descendAll_filter (fun v hv => hv), ← resolve_eq_descendAll]
      exact (Ends.done ht).resolve_eq
    have hw₁ : w ∉ m₁.table := stateAfter_of_ok hinputs ▸ not_mem_of_descendAll hg hw
    have hturns : e.Turns (1 + k) [w] m [w] m₁ := henter.trans (ht.append [w])
    have hk' := hk w.toNat hbelow
    cases hx : e.gateValues m₁.table g with
    | error fault =>
      have hstuck : Stuck e m₁ [w] fault :=
        .undefined hw₁ hg.gate hg.monotonic (mem_of_descendAll hinputs).2 hx
      refine .failed (.of_turns hturns (.of_stuck hstuck)) fun n hn => ?_
      have hlt := card_unknownBelow_self_lt htotal (hn w List.mem_cons_self) hw
      simp only [List.length_cons, List.length_nil]
      omega
    | ok xs =>
      have hready : e.Ready m₁ w g xs :=
        ⟨hw₁, hg.gate, hg.monotonic, (mem_of_descendAll hinputs).2, hx⟩
      refine .found (hturns.trans (.single (.compute hready))) fun n hn => ?_
      have hn := hn w List.mem_cons_self
      have hk := hk n fun v hv => (hbelow v hv).trans hn
      have hlt := hready.card_unknownBelow_lt hn
      simp only [List.length_cons, List.length_nil]
      omega

theorem affords (w : Wire) (m : Memory p) : e.Affords [w] m := by
  -- on the wire: a gate that may be entered reads smaller wires only
  induction w using wire_induction generalizing m with
  | h w ih =>
    by_cases hw : w ∈ m.table
    · exact .found (.single (.known hw)) fun n _ => by simp
    · rcases e.enters_or_refuses w with ⟨g, hg⟩ | ⟨fault, hr⟩
      · by_cases hp : g.inputs.filter (· ∉ m.table) = []
        · cases hx : e.gateValues m.table g with
          | error fault =>
            exact affords_of_stuck (.undefined hw hg.gate hg.monotonic (inputs_known hp) hx)
          | ok xs =>
            have hready : e.Ready m w g xs := ⟨hw, hg.gate, hg.monotonic, inputs_known hp, hx⟩
            refine .found (.single (.compute hready)) fun n hn => ?_
            have hlt := hready.card_unknownBelow_lt (hn w List.mem_cons_self)
            simp only [List.length_cons, List.length_nil]
            omega
        · refine affords_of_enters hw hg hp (affords_of_forall (fun v hv => ih v ?_) m)
          exact hg.lt (List.mem_filter.1 hv).1
      · cases hr with
        | missing hn => exact affords_of_stuck (.missing hw hn)
        | backward hg hm => exact affords_of_stuck (.backward hw hg hm)

end

/-- The number of turns is linear in the number of wires, whatever is known and whatever the gates
read. -/
theorem exists_ends_le (w : Wire) (m : Memory p) :
    ∃ n ≤ 1 + 3 * e.circuit.total.toNat, e.Ends n [w] m (e.resolve [w] m) := by
  have hbound : ∀ v ∈ [w], v.toNat < UInt64.size := fun v _ => v.toNat_lt_size
  have hcard := card_unknownBelow_le (e := e) (t := m.table) (n := UInt64.size)
  cases affords w m with
  | @found n m' ht hn =>
    have hn := hn UInt64.size hbound
    have hends := Ends.done ht
    rw [← hends.resolve_eq] at hends
    simp only [List.length_cons, List.length_nil] at hn
    exact ⟨n, by omega, hends⟩
  | @failed n m' fault hends hn =>
    have hn := hn UInt64.size hbound
    rw [← hends.resolve_eq] at hends
    simp only [List.length_cons, List.length_nil] at hn
    exact ⟨n, by omega, hends⟩

/-! ## The faults of a request -/

section

variable {c : Circuit} {a : Assignment p} {w : Wire}

theorem outcome_valueOf_of_total_le (hm : e.Consistent m.table)
    (hw : e.circuit.total ≤ w) : outcome (e.valueOf w) m = .error (.missingWire w) := by
  have hr : e.Refuses w (.missingWire w) := .missing (Circuit.gate?_eq_none_iff.2 hw)
  rw [← descend_eq_valueOf]
  exact outcome_of_error (descend_of_refuses (hr.not_mem hm) hr)

theorem blames_of_outcome_valueOf (ha : c.CoveredBy a) (hw : w < c.total)
    (hm : Consistent ⟨c, a⟩ m.table) (h : outcome (valueOf ⟨c, a⟩ w) m = .error fault) :
    c.Blames a fault := by
  rw [← descend_eq_valueOf] at h
  exact .of_descend ha hw hm (eq_of_outcome_error h)

theorem divisionByZero_of_gateValues {t : Table p} {g : Gate} (ha : c.CoveredBy a)
    (hg : g ∈ c.gates) (hi : ∀ v ∈ g.inputs, v ∈ t) (h : gateValues ⟨c, a⟩ t g = .error fault) :
    ∃ x, fault = .divisionByZero x := by
  rcases Circuit.gateValues_eq_error ha hg hi h with ⟨_, _, x, -, -, hx⟩ | ⟨_, _, x, -, -, hx⟩
  · exact ⟨x, hx⟩
  · exact ⟨x, hx⟩

/-- A request for a wire ends after a number of turns that is linear in the number of wires, also
where gates read themselves, one another or wires that are not there. A wire is missing only when it
is not one of the circuit, and an input is never without a value: the loop leaves the wire known
when it succeeds, and a gate that it computes has all that it needs. -/
theorem valueOf_ends_and_faults (he : Evaluator.create c a = .ok e) (rs : List Request) (w : Wire) :
    (∃ n ≤ 1 + 3 * c.total.toNat,
        e.Ends n [w] (e.serve rs .empty) (e.resolve [w] (e.serve rs .empty))) ∧
      (∀ v, outcome (e.valueOf w) (e.serve rs .empty) = .error (.missingWire v) ↔
        c.total ≤ w ∧ v = w) ∧
      (∀ v, outcome (e.valueOf w) (e.serve rs .empty) ≠ .error (.unassignedInput v)) ∧
      (∀ m, e.resolve [w] (e.serve rs .empty) = .ok () m → w ∈ m.table) ∧
      ∀ n v rest m g, e.Turns n [w] (e.serve rs .empty) (v :: rest) m → c.gate? v = some g →
        g.inputs.filter (· ∉ m.table) = [] → ∀ u, e.gateValues m.table g ≠ .error (.missingWire u) ∧
          e.gateValues m.table g ≠ .error (.unassignedInput u) := by
  have ha := Circuit.coveredBy_of_create he
  obtain rfl := eq_of_create he
  have hm : Consistent ⟨c, a⟩ (serve ⟨c, a⟩ rs .empty).table := consistent_serve rs
  refine ⟨exists_ends_le (e := ⟨c, a⟩) w _, fun v => ?_, fun v h => ?_, fun m h => ?_, ?_⟩
  · by_cases hw : w < c.total
    · refine iff_of_false (fun h => ?_) fun h => UInt64.not_lt.2 h.1 hw
      cases blames_of_outcome_valueOf ha hw hm h
    · have hle := UInt64.not_lt.1 hw
      rw [outcome_valueOf_of_total_le hm hle]
      simp [hle, eq_comm]
  · by_cases hw : w < c.total
    · cases blames_of_outcome_valueOf ha hw hm h
    · rw [outcome_valueOf_of_total_le hm (UInt64.not_lt.1 hw)] at h
      cases h
  · exact mem_of_resolve h w List.mem_cons_self
  · intro n v rest m g _ hg hp u
    have hgate := (Circuit.gate?_eq_some_iff.1 hg).1
    refine ⟨fun h => ?_, fun h => ?_⟩
    · obtain ⟨x, hx⟩ := divisionByZero_of_gateValues ha hgate (inputs_known hp) h
      cases hx
    · obtain ⟨x, hx⟩ := divisionByZero_of_gateValues ha hgate (inputs_known hp) h
      cases hx

end

/-- A product that reads itself, a sum and a multiple that read each other, and a zero test of a
wire that is not there. -/
def tangledGates : List Gate := [.input 0, .mul 0 1 1, .add 3 0 2, .constMul 2 2 3, .zeroTest 9 4 5]

/-- After a failed request for the product and a failed evaluation, the multiple takes nineteen
turns at most and is not missing, while the wire that is not there is. -/
theorem valueOf_tangledGates :
    ∃ c e, c.gates.toList = tangledGates ∧
      Evaluator.create c (.ofList ([(0, 3)] : List (Wire × Residue 7))) = .ok e ∧
      (∃ n ≤ 19, e.Ends n [3] (e.serve [.valueOf 1, .evaluate] .empty)
        (e.resolve [3] (e.serve [.valueOf 1, .evaluate] .empty))) ∧
      (∀ v, outcome (e.valueOf 3) (e.serve [.valueOf 1, .evaluate] .empty) ≠
        .error (.missingWire v)) ∧
      outcome (e.valueOf 9) (e.serve [.valueOf 1, .evaluate] .empty) = .error (.missingWire 9) := by
  have hproduced : ∀ w, w ∈ tangledGates.flatMap Gate.outputs ↔ w < (6 : UInt64) := by
    intro w
    have houtputs : tangledGates.flatMap Gate.outputs = [0, 1, 2, 3, 4, 5] := rfl
    rw [houtputs]
    simp only [List.mem_cons, List.not_mem_nil, or_false, UInt64.lt_iff_toNat_lt,
      ← UInt64.toNat_inj, UInt64.reduceToNat]
    omega
  have hdeclared : ∀ w ∈ ([] : List Wire), w < (6 : UInt64) := by simp
  obtain ⟨-, c, -, -, htotal, hgates, -⟩ := Builder.exists_assemble (by decide) hproduced hdeclared
  have ha : c.CoveredBy (.ofList ([(0, 3)] : List (Wire × Residue 7))) := by
    intro w hw
    rw [← Array.mem_toList_iff, hgates] at hw
    obtain rfl : w = 0 := by simpa [tangledGates] using hw
    rw [Std.ExtTreeMap.mem_ofList]
    rfl
  have he := Circuit.create_of_coveredBy ha
  obtain ⟨hends, hmissing, -⟩ := valueOf_ends_and_faults he [.valueOf 1, .evaluate] 3
  obtain ⟨-, hnine, -⟩ := valueOf_ends_and_faults he [.valueOf 1, .evaluate] 9
  rw [htotal] at hends hmissing hnine
  refine ⟨c, _, hgates, he, hends, fun v h => ?_, (hnine 9).2 ⟨by decide, rfl⟩⟩
  exact absurd ((hmissing v).1 h).1 (by decide)

end Evaluator

end FieldCircuit
