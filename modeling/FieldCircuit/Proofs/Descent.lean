import FieldCircuit.Proofs.Soundness

/-!
# Evaluation by recursive descent

`descend` finds the value of a wire by recursion: it asks for the inputs of the wire's gate in
operand order, then computes the gate. It ends because a gate is only entered when its inputs come
before the wire. The loop on an explicit stack does the same work in the same order: a stack is
resolved by descending to its wires one after the other (`resolve_eq_descendAll`), so `valueOf` and
`descend` are one function.
-/

namespace FieldCircuit

/-- Induction along the wires. -/
@[elab_as_elim] theorem wire_induction {P : Wire → Prop} (h : ∀ w, (∀ v, v < w → P v) → P w)
    (w : Wire) : P w := by
  induction hn : w.toNat using Nat.strongRecOn generalizing w with
  | _ n ih =>
    refine h w fun v hv => ih v.toNat ?_ v rfl
    rw [← hn]
    exact UInt64.lt_iff_toNat_lt.1 hv

namespace Evaluator

variable {p : Nat} [Nonzero p]

/-! ## The descent -/

/-- Computes a gate from the known wires and keeps the values of its outputs. -/
def collapse (e : Evaluator p) (g : Gate) : Eval p Unit := do
  let m ← get
  match e.gateValues m.table g with
  | .ok xs => set (m.storeAll (g.outputs.zip xs))
  | .error fault => throw fault

/-- The value of a wire that must be known. -/
def known (w : Wire) : Eval p (Residue p) := do
  match (← get).table[w]? with
  | some x => return x
  | none => throw (.missingWire w)

/-- The value of a wire. A known wire is returned as it is; for any other the inputs of its gate are
found first, in operand order and up to the first fault, and then the gate is computed. -/
def descend (e : Evaluator p) (w : Wire) : Eval p (Residue p) := do
  match (← get).table[w]? with
  | some x => return x
  | none =>
    match _hg : e.circuit.gate? w with
    | none => throw (.missingWire w)
    | some g =>
      match _hm : g.checkMonotonic with
      | .error fault => throw fault
      | .ok () =>
        g.inputs.attach.forM fun v => discard (e.descend v.1)
        e.collapse g
        known w
termination_by w.toNat
decreasing_by
  have hlt := Gate.lt_firstOutput _hm v.2
  have hle := Gate.firstOutput_le (Circuit.gate?_eq_some_iff.1 _hg).2
  exact UInt64.lt_iff_toNat_lt.1 (UInt64.lt_of_lt_of_le hlt hle)

/-- The values of several wires, one after the other. -/
def descendAll (e : Evaluator p) (ws : List Wire) : Eval p Unit :=
  ws.forM fun w => discard (e.descend w)

variable {e : Evaluator p} {m m' : Memory p} {v w : Wire} {g : Gate} {fault : Fault}

theorem collapse_of_ok {xs : List (Residue p)} (h : e.gateValues m.table g = .ok xs) :
    e.collapse g m = .ok () (m.storeAll (g.outputs.zip xs)) := by
  rw [collapse, get_bind, h]
  rfl

theorem collapse_of_error (h : e.gateValues m.table g = .error fault) :
    e.collapse g m = .error fault m := by
  rw [collapse, get_bind, h]
  rfl

section

omit [Nonzero p]

theorem known_of_getElem? {x : Residue p} (h : m.table[w]? = some x) : known w m = .ok x m := by
  rw [known, get_bind, h]
  rfl

theorem known_of_not_mem (h : w ∉ m.table) : known w m = .error (.missingWire w) m := by
  rw [known, get_bind, Std.ExtTreeMap.getElem?_eq_none h]
  rfl

/-- The gate of the wire may be entered: it reads earlier wires only. -/
structure Enters (e : Evaluator p) (w : Wire) (g : Gate) : Prop where
  gate : e.circuit.gate? w = some g
  monotonic : g.checkMonotonic = .ok ()

/-- The wire has no gate that may be entered. -/
inductive Refuses (e : Evaluator p) (w : Wire) : Fault → Prop where
  | missing : e.circuit.gate? w = none → Refuses e w (.missingWire w)
  | backward {g : Gate} {fault : Fault} : e.circuit.gate? w = some g →
      g.checkMonotonic = .error fault → Refuses e w fault

theorem Enters.lt (h : e.Enters w g) (hv : v ∈ g.inputs) : v < w :=
  UInt64.lt_of_lt_of_le (Gate.lt_firstOutput h.monotonic hv)
    (Gate.firstOutput_le (Circuit.gate?_eq_some_iff.1 h.gate).2)

theorem enters_or_refuses (e : Evaluator p) (w : Wire) :
    (∃ g, e.Enters w g) ∨ ∃ fault, e.Refuses w fault := by
  cases hg : e.circuit.gate? w with
  | none => exact .inr ⟨_, .missing hg⟩
  | some g =>
    cases hm : g.checkMonotonic with
    | error fault => exact .inr ⟨fault, .backward hg hm⟩
    | ok u => exact .inl ⟨g, hg, hm⟩

end

theorem descend_of_getElem? {x : Residue p} (h : m.table[w]? = some x) :
    e.descend w m = .ok x m := by
  rw [descend, get_bind, h]
  rfl

theorem descend_of_refuses (hw : w ∉ m.table) (h : e.Refuses w fault) :
    e.descend w m = .error fault m := by
  rw [descend, get_bind, Std.ExtTreeMap.getElem?_eq_none hw]
  refine congrFun (?_ : _ = throw fault) m
  simp only
  cases h with
  | missing hg =>
    split
    · rfl
    · next g' hg' => cases hg.symm.trans hg'
  | backward hg hm =>
    split
    · next hn => cases hg.symm.trans hn
    · next g' hg' =>
      cases hg.symm.trans hg'
      split
      · next f hf => cases hm.symm.trans hf; rfl
      · next hk => cases hm.symm.trans hk

theorem descend_of_enters (hw : w ∉ m.table) (h : e.Enters w g) :
    e.descend w m = (do e.descendAll g.inputs; e.collapse g; known w : Eval p (Residue p)) m := by
  have hattach : (g.inputs.attach.forM fun v => discard (e.descend v.1)) =
      e.descendAll g.inputs := by
    unfold descendAll
    conv_rhs => rw [← List.attach_map_subtype_val g.inputs]
    simp only [List.forM_eq_forM, List.forM_map]
  rw [descend, get_bind, Std.ExtTreeMap.getElem?_eq_none hw]
  refine congrFun ?_ m
  simp only
  split
  · next hn => cases h.gate.symm.trans hn
  · next g' hg' =>
    cases h.gate.symm.trans hg'
    split
    · next f hf => cases h.monotonic.symm.trans hf
    · rw [hattach]

omit [Nonzero p] in
theorem getElem?_of_known {x : Residue p} (h : known w m = .ok x m') : m'.table[w]? = some x := by
  cases hx : m.table[w]? with
  | none =>
    rw [known_of_not_mem (by simpa using hx)] at h
    cases h
  | some y =>
    rw [known_of_getElem? hx] at h
    cases h
    exact hx

theorem getElem?_of_descend {x : Residue p} (h : e.descend w m = .ok x m') :
    m'.table[w]? = some x := by
  cases hw : m.table[w]? with
  | some y =>
    rw [descend_of_getElem? hw] at h
    cases h
    exact hw
  | none =>
    have hw : w ∉ m.table := by simpa using hw
    rcases e.enters_or_refuses w with ⟨g, hg⟩ | ⟨fault, hr⟩
    · rw [descend_of_enters hw hg] at h
      obtain ⟨_, m₁, -, h⟩ := exists_ok_of_bind h
      obtain ⟨_, m₂, -, h⟩ := exists_ok_of_bind h
      exact getElem?_of_known h
    · rw [descend_of_refuses hw hr] at h
      cases h

/-! ## What a descent leaves alone -/

/-- A descent that starts among wires closed under what their gates read computes gates of such
wires only, so what these keep, it keeps. -/
theorem stateAfter_descend_of_closed {P : Memory p → Prop} {D : Wire → Prop}
    (hD : ∀ v g, D v → e.Enters v g → ∀ u ∈ g.inputs, D u)
    (hP : ∀ m v g xs, D v → e.circuit.gate? v = some g → P m → P (m.storeAll (g.outputs.zip xs)))
    (hw : D w) (hm : P m) : P (stateAfter (e.descend w) m) := by
  induction w using wire_induction generalizing m with
  | h w ih =>
    cases hk : m.table[w]? with
    | some y => rwa [stateAfter_of_ok (descend_of_getElem? hk)]
    | none =>
      have hn : w ∉ m.table := by simpa using hk
      rcases e.enters_or_refuses w with ⟨g, hg⟩ | ⟨fault, hr⟩
      · have hinputs : ∀ v ∈ g.inputs, ∀ s, P s → P (stateAfter (discard (e.descend v)) s) := by
          intro v hv s hs
          exact stateAfter_bind (fun hs => ih v (hg.lt hv) (hD w g hw hg v hv) hs)
            (fun _ _ h => h) hs
        rw [stateAfter, descend_of_enters hn hg]
        refine stateAfter_bind (stateAfter_forM hinputs) (fun _ s hs => ?_) hm
        refine stateAfter_bind (fun hs => ?_) (fun _ s hs => ?_) hs
        · cases hx : e.gateValues s.table g with
          | error fault => rwa [stateAfter_of_error (collapse_of_error hx)]
          | ok xs =>
            rw [stateAfter_of_ok (collapse_of_ok hx)]
            exact hP s w g xs hw hg.gate hs
        · cases hk : s.table[w]? with
          | some x => rwa [stateAfter_of_ok (known_of_getElem? hk)]
          | none => rwa [stateAfter_of_error (known_of_not_mem (by simpa using hk))]
      · rwa [stateAfter_of_error (descend_of_refuses hn hr)]

/-- The descent to a wire computes gates of wires up to it only. -/
theorem stateAfter_descend {P : Memory p → Prop}
    (hP : ∀ m v g xs, v ≤ w → e.circuit.gate? v = some g → P m → P (m.storeAll (g.outputs.zip xs)))
    (hm : P m) : P (stateAfter (e.descend w) m) := by
  refine stateAfter_descend_of_closed (D := (· ≤ w)) (fun v g hv hg u hu => ?_) hP
    (UInt64.le_refl w) hm
  exact UInt64.le_trans (UInt64.le_of_lt (hg.lt hu)) hv

theorem mem_of_descend {x : Residue p} (h : e.descend w m = .ok x m') (hv : v ∈ m.table) :
    v ∈ m'.table := by
  rw [← stateAfter_of_ok h]
  refine stateAfter_descend (P := fun m => v ∈ m.table) (fun m u g xs _ _ hv => ?_) hv
  exact Memory.mem_storeAll.2 (.inl hv)

theorem mem_of_descendAll {ws : List Wire} (h : e.descendAll ws m = .ok () m') :
    (∀ v ∈ m.table, v ∈ m'.table) ∧ ∀ w ∈ ws, w ∈ m'.table := by
  induction ws generalizing m with
  | nil =>
    cases h
    exact ⟨fun v hv => hv, by simp⟩
  | cons u ws ih =>
    obtain ⟨⟨⟩, m₁, h1, h2⟩ :=
      exists_ok_of_bind (x := discard (e.descend u)) (f := fun _ => e.descendAll ws) h
    obtain ⟨x, m₁, hx, h1⟩ := exists_ok_of_bind h1
    cases h1
    obtain ⟨hgrow, hall⟩ := ih h2
    refine ⟨fun v hv => hgrow v (mem_of_descend hx hv), fun w hw => ?_⟩
    rcases List.mem_cons.1 hw with rfl | hw
    · exact hgrow w (mem_iff_exists_getElem?.2 ⟨x, getElem?_of_descend hx⟩)
    · exact hall w hw

theorem descendAll_cons (w : Wire) (ws : List Wire) :
    e.descendAll (w :: ws) = (do discard (e.descend w); e.descendAll ws : Eval p Unit) := rfl

theorem descendAll_cons_of_ok {x : Residue p} (h : e.descend w m = .ok x m') (ws : List Wire) :
    e.descendAll (w :: ws) m = e.descendAll ws m' := by
  have hd : discard (e.descend w) m = .ok () m' := bind_of_ok h
  rw [descendAll_cons, bind_of_ok hd]

theorem descendAll_cons_of_error (h : e.descend w m = .error fault m') (ws : List Wire) :
    e.descendAll (w :: ws) m = .error fault m' := by
  have hd : discard (e.descend w) m = .error fault m' := bind_of_error h
  rw [descendAll_cons, bind_of_error hd]

theorem descendAll_append (ws ws' : List Wire) :
    e.descendAll (ws ++ ws') = (do e.descendAll ws; e.descendAll ws' : Eval p Unit) := by
  unfold descendAll
  simp only [List.forM_eq_forM, List.forM_append]

/-- Known wires may be left out. -/
theorem descendAll_filter {t : Table p} (ht : ∀ v ∈ t, v ∈ m.table) (ws : List Wire) :
    e.descendAll (ws.filter (· ∉ t)) m = e.descendAll ws m := by
  induction ws generalizing m with
  | nil => rfl
  | cons w ws ih =>
    by_cases hw : w ∈ t
    · obtain ⟨x, hx⟩ := mem_iff_exists_getElem?.1 (ht w hw)
      rw [List.filter_cons_of_neg (by simpa using hw), ih ht,
        descendAll_cons_of_ok (descend_of_getElem? hx)]
    · rw [List.filter_cons_of_pos (by simpa using hw)]
      cases hd : e.descend w m with
      | error fault m₁ => rw [descendAll_cons_of_error hd, descendAll_cons_of_error hd]
      | ok x m₁ =>
        rw [descendAll_cons_of_ok hd, descendAll_cons_of_ok hd,
          ih fun v hv => mem_of_descend hd (ht v hv)]

theorem descendAll_of_mem {ws : List Wire} (h : ∀ w ∈ ws, w ∈ m.table) :
    e.descendAll ws m = .ok () m := by
  have hnil : ws.filter (· ∉ m.table) = [] := by simpa using h
  rw [← descendAll_filter (fun v hv => hv) ws, hnil]
  rfl

/-- The descent to a gate's inputs does not compute the gate. -/
theorem not_mem_of_descendAll (hg : e.Enters w g) (hw : w ∉ m.table) :
    w ∉ (stateAfter (e.descendAll g.inputs) m).table := by
  refine stateAfter_forM (P := fun m : Memory p => w ∉ m.table) (fun v hv s hs => ?_) hw
  refine stateAfter_bind (P := fun m : Memory p => w ∉ m.table) (fun hs => ?_) (fun _ _ h => h) hs
  refine stateAfter_descend (P := fun m => w ∉ m.table) (fun m u g' xs hu hg' hm => ?_) hs
  rw [Memory.mem_storeAll]
  rintro (hk | hk)
  · exact hm hk
  · -- the gate that produces `w` is `g`, and its outputs come after `v`
    obtain ⟨q, hq, rfl⟩ := List.mem_map.1 hk
    obtain ⟨hmem, hwg⟩ := Circuit.gate?_eq_some_iff.1 hg.gate
    obtain ⟨hmem', hug⟩ := Circuit.gate?_eq_some_iff.1 hg'
    obtain rfl := Circuit.eq_of_mem_outputs hmem hmem' hwg (List.of_mem_zip hq).1
    have hle := UInt64.le_trans (Gate.firstOutput_le hug) hu
    exact UInt64.not_le.2 (Gate.lt_firstOutput hg.monotonic hv) hle

/-! ## How a descent to an unknown wire ends -/

theorem descend_of_inputs_error (hw : w ∉ m.table) (h : e.Enters w g)
    (hd : e.descendAll g.inputs m = .error fault m') : e.descend w m = .error fault m' := by
  rw [descend_of_enters hw h, bind_of_error hd]

theorem descend_of_undefined (hw : w ∉ m.table) (h : e.Enters w g)
    (hd : e.descendAll g.inputs m = .ok () m') (hx : e.gateValues m'.table g = .error fault) :
    e.descend w m = .error fault m' := by
  rw [descend_of_enters hw h, bind_of_ok hd, bind_of_error (collapse_of_error hx)]

theorem descend_of_values (hw : w ∉ m.table) (h : e.Enters w g)
    (hd : e.descendAll g.inputs m = .ok () m') {xs : List (Residue p)}
    (hx : e.gateValues m'.table g = .ok xs) :
    ∃ x, e.descend w m = .ok x (m'.storeAll (g.outputs.zip xs)) := by
  have hmem : w ∈ (m'.storeAll (g.outputs.zip xs)).table := by
    rw [Memory.mem_storeAll, map_fst_zip_outputs hx]
    exact .inr (Circuit.gate?_eq_some_iff.1 h.gate).2
  obtain ⟨x, hk⟩ := mem_iff_exists_getElem?.1 hmem
  refine ⟨x, ?_⟩
  rw [descend_of_enters hw h, bind_of_ok hd, bind_of_ok (collapse_of_ok hx), known_of_getElem? hk]

/-! ## The loop is the descent -/

/-- After the unknown inputs of a gate, the descent to its wire goes on as if from the start. -/
theorem descendAll_pending (hw : w ∉ m.table) (h : e.Enters w g)
    (rest : List Wire) :
    e.descendAll (g.inputs.filter (· ∉ m.table) ++ w :: rest) m = e.descendAll (w :: rest) m := by
  have hinputs := descendAll_filter (e := e) (m := m) (fun v hv => hv) g.inputs
  rw [descendAll_append]
  cases hd : e.descendAll g.inputs m with
  | error fault m₁ =>
    rw [bind_of_error (hinputs.trans hd),
      descendAll_cons_of_error (descend_of_inputs_error hw h hd)]
  | ok u m₁ =>
    have hw₁ : w ∉ m₁.table := stateAfter_of_ok hd ▸ not_mem_of_descendAll h hw
    have hagain : e.descendAll g.inputs m₁ = .ok () m₁ := descendAll_of_mem (mem_of_descendAll hd).2
    have hsame : e.descend w m₁ = e.descend w m := by
      rw [descend_of_enters hw₁ h, descend_of_enters hw h, bind_of_ok hd, bind_of_ok hagain]
    rw [bind_of_ok (hinputs.trans hd)]
    cases hd' : e.descend w m with
    | error fault m₂ =>
      rw [descendAll_cons_of_error (hsame.trans hd'), descendAll_cons_of_error hd']
    | ok x m₂ => rw [descendAll_cons_of_ok (hsame.trans hd'), descendAll_cons_of_ok hd']

theorem resolve_eq_descendAll (stack : List Wire) (m : Memory p) :
    e.resolve stack m = e.descendAll stack m := by
  fun_induction resolve e stack m with
  | case1 stack m hd =>
    obtain rfl := eq_nil_of_turn hd
    rfl
  | case2 stack m fault hf =>
    cases stuck_of_turn hf with
    | missing hw hg => rw [descendAll_cons_of_error (descend_of_refuses hw (.missing hg))]
    | backward hw hg hm => rw [descendAll_cons_of_error (descend_of_refuses hw (.backward hg hm))]
    | undefined hw hg hm hi hx =>
      rw [descendAll_cons_of_error (descend_of_undefined hw ⟨hg, hm⟩ (descendAll_of_mem hi) hx)]
  | case3 stack m stack' m' hn ih =>
    rw [ih]
    cases step_of_turn hn with
    | known hw =>
      obtain ⟨x, hx⟩ := mem_iff_exists_getElem?.1 hw
      rw [descendAll_cons_of_ok (descend_of_getElem? hx)]
    | enter hw hg hm hp => exact descendAll_pending hw ⟨hg, hm⟩ _
    | compute hr =>
      obtain ⟨x, hd⟩ := descend_of_values hr.unknown ⟨hr.gate, hr.monotonic⟩
        (descendAll_of_mem hr.inputs) hr.values
      rw [descendAll_cons_of_ok hd]

theorem valueOf_of_ok {x : Residue p} (h : e.descend w m = .ok x m') :
    e.valueOf w m = .ok x m' := by
  unfold valueOf
  cases hw : m.table[w]? with
  | some y =>
    rw [descend_of_getElem? hw] at h
    exact h
  | none =>
    have hrun : e.resolve [w] m = .ok () m' := by
      rw [resolve_eq_descendAll, descendAll_cons_of_ok h]
      rfl
    simp only [hrun, getElem?_of_descend h]

theorem valueOf_of_error (h : e.descend w m = .error fault m') :
    e.valueOf w m = .error fault m' := by
  unfold valueOf
  cases hw : m.table[w]? with
  | some y =>
    rw [descend_of_getElem? hw] at h
    cases h
  | none =>
    have hrun : e.resolve [w] m = .error fault m' := by
      rw [resolve_eq_descendAll, descendAll_cons_of_error h]
    simp only [hrun]

/-- Asking for a wire and descending to it are the same, from whatever is known: the same value or
fault, the same wires known in the end and the same events, also when they fail midway. -/
theorem valueOf_eq_descend (w : Wire) (m : Memory p) :
    e.valueOf w m = e.descend w m := by
  cases h : e.descend w m with
  | ok x m' => exact valueOf_of_ok h
  | error fault m' => exact valueOf_of_error h

open Circuit in
/-- The zero test of six over zero fails at the quotient and leaves the dividend and the divisor
known: from nothing, and from the dividend alone. -/
theorem valueOf_quotientByZero :
    quotientByZero.valueOf 3 .empty = quotientByZero.descend 3 .empty ∧
      quotientByZero.descend 3 .empty =
        .error (.divisionByZero 2) ⟨quotientInputs 6 0, [.collapsed 0 6, .collapsed 1 0]⟩ ∧
      quotientByZero.valueOf 3 (Memory.empty.store 0 6) =
        quotientByZero.descend 3 (Memory.empty.store 0 6) ∧
      quotientByZero.descend 3 (Memory.empty.store 0 6) =
        .error (.divisionByZero 2) ⟨quotientInputs 6 0, [.collapsed 0 6, .collapsed 1 0]⟩ := by
  have hempty := valueOf_eq_descend (e := quotientByZero) 3 .empty
  have hdividend := valueOf_eq_descend (e := quotientByZero) 3 (Memory.empty.store 0 6)
  refine ⟨hempty, hempty ▸ ?_, hdividend, hdividend ▸ ?_⟩
  · exact valueOf_of_resolveWithin_error (n := 9) (by decide +kernel) (by decide +kernel)
  · exact valueOf_of_resolveWithin_error (n := 9) (by decide +kernel) (by decide +kernel)

end Evaluator

end FieldCircuit
