import FieldCircuit.Evaluation
import FieldCircuit.Proofs.Validity
import Mathlib.Logic.Relation

/-!
# Runs of the evaluator

`Step` says what one turn of the loop does to the stack and the memory, and `Stuck` when a turn
fails. Whatever is asked of an evaluator, and however it ends, the memory only changes by computing
gates that are ready and by reports: `Reaches` is that relation, and an invariant of memories has to
be checked for these two steps alone.
-/

namespace FieldCircuit

/-! ## Tables -/

variable {p : Nat}

/-- Every value of `t` is one of `t'`. -/
def Table.Within (t t' : Table p) : Prop :=
  ∀ (w : Wire) (x : Residue p), t[w]? = some x → t'[w]? = some x

namespace Table.Within

variable {t t' t'' : Table p}

theorem refl (t : Table p) : t.Within t := fun _ _ h => h

theorem empty (t : Table p) : Table.Within ∅ t := fun w x h => by simp at h

theorem trans (h : t.Within t') (h' : t'.Within t'') : t.Within t'' :=
  fun w x hx => h' w x (h w x hx)

theorem mem (h : t.Within t') {w : Wire} (hw : w ∈ t) : w ∈ t' := by
  obtain ⟨x, hx⟩ := mem_iff_exists_getElem?.1 hw
  exact mem_iff_exists_getElem?.2 ⟨x, h w x hx⟩

theorem getElem?_eq (h : t.Within t') {w : Wire} (hw : w ∈ t) : t[w]? = t'[w]? := by
  obtain ⟨x, hx⟩ := mem_iff_exists_getElem?.1 hw
  rw [hx, h w x hx]

theorem antisymm (h : t.Within t') (hm : ∀ w ∈ t', w ∈ t) : t = t' := by
  apply Std.ExtTreeMap.ext_getElem?
  intro w
  by_cases hw : w ∈ t
  · exact h.getElem?_eq hw
  · rw [Std.ExtTreeMap.getElem?_eq_none hw, Std.ExtTreeMap.getElem?_eq_none fun h' => hw (hm w h')]

end Table.Within

theorem Memory.getElem?_storeAll (m : Memory p) (values : List (Wire × Residue p)) (w : Wire) :
    (m.storeAll values).table[w]? = m.table[w]?.or (values.lookup w) := by
  induction values generalizing m with
  | nil => simp [storeAll]
  | cons v vs ih =>
    obtain ⟨u, x⟩ := v
    change ((m.store u x).storeAll vs).table[w]? = _
    rw [ih]
    simp only [store, Std.ExtTreeMap.getElem?_insertIfNew, Std.compare_eq_iff_eq]
    by_cases hu : u = w
    · subst hu
      by_cases hm : u ∈ m.table
      · simp [hm]
      · simp [hm]
    · have hb : (w == u) = false := beq_false_of_ne (Ne.symm hu)
      simp [hu, List.lookup_cons, hb]

theorem Memory.within_storeAll (m : Memory p) (values : List (Wire × Residue p)) :
    m.table.Within (m.storeAll values).table := by
  intro w x hx
  rw [getElem?_storeAll, hx, Option.some_or]

namespace Evaluator

variable [Nonzero p] {e : Evaluator p}

/-! ## One turn -/

/-- The gate of an unknown wire whose inputs are all known gives the values `xs`. -/
structure Ready (e : Evaluator p) (m : Memory p) (w : Wire) (g : Gate) (xs : List (Residue p)) :
    Prop where
  unknown : w ∉ m.table
  gate : e.circuit.gate? w = some g
  monotonic : g.checkMonotonic = .ok ()
  inputs : ∀ v ∈ g.inputs, v ∈ m.table
  values : e.gateValues m.table g = .ok xs

inductive Step (e : Evaluator p) : List Wire → Memory p → List Wire → Memory p → Prop where
  | known {w : Wire} {rest : List Wire} {m : Memory p} : w ∈ m.table → Step e (w :: rest) m rest m
  | enter {w : Wire} {rest : List Wire} {m : Memory p} {g : Gate} : w ∉ m.table →
      e.circuit.gate? w = some g → g.checkMonotonic = .ok () →
      g.inputs.filter (· ∉ m.table) ≠ [] →
      Step e (w :: rest) m (g.inputs.filter (· ∉ m.table) ++ w :: rest) m
  | compute {w : Wire} {rest : List Wire} {m : Memory p} {g : Gate} {xs : List (Residue p)} :
      Ready e m w g xs → Step e (w :: rest) m rest (m.storeAll (g.outputs.zip xs))

inductive Stuck (e : Evaluator p) (m : Memory p) : List Wire → Fault → Prop where
  | missing {w : Wire} {rest : List Wire} : w ∉ m.table → e.circuit.gate? w = none →
      Stuck e m (w :: rest) (.missingWire w)
  | backward {w : Wire} {rest : List Wire} {g : Gate} {fault : Fault} : w ∉ m.table →
      e.circuit.gate? w = some g → g.checkMonotonic = .error fault → Stuck e m (w :: rest) fault
  | undefined {w : Wire} {rest : List Wire} {g : Gate} {fault : Fault} : w ∉ m.table →
      e.circuit.gate? w = some g → g.checkMonotonic = .ok () → (∀ v ∈ g.inputs, v ∈ m.table) →
      e.gateValues m.table g = .error fault → Stuck e m (w :: rest) fault

omit [Nonzero p] in
theorem inputs_known {m : Memory p} {g : Gate} (h : g.inputs.filter (· ∉ m.table) = []) :
    ∀ v ∈ g.inputs, v ∈ m.table := by
  intro v hv
  simpa using List.filter_eq_nil_iff.1 h v hv

theorem map_fst_zip_outputs {t : Table p} {g : Gate} {xs : List (Residue p)}
    (h : e.gateValues t g = .ok xs) : (g.outputs.zip xs).map Prod.fst = g.outputs :=
  List.map_fst_zip (Nat.le_of_eq (gateValues_length h).symm)

theorem step_of_turn {m m' : Memory p} {stack stack' : List Wire}
    (h : e.turn m stack = .next stack' m') : Step e stack m stack' m' := by
  revert h
  fun_cases turn e m stack with
  | case2 w rest hw =>
    intro h
    cases h
    exact .known hw
  | case6 w rest hw g hg hm hp xs hx =>
    intro h
    cases h
    exact .compute ⟨hw, hg, hm, inputs_known hp, hx⟩
  | case7 w rest hw g hg hm hp =>
    intro h
    cases h
    exact .enter hw hg hm hp
  | _ =>
    intro h
    cases h

theorem stuck_of_turn {m : Memory p} {stack : List Wire} {fault : Fault}
    (h : e.turn m stack = .failed fault) : Stuck e m stack fault := by
  revert h
  fun_cases turn e m stack with
  | case3 w rest hw hg =>
    intro h
    cases h
    exact .missing hw hg
  | case4 w rest hw g hg f hm =>
    intro h
    cases h
    exact .backward hw hg hm
  | case5 w rest hw g hg hm hp f hx =>
    intro h
    cases h
    exact .undefined hw hg hm (inputs_known hp) hx
  | _ =>
    intro h
    cases h

theorem eq_nil_of_turn {m : Memory p} {stack : List Wire} (h : e.turn m stack = .done) :
    stack = [] := by
  revert h
  fun_cases turn e m stack with
  | case1 => exact fun _ => rfl
  | _ =>
    intro h
    cases h

/-- The computed gate's wire becomes known, and no other wire leaves the stack before it is. -/
theorem Step.mem {m m' : Memory p} {stack stack' : List Wire} (h : Step e stack m stack' m') :
    ∀ w ∈ stack, w ∈ stack' ∨ w ∈ m'.table := by
  intro v hv
  cases h with
  | known hw =>
    rcases List.mem_cons.1 hv with rfl | hv
    · exact .inr hw
    · exact .inl hv
  | enter => exact .inl (List.mem_append_right _ hv)
  | compute hr =>
    rcases List.mem_cons.1 hv with rfl | hv
    · right
      rw [Memory.mem_storeAll, map_fst_zip_outputs hr.values]
      exact .inr (Circuit.gate?_eq_some_iff.1 hr.gate).2
    · exact .inl hv

/-! ## Runs of a bounded length -/

theorem resolve_of_turn {m m' : Memory p} {stack stack' : List Wire}
    (h : e.turn m stack = .next stack' m') : e.resolve stack m = e.resolve stack' m' := by
  rw [resolve]
  split
  · next hd => cases h.symm.trans hd
  · next hf => cases h.symm.trans hf
  · next hn =>
    cases h.symm.trans hn
    rfl

theorem resolve_of_turn_failed {m : Memory p} {stack : List Wire} {fault : Fault}
    (h : e.turn m stack = .failed fault) : e.resolve stack m = .error fault m := by
  rw [resolve]
  split
  · next hd => cases h.symm.trans hd
  · next hf =>
    cases h.symm.trans hf
    rfl
  · next hn => cases h.symm.trans hn

deriving instance DecidableEq for EStateM.Result

/-- The loop, if it takes less than `n` turns. Unlike `resolve` it is structural, so that a given
run can be computed. -/
def resolveWithin (e : Evaluator p) : Nat → List Wire → Memory p →
    Option (EStateM.Result Fault (Memory p) Unit)
  | 0, _, _ => none
  | n + 1, stack, m =>
    match e.turn m stack with
    | .done => some (.ok () m)
    | .failed fault => some (.error fault m)
    | .next stack' m' => e.resolveWithin n stack' m'

theorem resolve_of_resolveWithin {n : Nat} {stack : List Wire} {m : Memory p}
    {r : EStateM.Result Fault (Memory p) Unit} (h : e.resolveWithin n stack m = some r) :
    e.resolve stack m = r := by
  induction n generalizing stack m with
  | zero => cases h
  | succ n ih =>
    rw [resolveWithin] at h
    split at h
    · next hd =>
      cases h
      obtain rfl := eq_nil_of_turn hd
      rw [resolve]
      rfl
    · next hf =>
      cases h
      exact resolve_of_turn_failed hf
    · next hn => exact (resolve_of_turn hn).trans (ih h)

theorem valueOf_of_resolveWithin_ok {n : Nat} {w : Wire} {m m' : Memory p} {x : Residue p}
    (hw : m.table[w]? = none) (h : e.resolveWithin n [w] m = some (.ok () m'))
    (hx : m'.table[w]? = some x) : e.valueOf w m = .ok x m' := by
  simp only [valueOf, hw, resolve_of_resolveWithin h, hx]

theorem valueOf_of_resolveWithin_error {n : Nat} {w : Wire} {m m' : Memory p} {fault : Fault}
    (hw : m.table[w]? = none) (h : e.resolveWithin n [w] m = some (.error fault m')) :
    e.valueOf w m = .error fault m' := by
  simp only [valueOf, hw, resolve_of_resolveWithin h]

/-! ## What a memory can become -/

inductive Advance (e : Evaluator p) : Memory p → Memory p → Prop where
  | compute {m : Memory p} {w : Wire} {g : Gate} {xs : List (Residue p)} :
      Ready e m w g xs → Advance e m (m.storeAll (g.outputs.zip xs))
  | report (m : Memory p) (event : Event) : (∀ w n, event ≠ .collapsed w n) →
      Advance e m { m with journal := m.journal ++ [event] }

abbrev Reaches (e : Evaluator p) : Memory p → Memory p → Prop := Relation.ReflTransGen (Advance e)

theorem Step.reaches {m m' : Memory p} {stack stack' : List Wire} (h : Step e stack m stack' m') :
    Reaches e m m' := by
  cases h with
  | known => exact .refl
  | enter => exact .refl
  | compute hr => exact .single (.compute hr)

theorem Reaches.within {m m' : Memory p} (h : Reaches e m m') : m.table.Within m'.table := by
  induction h with
  | refl => exact .refl _
  | tail _ ha ih =>
    cases ha with
    | compute hr => exact ih.trans (Memory.within_storeAll _ _)
    | report event => exact ih

/-- Whatever the outcome, the computation leaves a memory the evaluator can reach. -/
def Traced {α : Type} (e : Evaluator p) (x : Eval p α) : Prop := ∀ m, Reaches e m (stateAfter x m)

theorem Traced.reaches {α : Type} {x : Eval p α} (h : Traced e x) {m m' : Memory p} {a : α}
    (hx : x m = .ok a m') : Reaches e m m' := by
  have := h m
  rwa [stateAfter, hx] at this

theorem Traced.bind {α β : Type} {x : Eval p α} {f : α → Eval p β} (hx : Traced e x)
    (hf : ∀ a, Traced e (f a)) : Traced e (x >>= f) := by
  intro m
  have h1 := hx m
  simp only [stateAfter, Bind.bind, EStateM.bind] at h1 ⊢
  cases he : x m with
  | ok a m' =>
    rw [he] at h1
    exact h1.trans (hf a m')
  | error fault m' =>
    rw [he] at h1
    exact h1

theorem Traced.pure {α : Type} (a : α) : Traced e (Pure.pure a) := fun _ => .refl

theorem Traced.get : Traced e (MonadState.get : Eval p (Memory p)) := fun _ => .refl

theorem Traced.forM {α : Type} {f : α → Eval p Unit} (xs : List α) (hf : ∀ x ∈ xs, Traced e (f x)) :
    Traced e (xs.forM f) := by
  induction xs with
  | nil => exact Traced.pure ()
  | cons x xs ih =>
    exact (hf x List.mem_cons_self).bind fun _ => ih fun y hy => hf y (List.mem_cons_of_mem x hy)

theorem traced_log {event : Event} (h : ∀ w n, event ≠ .collapsed w n) : Traced e (log event) :=
  fun m => .single (.report m event h)

theorem traced_resolve (stack : List Wire) : Traced e (e.resolve stack) := by
  intro m
  unfold stateAfter
  fun_induction resolve e stack m with
  | case1 | case2 => exact .refl
  | case3 stack m stack' m' h ih => exact (step_of_turn h).reaches.trans ih

theorem mem_of_resolve {stack : List Wire} {m m' : Memory p} (h : e.resolve stack m = .ok () m') :
    ∀ w ∈ stack, w ∈ m'.table := by
  fun_induction resolve e stack m with
  | case1 stack m hd =>
    obtain rfl := eq_nil_of_turn hd
    simp
  | case2 => cases h
  | case3 stack m stack' m₁ hn ih =>
    intro w hw
    rcases (step_of_turn hn).mem w hw with hs | ht
    · exact ih h w hs
    · exact ((traced_resolve stack').reaches h).within.mem ht

theorem traced_valueOf (w : Wire) : Traced e (e.valueOf w) := by
  intro m
  unfold stateAfter valueOf
  cases m.table[w]? with
  | some x => exact .refl
  | none =>
    have h := traced_resolve (e := e) [w] m
    unfold stateAfter at h
    cases hr : e.resolve [w] m with
    | error fault m' =>
      rw [hr] at h
      exact h
    | ok u m' =>
      rw [hr] at h
      simp only
      cases m'.table[w]? <;> exact h

theorem getElem?_of_valueOf {w : Wire} {m m' : Memory p} {x : Residue p}
    (h : e.valueOf w m = .ok x m') : m'.table[w]? = some x := by
  unfold valueOf at h
  split at h
  · next hx =>
    cases h
    exact hx
  · split at h
    · cases h
    · split at h
      · next hx =>
        cases h
        exact hx
      · cases h

theorem traced_discard_valueOf (w : Wire) : Traced e (discard (e.valueOf w)) :=
  (traced_valueOf w).bind fun _ => Traced.pure _

theorem traced_evaluateOutputs : Traced e e.evaluateOutputs :=
  (Traced.forM _ fun w _ => traced_discard_valueOf w).bind fun _ =>
    Traced.get.bind fun _ => traced_log nofun

/-- The turn of the loop of `fillGaps` for one wire. -/
def fillGap (e : Evaluator p) (w : Wire) : Eval p Unit := do
  unless (← get).table.contains w do
    discard (e.valueOf w)

theorem traced_fillGap (w : Wire) : Traced e (e.fillGap w) := by
  refine Traced.get.bind fun m => ?_
  split
  · exact Traced.pure ()
  · exact traced_discard_valueOf w

theorem mem_of_fillGap {w : Wire} {m m' : Memory p} (h : e.fillGap w m = .ok () m') :
    w ∈ m'.table := by
  change (if m.table.contains w then pure () else discard (e.valueOf w) : Eval p Unit) m = _ at h
  split at h
  · next hw =>
    cases h
    exact Std.ExtTreeMap.mem_iff_contains.2 hw
  · obtain ⟨x, m₁, hx, h⟩ := exists_ok_of_bind h
    cases h
    exact mem_iff_exists_getElem?.2 ⟨x, getElem?_of_valueOf hx⟩

theorem traced_fillGaps : Traced e e.fillGaps :=
  Traced.get.bind fun _ => (Traced.forM _ fun w _ => traced_fillGap w).bind fun _ =>
    Traced.get.bind fun _ => traced_log nofun

theorem traced_evaluate : Traced e e.evaluate :=
  traced_evaluateOutputs.bind fun _ => traced_fillGaps

end Evaluator

end FieldCircuit
