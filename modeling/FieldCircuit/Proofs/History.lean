import FieldCircuit.Proofs.Descent
import FieldCircuit.Proofs.Requests

/-!
# History does not matter

Two consistent memories, one of which knows what the other knows, answer alike, and what they learn
from a request differs only by what the larger one knew before (`Alike`). Every request is alike to
itself. So the answers do not depend on what was asked before, and the known wires only on which
requests were made, not on their order or number.
-/

namespace FieldCircuit

namespace Evaluator

variable {p : Nat} [Nonzero p] {e : Evaluator p}

/-! ## Comparing consistent tables -/

/-- Consistent tables have the same values where both have one. -/
theorem Consistent.within {t t' : Table p} (ht : e.Consistent t) (ht' : e.Consistent t')
    (h : ∀ w ∈ t, w ∈ t') : t.Within t' := by
  have hvalue : ∀ w, w ∈ t → t[w]? = t'[w]? := by
    intro w
    induction w using wire_induction with
    | h w ih =>
      intro hw
      obtain ⟨g, hg, hmono, hi, xs, hx, ho⟩ := ht w hw
      obtain ⟨g', hg', -, -, ys, hy, ho'⟩ := ht' w (h w hw)
      cases hg.symm.trans hg'
      have hbelow : ∀ v ∈ g.inputs, t[v]? = t'[v]? := fun v hv =>
        ih v (Enters.lt ⟨hg, hmono⟩ hv) (hi v hv)
      rw [gateValues_congr hbelow, hy] at hx
      cases hx
      have hout := (Circuit.gate?_eq_some_iff.1 hg).2
      rw [← map_fst_zip_outputs hy] at hout
      obtain ⟨q, hq, rfl⟩ := List.mem_map.1 hout
      rw [ho q hq, ho' q hq]
  intro w x hx
  rw [← hvalue w (mem_iff_exists_getElem?.2 ⟨x, hx⟩), hx]

theorem Refuses.not_mem {w : Wire} {fault : Fault} (h : e.Refuses w fault) {t : Table p}
    (ht : e.Consistent t) : w ∉ t := by
  intro hw
  obtain ⟨g, hg, hmono, -⟩ := ht w hw
  cases h with
  | missing hn => cases hg.symm.trans hn
  | backward hg' hm =>
    cases hg.symm.trans hg'
    cases hmono.symm.trans hm

/-- Both memories are consistent, and the second knows what the first knows. -/
structure Below (e : Evaluator p) (m m' : Memory p) : Prop where
  left : e.Consistent m.table
  right : e.Consistent m'.table
  mem : ∀ w ∈ m.table, w ∈ m'.table

theorem Below.within {m m' : Memory p} (h : e.Below m m') : m.table.Within m'.table :=
  h.left.within h.right h.mem

theorem below_empty {m : Memory p} (hm : e.Consistent m.table) : e.Below .empty m :=
  ⟨consistent_empty, hm, fun w hw => by simp [Memory.empty] at hw⟩

/-! ## Computations that end alike -/

/-- From a memory and one that knows more, the computations have the same outcome, and the second
then knows what it knew and what the first has learned. -/
structure Alike {α : Type} (e : Evaluator p) (x y : Eval p α) : Prop where
  left : e.Traced x
  right : e.Traced y
  outcome_eq : ∀ m m', e.Below m m' → outcome x m = outcome y m'
  mem_iff : ∀ m m', e.Below m m' → ∀ u,
    u ∈ (stateAfter y m').table ↔ u ∈ m'.table ∨ u ∈ (stateAfter x m).table

namespace Alike

variable {α β : Type} {x y : Eval p α} {f g : α → Eval p β}

theorem below (h : e.Alike x y) {m m' : Memory p} (hb : e.Below m m') :
    e.Below (stateAfter x m) (stateAfter y m') :=
  ⟨hb.left.reaches (h.left m), hb.right.reaches (h.right m'),
    fun u hu => (h.mem_iff m m' hb u).2 (.inr hu)⟩

theorem pure (a : α) : e.Alike (Pure.pure a) (Pure.pure a) where
  left := Traced.pure a
  right := Traced.pure a
  outcome_eq _ _ _ := rfl
  mem_iff m m' hb u := by
    show u ∈ m'.table ↔ u ∈ m'.table ∨ u ∈ m.table
    exact (or_iff_left_of_imp (hb.mem u)).symm

theorem bind (hx : e.Alike x y) (hf : ∀ a, e.Alike (f a) (g a)) :
    e.Alike (x >>= f) (y >>= g) := by
  refine ⟨hx.left.bind fun a => (hf a).left, hx.right.bind fun a => (hf a).right, ?_, ?_⟩
  · intro m m' hb
    have hsame := hx.outcome_eq m m' hb
    cases h : outcome x m with
    | ok a =>
      rw [outcome_bind_of_ok (eq_of_outcome_ok h),
        outcome_bind_of_ok (eq_of_outcome_ok (hsame.symm.trans h))]
      exact (hf a).outcome_eq _ _ (hx.below hb)
    | error fault =>
      rw [outcome_of_error (bind_of_error (eq_of_outcome_error h)),
        outcome_of_error (bind_of_error (eq_of_outcome_error (hsame.symm.trans h)))]
  · intro m m' hb u
    have hsame := hx.outcome_eq m m' hb
    have hmem := hx.mem_iff m m' hb u
    cases h : outcome x m with
    | ok a =>
      have hgrow : u ∈ (stateAfter x m).table → u ∈ (stateAfter (f a) (stateAfter x m)).table :=
        ((hf a).left _).within.mem
      rw [stateAfter_bind_of_ok (eq_of_outcome_ok h),
        stateAfter_bind_of_ok (eq_of_outcome_ok (hsame.symm.trans h)),
        (hf a).mem_iff _ _ (hx.below hb) u, hmem, or_assoc]
      exact or_congr_right ⟨fun h => h.elim hgrow id, .inr⟩
    | error fault =>
      rwa [stateAfter_of_error (bind_of_error (eq_of_outcome_error h)),
        stateAfter_of_error (bind_of_error (eq_of_outcome_error (hsame.symm.trans h)))]

theorem forM {γ : Type} {k : γ → Eval p Unit} (xs : List γ)
    (hk : ∀ x ∈ xs, e.Alike (k x) (k x)) : e.Alike (xs.forM k) (xs.forM k) := by
  induction xs with
  | nil => exact Alike.pure ()
  | cons x xs ih =>
    exact (hk x List.mem_cons_self).bind fun _ => ih fun y hy => hk y (List.mem_cons_of_mem x hy)

/-- What is read of the memories may differ if what is done with it does not. -/
theorem get {f g : Memory p → Eval p α} (h : ∀ m m', e.Alike (f m) (g m')) :
    e.Alike (MonadState.get >>= f) (MonadState.get >>= g) where
  left := Traced.get.bind fun m => (h m m).left
  right := Traced.get.bind fun m => (h m m).right
  outcome_eq m m' hb := (h m m').outcome_eq m m' hb
  mem_iff m m' hb := (h m m').mem_iff m m' hb

theorem log {event event' : Event} (h : ∀ w n, event ≠ .collapsed w n)
    (h' : ∀ w n, event' ≠ .collapsed w n) :
    e.Alike (Evaluator.log event) (Evaluator.log event') where
  left := traced_log h
  right := traced_log h'
  outcome_eq _ _ _ := rfl
  mem_iff m m' hb u := by
    show u ∈ m'.table ↔ u ∈ m'.table ∨ u ∈ m.table
    exact (or_iff_left_of_imp (hb.mem u)).symm

end Alike

/-! ## Every request is alike to itself -/

theorem descend_eq_valueOf (w : Wire) : e.descend w = e.valueOf w := by
  funext m
  cases h : e.descend w m with
  | ok x m' => exact (valueOf_of_ok h).symm
  | error fault m' => exact (valueOf_of_error h).symm

section

variable {w : Wire} {g : Gate} {m m' : Memory p}

/-- A descent to a wire that only the larger memory knows learns nothing that this one does not
know. -/
theorem descend_of_known_above
    (hinputs : e.Alike (e.descendAll g.inputs) (e.descendAll g.inputs)) (hb : e.Below m m')
    (hw : w ∉ m.table) (hw' : w ∈ m'.table) (hg : e.Enters w g) :
    ∃ x n, e.descend w m = .ok x n ∧ ∀ u ∈ n.table, u ∈ m'.table := by
  obtain ⟨g', hg', -, hi, hexp⟩ := hb.right w hw'
  cases hg.gate.symm.trans hg'
  obtain ⟨xs, hx, -⟩ := id hexp
  have hrun' : e.descendAll g.inputs m' = .ok () m' := descendAll_of_mem hi
  have hrun := eq_of_outcome_ok ((hinputs.outcome_eq m m' hb).trans (outcome_of_ok hrun'))
  have hbelow := hinputs.below hb
  rw [stateAfter_of_ok hrun'] at hbelow
  have hvalues : e.gateValues (stateAfter (e.descendAll g.inputs) m).table g = .ok xs := by
    rw [← hx]
    exact gateValues_congr fun v hv => hbelow.within.getElem?_eq ((mem_of_descendAll hrun).2 v hv)
  obtain ⟨x, hd⟩ := descend_of_values hw hg hrun hvalues
  refine ⟨x, _, hd, fun u hu => ?_⟩
  rw [Memory.mem_storeAll, map_fst_zip_outputs hvalues] at hu
  exact hu.elim (hbelow.mem u) hexp.mem

/-- Both runs end well or both with the same fault, the second with what its memory knew and what
the first has learned. -/
def EndAlike {α : Type} (m' : Memory p) (r r' : EStateM.Result Fault (Memory p) α) : Prop :=
  (∃ x x' n n', r = .ok x n ∧ r' = .ok x' n' ∧ ∀ u, u ∈ n'.table ↔ u ∈ m'.table ∨ u ∈ n.table) ∨
    ∃ fault n n', r = .error fault n ∧ r' = .error fault n' ∧
      ∀ u, u ∈ n'.table ↔ u ∈ m'.table ∨ u ∈ n.table

/-- Descents to a wire that neither memory knows. -/
theorem endAlike_of_unknown
    (hinputs : e.Alike (e.descendAll g.inputs) (e.descendAll g.inputs)) (hb : e.Below m m')
    (hw : w ∉ m.table) (hw' : w ∉ m'.table) (hg : e.Enters w g) :
    EndAlike m' (e.descend w m) (e.descend w m') := by
  have hsame := hinputs.outcome_eq m m' hb
  have hmem := hinputs.mem_iff m m' hb
  have hbelow := hinputs.below hb
  cases h : outcome (e.descendAll g.inputs) m with
  | error fault =>
    exact .inr ⟨fault, _, _, descend_of_inputs_error hw hg (eq_of_outcome_error h),
      descend_of_inputs_error hw' hg (eq_of_outcome_error (hsame.symm.trans h)), hmem⟩
  | ok u =>
    have hrun := eq_of_outcome_ok h
    have hrun' := eq_of_outcome_ok (hsame.symm.trans h)
    have hvalues : e.gateValues (stateAfter (e.descendAll g.inputs) m).table g =
        e.gateValues (stateAfter (e.descendAll g.inputs) m').table g :=
      gateValues_congr fun v hv => hbelow.within.getElem?_eq ((mem_of_descendAll hrun).2 v hv)
    cases hx : e.gateValues (stateAfter (e.descendAll g.inputs) m).table g with
    | error fault =>
      exact .inr ⟨fault, _, _, descend_of_undefined hw hg hrun hx,
        descend_of_undefined hw' hg hrun' (hvalues.symm.trans hx), hmem⟩
    | ok xs =>
      obtain ⟨x, hd⟩ := descend_of_values hw hg hrun hx
      obtain ⟨x', hd'⟩ := descend_of_values hw' hg hrun' (hvalues.symm.trans hx)
      refine .inl ⟨x, x', _, _, hd, hd', fun u => ?_⟩
      rw [Memory.mem_storeAll, Memory.mem_storeAll, hmem, or_assoc]

theorem endAlike_descend
    (hinputs : ∀ g, e.Enters w g → e.Alike (e.descendAll g.inputs) (e.descendAll g.inputs))
    (hb : e.Below m m') : EndAlike m' (e.descend w m) (e.descend w m') := by
  by_cases hw : w ∈ m.table
  · obtain ⟨x, hx⟩ := mem_iff_exists_getElem?.1 hw
    obtain ⟨x', hx'⟩ := mem_iff_exists_getElem?.1 (hb.mem w hw)
    refine .inl ⟨x, x', m, m', descend_of_getElem? hx, descend_of_getElem? hx', fun u => ?_⟩
    exact (or_iff_left_of_imp (hb.mem u)).symm
  · rcases e.enters_or_refuses w with ⟨g, hg⟩ | ⟨fault, hr⟩
    · by_cases hw' : w ∈ m'.table
      · obtain ⟨x, n, hd, hn⟩ := descend_of_known_above (hinputs g hg) hb hw hw' hg
        obtain ⟨x', hx'⟩ := mem_iff_exists_getElem?.1 hw'
        refine .inl ⟨x, x', n, m', hd, descend_of_getElem? hx', fun u => ?_⟩
        exact (or_iff_left_of_imp (hn u)).symm
      · exact endAlike_of_unknown (hinputs g hg) hb hw hw' hg
    · refine .inr ⟨fault, m, m', descend_of_refuses hw hr,
        descend_of_refuses (hr.not_mem hb.right) hr, fun u => ?_⟩
      exact (or_iff_left_of_imp (hb.mem u)).symm

end

theorem alike_descend (w : Wire) : e.Alike (e.descend w) (e.descend w) := by
  -- on the wire: a gate that may be entered reads smaller wires only
  induction w using wire_induction with
  | h w ih =>
    have htraced : e.Traced (e.descend w) := by
      rw [descend_eq_valueOf]
      exact traced_valueOf w
    have hinputs : ∀ g, e.Enters w g → e.Alike (e.descendAll g.inputs) (e.descendAll g.inputs) :=
      fun g hg => Alike.forM _ fun v hv => (ih v (hg.lt hv)).bind fun _ => Alike.pure ()
    refine ⟨htraced, htraced, fun m m' hb => ?_, fun m m' hb => ?_⟩
    · rcases endAlike_descend hinputs hb with ⟨x, x', n, n', h, h', hmem⟩ | ⟨fault, n, n', h, h', -⟩
      · have hn : e.Consistent n.table := hb.left.reaches (htraced.reaches h)
        have hn' : e.Consistent n'.table := hb.right.reaches (htraced.reaches h')
        have hx := hn.within hn' (fun u hu => (hmem u).2 (.inr hu)) w x (getElem?_of_descend h)
        cases hx.symm.trans (getElem?_of_descend h')
        rw [outcome_of_ok h, outcome_of_ok h']
      · rw [outcome_of_error h, outcome_of_error h']
    · rcases endAlike_descend hinputs hb with ⟨x, x', n, n', h, h', hmem⟩ |
        ⟨fault, n, n', h, h', hmem⟩
      · rwa [stateAfter_of_ok h, stateAfter_of_ok h']
      · rwa [stateAfter_of_error h, stateAfter_of_error h']

theorem alike_valueOf (w : Wire) : e.Alike (e.valueOf w) (e.valueOf w) := by
  rw [← descend_eq_valueOf]
  exact alike_descend w

theorem alike_discard_valueOf (w : Wire) :
    e.Alike (discard (e.valueOf w)) (discard (e.valueOf w)) :=
  (alike_valueOf w).bind fun _ => Alike.pure ()

theorem alike_evaluateOutputs :
    e.Alike e.evaluateOutputs e.evaluateOutputs := by
  refine (Alike.forM _ fun w _ => alike_discard_valueOf w).bind fun _ => Alike.get fun m m' => ?_
  exact Alike.log nofun nofun

/-- To ask for a wire that is known changes nothing, so a gap is filled as if it were asked for. -/
theorem fillGap_eq (w : Wire) : e.fillGap w = discard (e.valueOf w) := by
  funext m
  show (if m.table.contains w then pure () else discard (e.valueOf w) : Eval p Unit) m = _
  split
  · next hw =>
    obtain ⟨x, hx⟩ := mem_iff_exists_getElem?.1 (Std.ExtTreeMap.mem_iff_contains.2 hw)
    have hv : e.valueOf w m = .ok x m := by
      unfold valueOf
      rw [hx]
    have hd : discard (e.valueOf w) m = .ok () m := bind_of_ok hv
    rw [hd]
    rfl
  · rfl

theorem alike_fillGaps : e.Alike e.fillGaps e.fillGaps := by
  refine Alike.get fun m m' => ?_
  refine (Alike.forM (k := e.fillGap) _ fun w _ => ?_).bind fun _ => Alike.get fun m m' => ?_
  · rw [fillGap_eq]
    exact alike_discard_valueOf w
  · exact Alike.log nofun nofun

theorem alike_evaluate : e.Alike e.evaluate e.evaluate :=
  (alike_evaluateOutputs).bind fun _ => alike_fillGaps

theorem alike_answer (r : Request) : e.Alike (e.answer r) (e.answer r) := by
  cases r with
  | valueOf w => exact (alike_valueOf w).bind fun _ => Alike.pure _
  | evaluateOutputs => exact (alike_evaluateOutputs).bind fun _ => Alike.pure _
  | fillGaps => exact (alike_fillGaps).bind fun _ => Alike.pure _
  | evaluate => exact (alike_evaluate).bind fun _ => Alike.pure _

/-! ## Lists of requests -/

theorem mem_serve {m : Memory p} (hm : e.Consistent m.table)
    (rs : List Request) (u : Wire) :
    u ∈ (e.serve rs m).table ↔
      u ∈ m.table ∨ ∃ r ∈ rs, u ∈ (stateAfter (e.answer r) .empty).table := by
  induction rs generalizing m with
  | nil => simp [serve]
  | cons r rs ih =>
    rw [serve_cons, ih (hm.reaches (traced_answer r m)),
      (alike_answer r).mem_iff .empty m (below_empty hm), or_assoc]
    simp only [List.mem_cons, exists_eq_or_imp]

/-- The table that a list of requests leaves depends on which requests are in it, not on their order
or number; and whatever was asked before, failed requests included, a request has the outcome that
it has at the start. -/
theorem serve_order_and_history :
    (∀ rs rs' : List Request, (∀ r, r ∈ rs ↔ r ∈ rs') →
        (e.serve rs .empty).table = (e.serve rs' .empty).table) ∧
      ∀ (rs : List Request) (r : Request),
        outcome (e.answer r) (e.serve rs .empty) = outcome (e.answer r) .empty := by
  have hstart : e.Consistent (Memory.empty : Memory p).table := consistent_empty
  constructor
  · intro rs rs' h
    have hmem : ∀ u, u ∈ (e.serve rs .empty).table ↔ u ∈ (e.serve rs' .empty).table := by
      intro u
      rw [mem_serve hstart, mem_serve hstart]
      simp only [h]
    have hin := (consistent_serve rs).within (consistent_serve rs') fun u hu => (hmem u).1 hu
    exact hin.antisymm fun u hu => (hmem u).2 hu
  · intro rs r
    exact ((alike_answer r).outcome_eq _ _ (below_empty (consistent_serve rs))).symm

open Circuit in
/-- Six over zero: the divisor and the multiple, asked for in either order and one of them twice.
The events come in another order, the table is the same, and an evaluation fails as it does at
first. -/
theorem serve_quotientByZero_order :
    quotientByZero.serve [.valueOf 5, .valueOf 1] .empty =
        ⟨quotientInputs 6 0, [.collapsed 0 6, .collapsed 1 0]⟩ ∧
      (quotientByZero.serve [.valueOf 1, .valueOf 5, .valueOf 1] .empty).table =
        quotientInputs 6 0 ∧
      (quotientByZero.serve [.valueOf 1, .valueOf 5, .valueOf 1] .empty).journal =
        [.collapsed 1 0, .collapsed 0 6] ∧
      outcome (quotientByZero.answer .evaluate) .empty = .error (.divisionByZero 2) ∧
      outcome (quotientByZero.answer .evaluate)
        ⟨quotientInputs 6 0, [.collapsed 0 6, .collapsed 1 0]⟩ =
        .error (.divisionByZero 2) := by
  have hfive : quotientByZero.valueOf 5 .empty =
      .error (.divisionByZero 2) ⟨quotientInputs 6 0, [.collapsed 0 6, .collapsed 1 0]⟩ :=
    valueOf_of_resolveWithin_error (n := 9) (by decide +kernel) (by decide +kernel)
  have hone : quotientByZero.valueOf 1 .empty = .ok 0 (Memory.empty.store 1 0) :=
    valueOf_of_resolveWithin_ok (n := 2) (by decide +kernel) (by decide +kernel) (by decide +kernel)
  have hfive' : quotientByZero.valueOf 5 (Memory.empty.store 1 0) =
      .error (.divisionByZero 2) ((Memory.empty.store 1 0).store 0 6) :=
    valueOf_of_resolveWithin_error (n := 9) (by decide +kernel) (by decide +kernel)
  have hserve : quotientByZero.serve [.valueOf 5, .valueOf 1] .empty =
      ⟨quotientInputs 6 0, [.collapsed 0 6, .collapsed 1 0]⟩ := by
    rw [serve_cons, stateAfter_of_error (answer_valueOf_of_error hfive)]
    rfl
  have hjournal : quotientByZero.serve [.valueOf 1, .valueOf 5, .valueOf 1] .empty =
      (Memory.empty.store 1 0).store 0 6 := by
    rw [serve_cons, stateAfter_of_ok (answer_valueOf_of_ok hone), serve_cons,
      stateAfter_of_error (answer_valueOf_of_error hfive')]
    rfl
  obtain ⟨horder, hhistory⟩ := serve_order_and_history (e := quotientByZero)
  have htable := horder [.valueOf 5, .valueOf 1] [.valueOf 1, .valueOf 5, .valueOf 1] fun r => by
    simp only [List.mem_cons, List.not_mem_nil, or_false]
    tauto
  have houtcome := hhistory [.valueOf 5, .valueOf 1] .evaluate
  have hfirst := outcome_of_error (answer_evaluate_of_error evaluate_quotientByZero)
  rw [hserve] at htable houtcome
  exact ⟨hserve, htable.symm, congrArg Memory.journal hjournal, hfirst, houtcome.trans hfirst⟩

end Evaluator

end FieldCircuit
